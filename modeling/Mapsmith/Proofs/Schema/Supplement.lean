import Mapsmith.Proofs.Schema.Extension

/-!
# Putting in the constants that a document leaves out

`Schema.encode_of_supplements`: a constant that is absent is written by a way of its own, which
repeats what is done with one that is there. So a document is written as the same bytes when
its constants are put in, in the root and in every record that is written, provided that
nothing the schema asks depends on them. The two ways differ in one place: where a constant in
a block is absent, its bytes are not compared with the size of the block.
-/

namespace Mapsmith

/-- The document gains nothing but constants of the fields, and the keys of tables in it
keep their text. -/
structure Document.Gains (supply : Supply) (fields : List (String × FieldType))
    (document document' : Document) : Prop where
  kept : ∀ name value, document.get? name = some value → (document'.get? name).isSome
  others : ∀ name, name ∉ fields.map Prod.fst → document'.get? name = document.get? name
  added : ∀ field ∈ fields, ∀ value, document.get? field.1 = none →
    document'.get? field.1 = some value →
    field.2.absent? = some value
  texts : ∀ name value value', supply.keys name → document.get? name = some value →
    document'.get? name = some value' → Length.keyText value = Length.keyText value'

/-- At a field of the type, the second value is the first with constants put into the
records that are written. The value of a constant itself is left alone. -/
inductive FieldType.Supplements (definitions : Nat → FieldType) (supply : Supply) :
    FieldType → Scope → Value → Value → Prop
  | same {type scope value} : Supplements definitions supply type scope value value
  | raw {repr variants scope name raw raw'} : Supplements definitions supply repr scope raw raw' →
      Supplements definitions supply (.enum repr variants) scope (.enum name raw) (.enum name raw')
  | bare {repr variants scope value value'} : Codec.rawValue variants value = value →
      Codec.rawValue variants value' = value' →
      Supplements definitions supply repr scope value value' →
      Supplements definitions supply (.enum repr variants) scope value value'
  | record {name fields scope document document'} : document.Gains supply fields document' →
      (∀ field ∈ fields, ∀ value value', document.get? field.1 = some value →
        document'.get? field.1 = some value' →
          Supplements definitions supply field.2 (scope.child document) value value') →
      Supplements definitions supply (.record name fields) scope (.struct document)
      (.struct document')
  | array {length element scope items items'} : items.length = items'.length →
      (∀ (i : Nat) item item', items[i]? = some item → items'[i]? = some item' →
        Supplements definitions supply element scope item item') →
      Supplements definitions supply (.array length element) scope (.array items) (.array items')
  | greedy {element scope items items'} : items.length = items'.length →
      (∀ (i : Nat) item item', items[i]? = some item → items'[i]? = some item' →
        Supplements definitions supply element scope item item') →
      Supplements definitions supply (.greedy element) scope (.array items) (.array items')
  | sequence {types scope items items'} : items.length = types.length →
      items'.length = types.length →
      (∀ (i : Nat) type item item', types[i]? = some type → items[i]? = some item →
        items'[i]? = some item' → Supplements definitions supply type scope item item') →
      Supplements definitions supply (.sequence types) scope (.array items) (.array items')
  | switch {on cases default scope discriminant type value value'} :
      scope.resolve on = .ok discriminant → pick? cases default discriminant = some type →
      Supplements definitions supply type scope value value' →
      Supplements definitions supply (.switch on cases default) scope value value'
  | yes {condition yes no scope value value'} : condition scope = .ok true →
      Supplements definitions supply yes scope value value' →
      Supplements definitions supply (.conditional condition yes no) scope value value'
  | no {condition yes no scope value value'} : condition scope = .ok false →
      Supplements definitions supply no scope value value' →
      Supplements definitions supply (.conditional condition yes no) scope value value'
  | checked {relation holds inner scope value value'} :
      Supplements definitions supply inner scope value value' →
      Supplements definitions supply (.checked relation holds inner) scope value value'
  | padded {size inner scope value value'} :
      Supplements definitions supply inner scope value value' →
      Supplements definitions supply (.padded size inner) scope value value'
  | lazy {slot scope value value'} :
      Supplements definitions supply (definitions slot) scope value value' →
      Supplements definitions supply (.lazy slot) scope value value'

/-- The second document is the first with constants put in, in its root and in the records
that are written. -/
structure Schema.Supplements (schema : Schema) (supply : Supply) (options : CodecOptions)
    (document document' : Document) : Prop where
  gains : document.Gains supply schema.fields document'
  values : ∀ field ∈ schema.fields, ∀ value value', document.get? field.1 = some value →
    document'.get? field.1 = some value' →
      FieldType.Supplements schema.definitions supply field.2
        (Scope.root document options) value value'

/-- The constants of the fields may be put in. -/
def Supply.Covers (supply : Supply) (fields : List (String × FieldType)) : Prop :=
  ∀ field ∈ fields, ∀ value, field.2.absent? = some value → supply.constants field.1 value

/-- What the type itself decides does not depend on constants that may be put in. -/
def FieldType.Tolerant (supply : Supply) : FieldType → Prop
  | .bytes length | .array length _ => length.Tolerant supply
  | .record _ fields => supply.Covers fields
  | .conditional condition _ _ => ∀ scope scope' : Scope, scope.Extends supply scope' →
    ∀ truth, condition scope = .ok truth → condition scope' = .ok truth
  | .checked _ holds _ => ∀ scope scope' : Scope, scope.Extends supply scope' →
    ∀ value value', value.Extends supply value' → holds value scope = true →
    holds value' scope' = true
  | _ => True

/-- A site that is written the same whether constants are there or not. -/
structure Site.Tolerant (codec : Codec) (supply : Supply) (site : Site) : Prop where
  plain : site.NoSelection
  decides : site.type.Tolerant supply
  values : site.type.ValuesWellFormed
  fits : site.Fits codec

variable {codec : Codec} {supply : Supply}

-- ---------------------------------------------------------------------------
-- What is put in
-- ---------------------------------------------------------------------------

theorem Document.Gains.extends {document document' : Document}
    (h : document.Gains supply fields document')
    (hc : supply.Covers fields)
    (hv : ∀ field ∈ fields, ∀ value value', document.get? field.1 = some value →
      document'.get? field.1 = some value' → value.Extends supply value') :
    document.Extends supply document' := by
  refine .struct h.kept (fun name value value' hget hget' => ?_) h.texts fun name value hget
    hget' => ?_
  all_goals by_cases hn : name ∈ fields.map Prod.fst
  · obtain ⟨field, hf, rfl⟩ := List.mem_map.mp hn
    exact hv field hf value value' hget hget'
  · cases hget.symm.trans ((h.others name hn).symm.trans hget')
    exact .same
  · obtain ⟨field, hf, rfl⟩ := List.mem_map.mp hn
    exact hc field hf value (h.added field hf value hget hget')
  · cases hget.symm.trans ((h.others name hn).symm.trans hget')

theorem FieldType.Supplements.extends {scope : Scope}
    (h : Supplements codec.definitions supply type scope value value')
    (hs : Site.Everywhere codec.definitions (Site.Tolerant codec supply) ⟨seen, type⟩) :
    value.Extends supply value' := by
  induction h generalizing seen with
  | same => exact .same
  | raw _ ih => exact .enum (ih (hs.part .enum))
  | bare _ _ _ ih => exact ih (hs.part .enum)
  | record hgains _ ih =>
    refine hgains.extends hs.here.decides fun field hf value value' hv hv' => ?_
    obtain ⟨_, hfield⟩ := hs.field hf
    exact ih field hf value value' hv hv' hfield
  | array hlen _ ih =>
    exact .array hlen fun i item item' hi hi' => ih i item item' hi hi' (hs.part .element)
  | greedy hlen _ ih =>
    exact .array hlen fun i item item' hi hi' => ih i item item' hi hi' (hs.part .greedy)
  | sequence hlen hlen' _ ih =>
    refine .array (hlen.trans hlen'.symm) fun i item item' hi hi' => ?_
    obtain ⟨hlt, -⟩ := List.getElem?_eq_some_iff.mp hi
    have ht := List.getElem?_eq_getElem (hlen ▸ hlt)
    exact ih i _ item item' ht hi hi' (hs.part (.item (List.mem_of_getElem? ht)))
  | switch _ hp _ ih =>
    rcases mem_of_pick? hp with ⟨case, hc, rfl⟩ | ht
    · exact ih (hs.part (.case hc))
    · exact ih (hs.part (.default ht))
  | yes _ _ ih => exact ih (hs.part .yes)
  | no _ _ ih => exact ih (hs.part .no)
  | checked _ ih => exact ih (hs.part .checked)
  | padded _ ih => exact ih (hs.part .padded)
  | lazy _ ih => exact ih (hs.part .lazy)

-- ---------------------------------------------------------------------------
-- The parts of what is put in
-- ---------------------------------------------------------------------------

section

variable {definitions : Nat → FieldType} {inner repr yes no : FieldType}
    {default : Option FieldType}
  {scope : Scope} {document : Document} {items : List Value} {value value' : Value}

theorem Document.Gains.refl (document : Document) : document.Gains supply fields document where
  kept name value hv := by simp [hv]
  others _ _ := rfl
  added field _ value hnone hv := by cases hnone.symm.trans hv
  texts name value value' _ hv hv' := by cases hv.symm.trans hv'; rfl

namespace FieldType.Supplements

theorem record_parts
    (h : Supplements definitions supply (.record name fields) scope (.struct document) value') :
    ∃ document', value' = .struct document' ∧ document.Gains supply fields document' ∧
      ∀ field ∈ fields, ∀ value value', document.get? field.1 = some value →
        document'.get? field.1 = some value' →
          Supplements definitions supply field.2 (scope.child document) value value' := by
  cases h with
  | same =>
    refine ⟨document, rfl, .refl document, fun field _ value value' hv hv' => ?_⟩
    cases hv.symm.trans hv'
    exact .same
  | record hgains hvalues => exact ⟨_, rfl, hgains, hvalues⟩

theorem array_parts
    (h : Supplements definitions supply (.array length element) scope (.array items) value') :
    ∃ items', value' = .array items' ∧ items.length = items'.length ∧
      ∀ (i : Nat) item item', items[i]? = some item → items'[i]? = some item' →
        Supplements definitions supply element scope item item' := by
  cases h with
  | same =>
    refine ⟨items, rfl, rfl, fun i item item' hi hi' => ?_⟩
    cases hi.symm.trans hi'
    exact .same
  | array hlen hitems => exact ⟨_, rfl, hlen, hitems⟩

theorem greedy_parts
    (h : Supplements definitions supply (.greedy element) scope (.array items) value') :
    ∃ items', value' = .array items' ∧ items.length = items'.length ∧
      ∀ (i : Nat) item item', items[i]? = some item → items'[i]? = some item' →
        Supplements definitions supply element scope item item' := by
  cases h with
  | same =>
    refine ⟨items, rfl, rfl, fun i item item' hi hi' => ?_⟩
    cases hi.symm.trans hi'
    exact .same
  | greedy hlen hitems => exact ⟨_, rfl, hlen, hitems⟩

theorem sequence_parts
    (h : Supplements definitions supply (.sequence types) scope (.array items) value')
    (hlen : items.length = types.length) :
    ∃ items', value' = .array items' ∧ items'.length = types.length ∧
      ∀ (i : Nat) type item item', types[i]? = some type → items[i]? = some item →
        items'[i]? = some item' → Supplements definitions supply type scope item item' := by
  cases h with
  | same =>
    refine ⟨items, rfl, hlen, fun i type item item' _ hi hi' => ?_⟩
    cases hi.symm.trans hi'
    exact .same
  | sequence _ hlen' hitems => exact ⟨_, rfl, hlen', hitems⟩

theorem enum_parts (h : Supplements definitions supply (.enum repr variants) scope value value') :
    Supplements definitions supply repr scope (Codec.rawValue variants value)
      (Codec.rawValue variants value') := by
  cases h with
  | same => exact .same
  | @raw _ _ _ name raw raw' hraw =>
    -- Where the name is known, its raw value is written in place of the one at hand.
    cases name with
    | none => exact hraw
    | some name =>
      rw [Codec.rawValue, Codec.rawValue]
      cases variantRaw? variants name with
      | none => exact hraw
      | some known => exact .same
  | bare hvalue hvalue' hbare => rwa [hvalue, hvalue']

theorem switch_part
    (h : Supplements definitions supply (.switch on cases default) scope value value')
    (hdisc : scope.resolve on = .ok discriminant)
    (hpick : pick? cases default discriminant = some type) :
    Supplements definitions supply type scope value value' := by
  cases h with
  | same => exact .same
  | switch hdisc' hpick' hpart =>
    cases hdisc.symm.trans hdisc'
    cases hpick.symm.trans hpick'
    exact hpart

theorem yes_part
    (h : Supplements definitions supply (.conditional condition yes no) scope value value')
    (hcond : condition scope = .ok true) :
    Supplements definitions supply yes scope value value' := by
  cases h with
  | same => exact .same
  | yes _ hpart => exact hpart
  | no hcond' => cases hcond.symm.trans hcond'

theorem no_part
    (h : Supplements definitions supply (.conditional condition yes no) scope value value')
    (hcond : condition scope = .ok false) :
    Supplements definitions supply no scope value value' := by
  cases h with
  | same => exact .same
  | yes hcond' => cases hcond.symm.trans hcond'
  | no _ hpart => exact hpart

theorem checked_part
    (h : Supplements definitions supply (.checked relation holds inner) scope value value') :
    Supplements definitions supply inner scope value value' := by
  cases h with
  | same => exact .same
  | checked hpart => exact hpart

theorem padded_part (h : Supplements definitions supply (.padded size inner) scope value value') :
    Supplements definitions supply inner scope value value' := by
  cases h with
  | same => exact .same
  | padded hpart => exact hpart

theorem lazy_part (h : Supplements definitions supply (.lazy slot) scope value value') :
    Supplements definitions supply (definitions slot) scope value value' := by
  cases h with
  | same => exact .same
  | lazy hpart => exact hpart

end FieldType.Supplements

end

-- ---------------------------------------------------------------------------
-- Writing what is put in
-- ---------------------------------------------------------------------------

open Codec

/-- A writer that takes a value and the one with constants put in to the same bytes. -/
def WritesSupplemented (codec : Codec) (supply : Supply) (write : Writer) : Prop :=
  ∀ seen type, Site.Everywhere codec.definitions (Site.Tolerant codec supply) ⟨seen, type⟩ →
    ∀ scope scope' : Scope, scope.Extends supply scope' →
      ∀ path value value', FieldType.Supplements codec.definitions supply type scope value value' →
        ∀ written, write path type value scope = .ok written →
          write path type value' scope' = .ok written

namespace WritesSupplemented

variable {write : Writer} {scope scope' : Scope}

theorem missing (h : WritesSupplemented codec supply write)
    (hs : Site.Everywhere codec.definitions (Site.Tolerant codec supply) ⟨seen, type⟩)
    (hr : scope.Extends supply scope') (hw : writeMissing write path scope type = .ok written) :
    writeMissing write path scope' type = .ok written := by
  unfold writeMissing at hw ⊢
  split at hw
  · exact h _ _ (hs.part .const) _ _ hr _ _ _ .same _ hw
  · simp only [bind_ok] at hw ⊢
    obtain ⟨content, hcontent, hw⟩ := hw
    exact ⟨content, h _ _ ((hs.part .padded).part .const) _ _ hr _ _ _ .same _ hcontent, hw⟩
  · cases hw

theorem field {fields : List (String × FieldType)} {field : String × FieldType}
    (h : WritesSupplemented codec supply
      (FieldType.writeAt codec (FieldType.constantBytes codec) levels))
    (hs : Site.Everywhere codec.definitions (Site.Tolerant codec supply) ⟨seen, field.2⟩)
    (hr : scope.Extends supply scope') (hf : field ∈ fields)
    (hg : scope.current.Gains supply fields scope'.current)
    (hv : ∀ value value', scope.current.get? field.1 = some value →
      scope'.current.get? field.1 = some value' →
      FieldType.Supplements codec.definitions supply field.2 scope value value')
    (hw : WritesField (FieldType.writeAt codec (FieldType.constantBytes codec) levels) path scope
      field written) :
    WritesField (FieldType.writeAt codec (FieldType.constantBytes codec) levels) path scope' field
      written := by
  unfold WritesField at hw ⊢
  cases hget : scope.current.get? field.1 with
  | some value =>
    obtain ⟨value', hget'⟩ := Option.isSome_iff_exists.mp (hg.kept _ value hget)
    simp only [hget, hget'] at hw ⊢
    exact h _ _ hs _ _ hr _ _ _ (hv value value' hget hget') _ hw
  | none =>
    simp only [hget] at hw
    have hmissing := h.missing hs hr hw
    cases hget' : scope'.current.get? field.1 with
    | none => exact hmissing
    | some value' =>
      have habsent := hg.added field hf value' hget hget'
      have hwell := FieldType.absent_wellFormed (hs.mono fun _ h => h.values) habsent
      have hfits := hs.here.fits levels
      obtain ⟨deeper, hctx, -⟩ :=
        FieldType.exists_writeAt codec (FieldType.constantBytes codec) levels
      rw [hctx] at hmissing hfits ⊢
      exact WriteContext.write_absent _ habsent hwell.beq_self hfits hmissing

theorem fields {fields : List (String × FieldType)}
    (h : WritesSupplemented codec supply
      (FieldType.writeAt codec (FieldType.constantBytes codec) levels))
    (hs : ∀ field ∈ fields, ∃ seen, Site.Everywhere codec.definitions (Site.Tolerant codec supply)
      ⟨seen, field.2⟩)
    (hr : scope.Extends supply scope') (hg : scope.current.Gains supply fields scope'.current)
    (hv : ∀ field ∈ fields, ∀ value value', scope.current.get? field.1 = some value →
      scope'.current.get? field.1 = some value' →
        FieldType.Supplements codec.definitions supply field.2 scope value value')
    (hw : writeFields (FieldType.writeAt codec (FieldType.constantBytes codec) levels) path scope
      fields = .ok written) :
    writeFields (FieldType.writeAt codec (FieldType.constantBytes codec) levels) path scope'
    fields = .ok written := by
  rw [writeFields_ok] at hw ⊢
  obtain ⟨hknown, parts, hparts, rfl⟩ := hw
  refine ⟨fun name hn => ?_, parts, ?_, rfl⟩
  · by_contra hunknown
    rw [Document.mem_names_iff, hg.others name hunknown, ← Document.mem_names_iff] at hn
    exact hunknown (hknown name hn)
  · rw [List.forall₂_iff_zip] at hparts ⊢
    refine ⟨hparts.1, fun {field written} hz => ?_⟩
    have hf := (List.of_mem_zip hz).1
    obtain ⟨_, hsite⟩ := hs field hf
    exact h.field hsite hr hf hg (hv field hf) (hparts.2 hz)

end WritesSupplemented

namespace WriteContext

theorem write_supplemented {deeper : Option Writer}
    (hdeeper : ∀ write ∈ deeper, ∃ fewer,
      write = FieldType.writeAt codec (FieldType.constantBytes codec) fewer)
    (hd : ∀ write ∈ deeper, WritesSupplemented codec supply write) :
    WritesSupplemented codec supply (write ⟨codec, FieldType.constantBytes codec, deeper⟩) := by
  intro seen type hs scope scope' hr path value value' hm written hw
  induction type using FieldType.induction generalizing path value value' written with
  | bytes length =>
    cases hm
    rw [write_bytes_ok] at hw ⊢
    obtain ⟨hcontent, hasks⟩ := hw
    exact ⟨hcontent, hasks.imp (hs.here.decides.asks hr) (hs.here.decides.asks hr)⟩
  | const inner expected ih =>
    cases hm
    rw [write] at hw ⊢
    split at hw
    · rw [if_pos ‹_›]
      exact ih (hs.part .const) _ _ _ .same _ hw
    · cases hw
  | enum repr variants ih =>
    rw [write] at hw ⊢
    exact ih (hs.part .enum) _ _ _ hm.enum_parts _ hw
  | record name fields =>
    simp only [write, bind_ok, expect_ok, descend_ok] at hw ⊢
    obtain ⟨document, hdocument, write, hwrite, hw⟩ := hw
    cases value <;> cases hdocument
    obtain ⟨document', rfl, hgains, hvalues⟩ := hm.record_parts
    refine ⟨document', rfl, write, hwrite, ?_⟩
    obtain ⟨fewer, rfl⟩ := hdeeper write hwrite
    have hextends : document.Extends supply document' := by
      refine hgains.extends hs.here.decides fun field hf value value' hv hv' => ?_
      obtain ⟨_, hfield⟩ := hs.field hf
      exact (hvalues field hf value value' hv hv').extends hfield
    exact (hd _ hwrite).fields (fun _ hf => hs.field hf) (hr.child hextends) hgains hvalues hw
  | array length element ih =>
    simp only [write, bind_ok, expect_ok, checkCount_ok, writeItems_ok] at hw ⊢
    obtain ⟨items, hitems, _, hasks, hw⟩ := hw
    cases value <;> cases hitems
    obtain ⟨items', rfl, hlen, hparts⟩ := hm.array_parts
    refine ⟨items', rfl, (), hlen ▸ hasks.imp (hs.here.decides.asks hr) (hs.here.decides.asks hr),
      hw.meant hlen ?_⟩
    exact fun i item item' hi hi' path written => ih (hs.part .element) _ _ _
      (hparts i item item' hi hi') _
  | greedy element ih =>
    simp only [write, bind_ok, expect_ok, writeItems_ok] at hw ⊢
    obtain ⟨items, hitems, hw⟩ := hw
    cases value <;> cases hitems
    obtain ⟨items', rfl, hlen, hparts⟩ := hm.greedy_parts
    refine ⟨items', rfl, hw.meant hlen ?_⟩
    exact fun i item item' hi hi' path written => ih (hs.part .greedy) _ _ _
      (hparts i item item' hi hi') _
  | sequence types ih =>
    rw [write_sequence_ok] at hw ⊢
    obtain ⟨items, hitems, hlen, hw⟩ := hw
    cases value <;> cases hitems
    obtain ⟨items', rfl, hlen', hparts⟩ := hm.sequence_parts hlen
    refine ⟨items', rfl, hlen', writeSequence_meant hlen hlen' ?_ hw⟩
    intro i type item item' ht hi hi' path written
    have hmem := List.mem_of_getElem? ht
    exact ih type hmem (hs.part (.item hmem)) _ _ _ (hparts i type item item' ht hi hi') _
  | switch on cases default ihc ihd =>
    obtain ⟨discriminant, type, hdisc, hpick, hw⟩ := write_switch_ok.mp hw
    obtain ⟨discriminant', hdisc', hextends, -⟩ := hr.resolve hdisc
    have hpick' :=
      (FieldType.pick?_congr default fun case _ => hextends.matches_eq case.1).symm.trans hpick
    refine write_switch_ok.mpr ⟨discriminant', type, hdisc', hpick', ?_⟩
    rcases FieldType.mem_of_pick? hpick with ⟨case, hc, rfl⟩ | ht
    · exact ihc case hc (hs.part (.case hc)) _ _ _ (hm.switch_part hdisc hpick) _ hw
    · exact ihd _ ht (hs.part (.default ht)) _ _ _ (hm.switch_part hdisc hpick) _ hw
  | conditional condition yes no ihy ihn =>
    simp only [write, bind_ok, answered_ok] at hw ⊢
    obtain ⟨truth, htruth, hw⟩ := hw
    refine ⟨truth, hs.here.decides _ _ hr _ htruth, ?_⟩
    cases truth with
    | true => exact ihy (hs.part .yes) _ _ _ (hm.yes_part htruth) _ hw
    | false => exact ihn (hs.part .no) _ _ _ (hm.no_part htruth) _ hw
  | select alternatives => exact absurd rfl (hs.here.plain alternatives)
  | checked relation holds inner ih =>
    rw [write] at hw ⊢
    split at hw
    · rename_i hholds
      have hextends := hm.checked_part.extends (hs.part .checked)
      rw [if_pos (hs.here.decides _ _ hr _ _ hextends hholds)]
      exact ih (hs.part .checked) _ _ _ hm.checked_part _ hw
    · cases hw
  | padded size inner ih =>
    rw [write, bind_ok] at hw ⊢
    obtain ⟨content, hcontent, hw⟩ := hw
    exact ⟨content, ih (hs.part .padded) _ _ _ hm.padded_part _ hcontent, hw⟩
  | lazy slot =>
    rw [write, descend_ok] at hw ⊢
    obtain ⟨write, hwrite, hw⟩ := hw
    exact ⟨write, hwrite, hd write hwrite _ _ (hs.part .lazy) _ _ hr _ _ _ hm.lazy_part _ hw⟩
  | _ =>
    cases hm
    exact hw

end WriteContext

theorem FieldType.writeAt_supplemented (codec : Codec) (supply : Supply) (levels : Nat) :
    WritesSupplemented codec supply (writeAt codec (constantBytes codec) levels) := by
  induction levels with
  | zero => exact WriteContext.write_supplemented nofun nofun
  | succ levels ih =>
    refine WriteContext.write_supplemented ?_ ?_
    all_goals rintro _ ⟨⟩
    · exact ⟨levels, rfl⟩
    · exact ih

/-- What may be put in are the constants of the schema, and nothing that it decides
depends on them. -/
structure Schema.Tolerant (schema : Schema) (supply : Supply) (options : CodecOptions) : Prop where
  covers : supply.Covers schema.fields
  sites : schema.Everywhere (Site.Tolerant (schema.codec options) supply)

/-- A document that is written leaves out its constants without harm: with any of them put
in, it is written as the same bytes. -/
theorem Schema.encode_of_supplements {schema : Schema} {options : CodecOptions}
    {document document' : Document}
    (hs : schema.Tolerant supply options) (h : schema.Supplements supply options document document')
    (hw : schema.encode options document = .ok bytes) :
    schema.encode options document' = .ok bytes := by
  have hsites (field : String × FieldType) (hf : field ∈ schema.fields) : ∃ seen, Site.Everywhere
      (schema.codec options).definitions (Site.Tolerant (schema.codec options) supply)
        ⟨seen, field.2⟩ :=
    hs.sites.field hf
  have hextends : document.Extends supply document' := by
    refine h.gains.extends hs.covers fun field hf value value' hv hv' => ?_
    obtain ⟨_, hfield⟩ := hsites field hf
    exact (h.values field hf value value' hv hv').extends hfield
  exact (FieldType.writeAt_supplemented (schema.codec options) supply options.maxDepth).fields
    hsites (.root hextends options) h.gains h.values hw

-- ---------------------------------------------------------------------------
-- A constant in a block
-- ---------------------------------------------------------------------------

theorem Site.tolerant_int (codec : Codec) (supply : Supply) (seen : List (List String))
    (kind : IntKind)
    (order : ByteOrder) :
    Site.Everywhere codec.definitions (Site.Tolerant codec supply) ⟨seen, .int kind order⟩ :=
  .intro ⟨nofun, trivial, trivial, fun _ => trivial⟩ fun _ hp => nomatch hp

theorem Site.tolerant_magic (codec : Codec) (supply : Supply) (seen : List (List String))
    (content : Bytes) :
    Site.Everywhere codec.definitions (Site.Tolerant codec supply) ⟨seen, .magic content⟩ := by
  refine .intro ⟨nofun, trivial, .bytes content, fun _ => trivial⟩ ?_
  rintro _ ⟨⟩
  exact .intro ⟨nofun, trivial, trivial, fun _ => trivial⟩ fun _ hp => nomatch hp

/-- A constant is tolerant in a block that it fits in. -/
theorem Site.tolerant_block (codec : Codec) (supply : Supply) (seen : List (List String))
    (hle : content.length ≤ size) :
    Site.Everywhere codec.definitions (Site.Tolerant codec supply)
      ⟨seen, .padded size (.magic content)⟩ := by
  refine .intro ⟨nofun, trivial, trivial, fun levels path scope written hw => ?_⟩ ?_
  · obtain ⟨_, hctx, -⟩ := FieldType.exists_writeAt codec (FieldType.constantBytes codec) levels
    rw [hctx, WriteContext.write_bytes_ok] at hw
    obtain ⟨⟨⟩, -⟩ := hw
    exact hle
  · rintro _ ⟨⟩
    exact Site.tolerant_magic codec supply seen content

/-- A count of lines, and the lines, each with a mark in a block of four bytes. -/
def lines : Schema where
  name := "Lines"
  fields := [("id", .magic [0x4C]), ("count", .int .u8 .little),
    ("lines", .array (.field ⟨0, ["count"]⟩) (.record "Line"
      [("mark", .padded 4 (.magic [1, 2])), ("length", .int .u8 .little)]))]

def lineSupply : Supply where
  constants name value := (name, value) ∈ [("id", Value.bytes [0x4C]), ("mark", .bytes [1, 2])]
  keys _ := False

theorem lines_tolerant : lines.Tolerant lineSupply {} := by
  have hmark (names : List (List String)) : Site.Everywhere lines.definitions
      (Site.Tolerant (lines.codec {}) lineSupply) ⟨names, .padded 4 (.magic [1, 2])⟩ :=
    Site.tolerant_block (lines.codec {}) lineSupply names (by decide)
  have hint (names : List (List String)) : Site.Everywhere lines.definitions
      (Site.Tolerant (lines.codec {}) lineSupply) ⟨names, .int .u8 .little⟩ :=
    Site.tolerant_int (lines.codec {}) lineSupply names _ _
  refine ⟨?_, fun before field after heq => ?_⟩
  · rintro field (_ | ⟨_, _ | ⟨_, _ | ⟨_, ⟨⟩⟩⟩⟩) value ⟨⟩
    exact List.mem_cons_self
  have hf : field ∈ lines.fields := heq ▸ by simp
  obtain _ | ⟨_, _ | ⟨_, _ | ⟨_, ⟨⟩⟩⟩⟩ := hf
  · exact Site.tolerant_magic (lines.codec {}) lineSupply _ _
  · exact hint _
  · refine .intro ⟨nofun, trivial, trivial, fun _ => trivial⟩ ?_
    rintro _ ⟨⟩
    refine .record ⟨nofun, ?_, trivial, fun _ => trivial⟩ fun before field after heq => ?_
    · rintro field (_ | ⟨_, _ | ⟨_, ⟨⟩⟩⟩) value ⟨⟩
      exact List.mem_cons_of_mem _ List.mem_cons_self
    · have hf :
          field ∈ [("mark", FieldType.padded 4 (.magic [1, 2])), ("length", .int .u8 .little)] :=
        heq ▸ by simp
      obtain _ | ⟨_, _ | ⟨_, ⟨⟩⟩⟩ := hf
      · exact hmark _
      · exact hint _

/-- A line without its mark, in a document without its identifier. -/
def unmarked : Document :=
  ⟨[("count", .int 1), ("lines", .array [.struct ⟨[("length", .int 9)]⟩])]⟩

def marked : Document :=
  ⟨[("id", .bytes [0x4C]), ("count", .int 1),
    ("lines", .array [.struct ⟨[("mark", .bytes [1, 2]), ("length", .int 9)]⟩])]⟩

theorem lines_supplements : lines.Supplements lineSupply {} unmarked marked := by
  refine ⟨⟨?_, ?_, ?_, fun _ _ _ hkey => hkey.elim⟩, ?_⟩
  · intro name value hv
    obtain _ | ⟨_, _ | ⟨_, ⟨⟩⟩⟩ := Document.mem_of_get? hv <;> rfl
  · intro name hn
    rw [Document.get?_eq_none_iff.mpr hn, Document.get?_eq_none_iff.mpr]
    exact fun h => hn (List.mem_cons_of_mem _ h)
  · rintro field (_ | ⟨_, _ | ⟨_, _ | ⟨_, ⟨⟩⟩⟩⟩) value hnone hv <;> cases hnone
    cases hv
    rfl
  rintro field (_ | ⟨_, _ | ⟨_, _ | ⟨_, ⟨⟩⟩⟩⟩) value value' hv hv' <;> cases hv <;> cases hv'
  · exact .same
  · refine .array rfl fun i item item' hi hi' => ?_
    obtain rfl : i = 0 := by
      obtain ⟨hlt, -⟩ := List.getElem?_eq_some_iff.mp hi
      exact Nat.lt_one_iff.mp hlt
    cases hi
    cases hi'
    refine .record ⟨?_, ?_, ?_, fun _ _ _ hkey => hkey.elim⟩ ?_
    · intro name value hv
      obtain _ | ⟨_, ⟨⟩⟩ := Document.mem_of_get? hv
      rfl
    · intro name hn
      rw [Document.get?_eq_none_iff.mpr hn, Document.get?_eq_none_iff.mpr]
      exact fun h => hn (List.mem_cons_of_mem _ h)
    · rintro field (_ | ⟨_, _ | ⟨_, ⟨⟩⟩⟩) value hnone hv <;> cases hnone
      cases hv
      rfl
    · rintro field (_ | ⟨_, _ | ⟨_, ⟨⟩⟩⟩) value value' hv hv'
      · cases hv
      · cases hv
        cases hv'
        exact .same

theorem encode_marked :
    lines.Tolerant lineSupply {} ∧ lines.Supplements lineSupply {} unmarked marked ∧
      lines.encode {} unmarked = .ok [0x4C, 1, 1, 2, 0, 0, 9] ∧
      lines.encode {} marked = .ok [0x4C, 1, 1, 2, 0, 0, 9] :=
  ⟨lines_tolerant, lines_supplements, rfl,
    Schema.encode_of_supplements lines_tolerant lines_supplements rfl⟩

/-- A constant of four bytes in a block of two. -/
def crowded : Schema where
  name := "Crowded"
  fields := [("magic", .padded 2 (.magic [0x61, 0x62, 0x63, 0x64]))]

/-- A constant that is too long for its block is written only where it is absent. -/
theorem crowded_refused :
    crowded.encode {} ⟨[]⟩ = .ok [0x61, 0x62, 0x63, 0x64] ∧
      crowded.encode {} ⟨[("magic", .bytes [0x61, 0x62, 0x63, 0x64])]⟩ =
        .error (.roundTrip "magic" (.blockTooSmall 4 2)) :=
  ⟨rfl, rfl⟩

end Mapsmith
