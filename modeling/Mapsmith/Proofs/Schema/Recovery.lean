import Mathlib.Data.List.Pairwise
import Mapsmith.Proofs.Schema.Selection

/-!
# Decoding takes back selections

`Schema.Regains.decode`: a selection is read as it was written if its alternatives can be told
apart: each is written by its own alternative only, and what that one writes none before it
reads. With that, what is saved reads back for schemas with selections as well.

Selections that stand elsewhere than in records, arrays with a length, alternatives and lazy
fields are left out.
-/

namespace Mapsmith

/-- The value has decoded form, at a selection that of one of the alternatives. What
`admits` says is asked of the values of selections besides. -/
inductive FieldType.Formed (definitions : Nat → FieldType) (admits : Value → Prop) :
    FieldType → Scope → Value → Prop
  | plain {type scope value} : Decoded definitions type scope value →
      Formed definitions admits type scope value
  | record {name fields scope document} : document.names = fields.map Prod.fst →
      (∀ field ∈ fields, ∀ value, document.get? field.1 = some value →
        Formed definitions admits field.2 (scope.child document) value) →
      Formed definitions admits (.record name fields) scope (.struct document)
  | array {length element scope items} :
      (∀ item ∈ items, Formed definitions admits element scope item) →
      Formed definitions admits (.array length element) scope (.array items)
  | select {alternatives type scope value} : type ∈ alternatives → admits value →
      Formed definitions admits type scope value →
      Formed definitions admits (.select alternatives) scope value
  | lazy {slot scope value} : Formed definitions admits (definitions slot) scope value →
      Formed definitions admits (.lazy slot) scope value

structure Schema.Formed (schema : Schema) (options : CodecOptions) (admits : Value → Prop)
    (document : Document) : Prop where
  names : document.names = schema.fields.map Prod.fst
  values : ∀ field ∈ schema.fields, ∀ value, document.get? field.1 = some value →
    FieldType.Formed schema.definitions admits field.2 (Scope.root document options) value

theorem Document.values_of_entries {document : Document} {fields : List (String × FieldType)}
    (P : FieldType → Value → Prop) (hn : (fields.map Prod.fst).Nodup)
    (h : List.Forall₂ (fun field entry => field.1 = entry.1 ∧
      P field.2 entry.2) fields document.entries) :
    document.names = fields.map Prod.fst ∧
      ∀ field ∈ fields, ∀ value, document.get? field.1 = some value → P field.2 value := by
  have hnames : document.names = fields.map Prod.fst := by
    rw [names, ← List.forall₂_eq_eq_eq, List.forall₂_map_left_iff, List.forall₂_map_right_iff]
    exact h.flip.imp fun _ _ h => h.1.symm
  refine ⟨hnames, fun field hf value hv => ?_⟩
  obtain ⟨i, hi, rfl⟩ := List.getElem_of_mem hf
  have hi' : i < document.entries.length := h.length_eq ▸ hi
  obtain ⟨hname, hvalue⟩ := h.get hi hi'
  have hget : document.get? (document.entries[i]).1 = some (document.entries[i]).2 :=
    get?_of_mem (hnames ▸ hn) (List.getElem_mem hi')
  rw [List.get_eq_getElem, List.get_eq_getElem] at hname hvalue
  rw [hname, hget, Option.some.injEq] at hv
  exact hv ▸ hvalue

theorem Schema.Formed.of_entries {schema : Schema} (hn : (schema.fields.map Prod.fst).Nodup)
    (h : List.Forall₂ (fun field entry => field.1 = entry.1 ∧
      FieldType.Formed schema.definitions admits
      field.2 (Scope.root document options) entry.2) schema.fields document.entries) :
    schema.Formed options admits document := by
  obtain ⟨hnames, hvalues⟩ :=
    Document.values_of_entries
      (FieldType.Formed schema.definitions admits · (Scope.root document options) ·) hn h
  exact ⟨hnames, hvalues⟩

namespace FieldType.Formed

variable {definitions : Nat → FieldType} {admits : Value → Prop}

theorem of_entries {document : Document} (hn : (fields.map Prod.fst).Nodup)
    (h : List.Forall₂ (fun field entry => field.1 = entry.1 ∧ Formed definitions admits field.2
      (scope.child document) entry.2) fields document.entries) :
    Formed definitions admits (.record name fields) scope (.struct document) := by
  obtain ⟨hnames, hvalues⟩ := Document.values_of_entries (Formed definitions admits ·
    (scope.child document) ·) hn h
  exact .record hnames hvalues

theorem enum {repr : FieldType} {variants : List (String × Value)}
    (hname : variantName? variants raw = name)
    (h : Decoded definitions repr scope raw) :
    Formed definitions admits (.enum repr variants) scope (.enum name raw) := by
  subst hname
  exact .plain (.enum h)

theorem of_record (h : Formed definitions admits (.record name fields) scope value) :
    ∃ document, value = .struct document ∧ document.names = fields.map Prod.fst ∧
      ∀ field ∈ fields, ∀ value, document.get? field.1 = some value →
        Formed definitions admits field.2 (scope.child document) value := by
  cases h with
  | plain h =>
    cases h with
    | record hnames hvalues =>
      exact ⟨_, rfl, hnames, fun field hf value hv => .plain (hvalues field hf value hv)⟩
  | record hnames hvalues => exact ⟨_, rfl, hnames, hvalues⟩

theorem of_array (h : Formed definitions admits (.array length element) scope value) :
    ∃ items, value = .array items ∧
      ∀ item ∈ items, Formed definitions admits element scope item := by
  cases h with
  | plain h =>
    cases h with
    | array hitems => exact ⟨_, rfl, fun item hi => .plain (hitems item hi)⟩
  | array hitems => exact ⟨_, rfl, hitems⟩

theorem of_select (h : Formed definitions admits (.select alternatives) scope value) :
    ∃ type ∈ alternatives, admits value ∧ Formed definitions admits type scope value := by
  cases h with
  | plain h => cases h
  | select hmem hadmits hvalue => exact ⟨_, hmem, hadmits, hvalue⟩

theorem of_lazy (h : Formed definitions admits (.lazy slot) scope value) :
    Formed definitions admits (definitions slot) scope value := by
  cases h with
  | plain h =>
    cases h with
    | lazy hvalue => exact .plain hvalue
  | lazy hvalue => exact hvalue

theorem mono (h : Formed definitions admits type scope value)
    (himp : ∀ value, admits value → admits' value) :
    Formed definitions admits' type scope value := by
  induction h with
  | plain h => exact .plain h
  | record hnames _ ih => exact .record hnames ih
  | array _ ih => exact .array ih
  | select hmem hadmits _ ih => exact .select hmem (himp _ hadmits) ih
  | lazy _ ih => exact .lazy ih

theorem decoded (h : Formed definitions admits type scope value)
    (hs : Site.Everywhere definitions Site.NoSelection ⟨seen, type⟩) :
    Decoded definitions type scope value := by
  induction h generalizing seen with
  | plain h => exact h
  | record hnames _ ih =>
    refine .record hnames fun field hf value hv => ?_
    obtain ⟨_, hfield⟩ := hs.field hf
    exact ih field hf value hv hfield
  | array _ ih => exact .array fun item hi => ih item hi (hs.part .element)
  | select => exact absurd rfl (hs.here _)
  | lazy _ ih => exact .lazy (ih (hs.part .lazy))

theorem wellFormed (h : Formed definitions admits type scope value)
    (hs : Site.Everywhere definitions Site.NamesDistinct ⟨seen, type⟩) : value.WellFormed := by
  induction h generalizing seen with
  | plain h => exact h.wellFormed hs
  | record hnames _ ih =>
    refine (Document.wellFormed_of_names hnames hs.here fun name hn value hv => ?_).toStruct
    obtain ⟨field, hf, rfl⟩ := List.mem_map.mp hn
    obtain ⟨_, hfield⟩ := hs.field hf
    exact ih field hf value hv hfield
  | array _ ih => exact .array fun item hi => ih item hi (hs.part .element)
  | select hmem _ _ ih => exact ih (hs.part (.alternative hmem))
  | lazy _ ih => exact ih (hs.part .lazy)

end FieldType.Formed

theorem Schema.Formed.mono {schema : Schema} (h : schema.Formed options admits document)
    (himp : ∀ value, admits value → admits' value) : schema.Formed options admits' document :=
  ⟨h.names, fun field hf value hv => (h.values field hf value hv).mono himp⟩

-- ---------------------------------------------------------------------------
-- Alternatives that are told apart
-- ---------------------------------------------------------------------------

namespace FieldType

/-- A value of the form of the second type is not written as the first one. -/
def Refuses (codec : Codec) (admits : Value → Prop) (other type : FieldType) : Prop :=
  ∀ levels constantBytes path scope value written, admits value →
    Formed codec.definitions admits type scope value →
    writeAt codec constantBytes levels path other value scope ≠ .ok written

/-- Neither type writes the values of the other's form. -/
def Apart (codec : Codec) (admits : Value → Prop) (a b : FieldType) : Prop :=
  a.Refuses codec admits b ∧ b.Refuses codec admits a

instance : Std.Symm (Apart codec admits) := ⟨fun _ _ h => h.symm⟩

/-- What the second type writes of a value of its form is not read as the first one. -/
def Overlooks (codec : Codec) (admits : Value → Prop) (names : Names)
    (other type : FieldType) : Prop :=
  ∀ levels constantBytes path (scope scope' : Scope) value written, scope.Agree names scope' →
    scope.options = codec.options → admits value →
    Formed codec.definitions admits type scope value →
    writeAt codec constantBytes levels path type value scope = .ok written →
    ∀ (start : Place) rest, start.rest = written ++ rest →
      ∀ found stop, readAt codec levels other scope' start ≠ .ok found stop

end FieldType

/-- The alternatives of a selection are told apart. -/
def Site.Tells (codec : Codec) (admits : Value → Prop) (site : Site) : Prop :=
  ∀ alternatives, site.type = .select alternatives → alternatives.Pairwise fun other type =>
    other.Refuses codec admits type ∧ type.Refuses codec admits other ∧
      other.Overlooks codec admits site.names type

/-- The types that may have selections in them: all others are free of them. -/
def FieldType.MayChoose : FieldType → Prop
  | .record .. | .select _ | .lazy _ => True
  | .array length _ => length ≠ .remaining
  | _ => False

/-- Selections stand in records, in arrays with a length, in alternatives and in lazy
fields only. -/
def Site.Chooses (definitions : Nat → FieldType) (site : Site) : Prop :=
  Site.Everywhere definitions Site.NoSelection site ∨ site.type.MayChoose

/-- A site where decoding takes back what encoding did, with selections or without. -/
structure Site.Regains (codec : Codec) (admits : Value → Prop) (site : Site) : Prop where
  recoverable : site.NoSelection → site.type.Recoverable
  names : site.NamesDistinct
  looks : site.type.LooksAt site.names
  values : site.type.ValuesWellFormed
  returns : site.Avoids .halt (FieldType.constantBytes codec)
  chooses : site.Chooses codec.definitions
  tells : site.Tells codec admits

/-- A reader that takes back what the writer did. -/
def Regains (codec : Codec) (admits : Value → Prop) (read : ValueReader) (write : Writer) : Prop :=
  ∀ seen type, Site.Everywhere codec.definitions (Site.Regains codec admits) ⟨seen, type⟩ →
    ∀ scope scope' : Scope, scope.Agree (Site.names ⟨seen, type⟩) scope' →
    scope.options = codec.options →
      ∀ path value written, FieldType.Formed codec.definitions admits type scope value →
        write path type value scope = .ok written →
          Saved (Decoder.Regains (read type scope')) value written

section

open Decoder WriteContext

variable {codec : Codec} {admits : Value → Prop}

/-- Without selections, what is saved lies by its layout. -/
theorem regains_plain (levels : Nat)
    (hn : Site.Everywhere codec.definitions Site.NoSelection ⟨seen, type⟩)
    (hs : Site.Everywhere codec.definitions (Site.Regains codec admits) ⟨seen, type⟩)
    {scope scope' : Scope} (hagree : scope.Agree (Site.names ⟨seen, type⟩) scope')
    (hform : FieldType.Formed codec.definitions admits type scope value)
    (hw : FieldType.writeAt codec (FieldType.constantBytes codec) levels path type value scope =
      .ok written) :
    Saved (Decoder.Regains (FieldType.readAt codec levels type scope')) value written := by
  have hrecovers : Site.Everywhere codec.definitions Site.Recovers ⟨seen, type⟩ := fun site hsite =>
    have h := hs site hsite
    ⟨h.recoverable (hn site hsite), h.names, h.looks, h.values⟩
  have hsaved :=
    FieldType.writeAt_savesLayout codec levels _ _ hrecovers _ _ hagree _ _ _ (hform.decoded hn) hw
  exact hsaved.imp fun left found cells _ hlies =>
    (FieldType.readAt_readsLayout codec levels _ _ scope' hn).regains hlies

/-- The alternative whose form a value has is the only one that writes it. -/
theorem eq_of_tells {constantBytes : FieldType → Value → Option Bytes} {site : Site}
    {alternatives : List FieldType} {levels : Nat} (ht : site.Tells codec admits)
    (hsite : site.type = .select alternatives) (htype : type ∈ alternatives)
    (hother : other ∈ alternatives)
    (hadmits : admits value) (hform : FieldType.Formed codec.definitions admits type scope value)
    (hw : FieldType.writeAt codec constantBytes levels path other value scope = .ok written) :
    other = type := by
  have hapart : alternatives.Pairwise (FieldType.Apart codec admits) :=
    (ht _ hsite).imp fun h => ⟨h.1, h.2.1⟩
  by_contra hne
  exact (hapart.forall hother htype hne).1 _ _ _ _ _ _ hadmits hform hw

theorem regains_of_deeper (levels : Nat) (ctx : ReadContext) (ctx' : WriteContext)
    (hr : ctx.read = FieldType.readAt codec levels)
    (hw : ctx'.write = FieldType.writeAt codec (FieldType.constantBytes codec) levels)
    (hc : ctx.codec = codec)
    (hc' : ctx'.codec = codec) (hd : Option.Rel (Regains codec admits) ctx.deeper ctx'.deeper) :
    Regains codec admits ctx.read ctx'.write := by
  intro seen type hs scope scope' hagree hoptions path value written hform hwritten
  induction type using FieldType.induction generalizing path value written with
  | record name fields =>
    have hwell := hform.wellFormed (hs.mono fun _ h => h.names)
    obtain ⟨document, rfl, hnames, hvalues⟩ := hform.of_record
    simp only [WriteContext.write, bind_ok, Codec.expect_ok, descend_ok,
      Codec.writeFields_ok] at hwritten
    obtain ⟨_, ⟨⟩, write, hwrite, -, parts, hparts, rfl⟩ := hwritten
    obtain ⟨read, hread, hregains⟩ := rel_some_right hd hwrite
    obtain ⟨final, cells, hfinal, hfill, hlie⟩ : ∃ final, ∃ cells : Cells,
        document.SameOn document.names final ∧ cells.fill = parts.flatten ∧ ∀ left,
          FieldsLie (fun type scope => Decoder.Regains (read type scope)) scope'.child fields
          .empty left final cells := by
      refine saved_record scope'.child hnames hs.here.names hparts
        fun before field after heq part hpart path value written hv hw => ?_
      subst heq
      refine hregains _ _ (hs.part .field) _ _ (hagree.childOn hwell.of_struct hpart) hoptions _ _ _
        (hvalues field ?_ value hv) hw
      exact List.mem_append_right _ List.mem_cons_self
    refine ⟨.struct final, cells, (hfinal.same hwell.of_struct).toStruct, hfill, fun left => ?_⟩
    intro start stop htakes hleft
    rw [ReadContext.read, ReadContext.descend_run]
    exact ⟨read, hread, map_run.mpr ⟨final, regains_fields (hlie left) _ _ htakes hleft, rfl⟩⟩
  | array length element ih =>
    obtain hn | hlength := hs.here.chooses
    · rw [hw] at hwritten
      rw [hr]
      exact regains_plain levels hn hs hagree hform hwritten
    · obtain ⟨items, rfl, hitems⟩ := hform.of_array
      simp only [WriteContext.write, bind_ok, Codec.expect_ok, Codec.checkCount_ok,
        Codec.writeItems_ok] at hwritten
      obtain ⟨_, ⟨⟩, _, hasks, hparts⟩ := hwritten
      have hasks := hasks.resolve_right (Length.not_asks_none hlength)
      obtain ⟨found, cells, hsame, hfill, hlie⟩ := saved_items hparts fun item hi path written h =>
        ih (hs.part .element) hagree _ _ _ (hitems item hi) h
      refine ⟨.array found, cells, .array hsame, hfill, fun left => ?_⟩
      intro start stop htakes hleft
      rw [hsame.length_eq] at hasks
      exact (ReadContext.read_array_run hlength).mpr ⟨_, found, hs.here.looks.asks hagree hasks,
        regains_times (hlie left) 0 [] _ _ htakes hleft, rfl⟩
  | select alternatives ih =>
    obtain ⟨type, htype, hadmits, hform⟩ := hform.of_select
    rw [WriteContext.write] at hwritten
    obtain ⟨other, hfirst, hwritten⟩ := first_of_writeFirst hwritten
    -- The encoder took the first alternative that wrote the value. That is the one whose form the
    -- value has, and the decoder comes to it because no earlier one reads what was written.
    have hat := hwritten
    rw [hw] at hat
    obtain rfl := eq_of_tells hs.here.tells rfl htype hfirst.mem hadmits hform hat
    obtain ⟨found, cells, hsame, rfl, hlies⟩ :=
      ih other htype (hs.part (.alternative htype)) hagree _ _ _ hform hwritten
    refine ⟨found, cells, hsame, rfl, fun left => ?_⟩
    intro start stop htakes hleft
    rw [ReadContext.read]
    have hreturns (type : FieldType) (ht : type ∈ alternatives) :
        Decoder.Avoids .halt (ctx.read type scope') := by
      rw [hr]
      exact FieldType.avoids_readAt codec levels _ _ _
        ((hs.part (.alternative ht)).mono fun _ h => h.returns)
    refine ReadContext.readFirst_of_first (hfirst.of_pairwise (hs.here.tells _ rfl) ?_) hreturns
      (hlies left start stop htakes hleft)
    rintro earlier ⟨-, -, hoverlooks⟩ ⟨value, place, hread⟩
    rw [hr] at hread
    exact hoverlooks _ _ _ _ _ _ _ hagree hoptions hadmits hform hat _ _ htakes.rest _ _ hread
  | lazy slot =>
    have hform := hform.of_lazy
    rw [WriteContext.write, descend_ok, hc'] at hwritten
    obtain ⟨write, hwrite, hwritten⟩ := hwritten
    obtain ⟨read, hread, hregains⟩ := rel_some_right hd hwrite
    have hsaved := hregains _ _ (hs.part .lazy) _ _ hagree hoptions _ _ _ hform hwritten
    refine hsaved.imp fun left found cells _ hlies start stop htakes hleft => ?_
    rw [ReadContext.read, ReadContext.descend_run, hc]
    exact ⟨read, hread, hlies start stop htakes hleft⟩
  | _ =>
    rw [hw] at hwritten
    rw [hr]
    exact regains_plain levels (hs.here.chooses.resolve_right id) hs hagree hform hwritten

theorem FieldType.readAt_regains (codec : Codec) (admits : Value → Prop) (levels : Nat) :
    Regains codec admits (readAt codec levels) (writeAt codec (constantBytes codec) levels) := by
  induction levels with
  | zero =>
    exact regains_of_deeper 0 ⟨codec, none⟩ ⟨codec, constantBytes codec, none⟩ rfl rfl rfl rfl .none
  | succ levels ih =>
    exact regains_of_deeper (levels + 1) ⟨codec, some _⟩ ⟨codec, constantBytes codec, some _⟩
      rfl rfl rfl rfl (.some ih)

end

namespace Schema

/-- A schema by which decoding takes back what encoding did, with selections or without. -/
structure Regains (schema : Schema) (options : CodecOptions) (admits : Value → Prop) : Prop where
  names : (schema.fields.map Prod.fst).Nodup
  sites : schema.Everywhere (Site.Regains (schema.codec options) admits)

/-- What is saved of a document in decoded form reads back as the same document. -/
theorem Regains.decode {schema : Schema} {options : CodecOptions} {admits : Value → Prop}
    (hs : schema.Regains options admits) (hd : schema.Formed options admits document)
    (h : schema.encode options document = .ok bytes) :
    ∃ found, schema.decode options bytes = .ok found ∧ found == document := by
  obtain ⟨-, parts, hparts, rfl⟩ := Codec.writeFields_ok.mp h
  have hwell : document.WellFormed := by
    refine Document.wellFormed_of_names hd.names hs.names fun name hn value hv => ?_
    obtain ⟨field, hf, rfl⟩ := List.mem_map.mp hn
    obtain ⟨_, hfield⟩ := hs.sites.field hf
    exact (hd.values field hf value hv).wellFormed (hfield.mono fun _ h => h.names)
  obtain ⟨found, cells, hfound, hfill, hlie⟩ : ∃ found, ∃ cells : Cells,
      document.SameOn document.names found ∧ cells.fill = parts.flatten ∧ ∀ left,
        FieldsLie (fun type scope => Decoder.Regains (FieldType.readAt (schema.codec options)
          options.maxDepth type scope))
            (Scope.root · options) schema.fields .empty left found cells := by
    refine saved_record (Scope.root · options) hd.names hs.names hparts
      fun before field after heq part hpart path value written hv hw => ?_
    have hf : field ∈ schema.fields := heq ▸ List.mem_append_right _ List.mem_cons_self
    exact FieldType.readAt_regains _ _ _ _ _ (hs.sites _ _ _ heq) _ _
      (Scope.root_agreeOn hwell hpart options) rfl _ _ _ (hd.values field hf value hv) hw
  have htakes : (Place.start parts.flatten).Takes cells.fill ⟨parts.flatten.length, [], .root⟩ :=
    ⟨by simp [Place.start, hfill], by simp [Place.start, hfill], rfl⟩
  refine ⟨found, ?_, (hfound.same hwell).symm.beq⟩
  simp only [Schema.decode]
  rw [Decoder.regains_fields (hlie 0) _ _ htakes rfl]

end Schema

end Mapsmith
