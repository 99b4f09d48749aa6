import Mapsmith.Proofs.Schema.Resemblance
import Mapsmith.Proofs.Schema.Saving

/-!
# What a document is written as

`Schema.Means.encode`, `Schema.Means.decode`: encoding accepts more than decoding builds: a
truth value for an integer, the name of an enumerated value for the value, a document that
lacks its constants. Such a document means one in decoded form, which is written as the same
bytes, if what the schema asks of its fields is answered alike by both.
-/

namespace Mapsmith

/-- The value of a field that may be absent: that of a constant. -/
def FieldType.absent? : FieldType → Option Value
  | .const _ expected | .padded _ (.const _ expected) => some expected
  | _ => none

/-- The value that is written for a field: the one that is there, or that of a
constant that is not. -/
def Document.held? (document : Document) (field : String × FieldType) : Option Value :=
  (document.get? field.1).or field.2.absent?

theorem Document.held?_of_names {document : Document} {fields : List (String × FieldType)}
    (hnames : document.names = fields.map Prod.fst) (hf : field ∈ fields) :
    document.held? field = document.get? field.1 := by
  obtain ⟨value, hv⟩ := Document.mem_names_iff.mp (hnames ▸ List.mem_map_of_mem hf)
  rw [held?, hv, Option.some_or]

/-- At a field of the type, the value is written as the plain one is, which has the
form that decoding builds. What is looked at in the fields of a record is alike in
both; where the value is checked, the two are equal. -/
inductive FieldType.Means (definitions : Nat → FieldType) (sight : Sight) :
    FieldType → Scope → Value → Value → Prop
  | int {kind order scope value n} : value.asInt? = some (Int64.toInt n) →
      Means definitions sight (.int kind order) scope value (.int n)
  | float {order scope value bits} : value.asFloat? = some bits →
      Means definitions sight (.float order) scope value (.float bits)
  | text {scope value text} : value.asStr? = some text →
      Means definitions sight .text scope value (.str text)
  | id {scope value code} : value.asId? = some code →
      Means definitions sight .id scope value (.id code)
  | reversedId {scope value code} : value.asId? = some code →
      Means definitions sight .reversedId scope value (.id code)
  | bytes {length scope value content} : Codec.contentOf? value = some content →
      Means definitions sight (.bytes length) scope value (.bytes content)
  | const {inner expected scope value plain} : Means definitions sight inner scope expected plain →
      plain == expected → Means definitions sight (.const inner expected) scope value plain
  | bool {kind order no yes scope b} :
      Means definitions sight (.bool kind order no yes) scope (.bool b) (.bool b)
  | enum {repr variants scope value raw} :
      Means definitions sight repr scope (Codec.rawValue variants value) raw →
      Means definitions sight (.enum repr variants) scope value
        (.enum (variantName? variants raw) raw)
  | flags {set scope bits names names'} :
      Means definitions sight (.flags set) scope (.flags bits names) (.flags bits names')
  | number {set scope n names} : 0 ≤ Int64.toInt n →
      Means definitions sight (.flags set) scope (.int n)
        (.flags (UInt64.ofNat n.toInt.toNat) names)
  | record {name fields scope document plain} : plain.names = fields.map Prod.fst →
      document.Resembles sight (fun _ => True) plain →
      (∀ field ∈ fields, (document.held? field).isSome) →
      (∀ field ∈ fields, ∀ value part, document.held? field = some value →
        plain.get? field.1 = some part →
          Means definitions sight field.2 (scope.child document) value part) →
      Means definitions sight (.record name fields) scope (.struct document) (.struct plain)
  | array {length element scope items plains} : items.length = plains.length →
      (∀ (i : Nat) item plain, items[i]? = some item → plains[i]? = some plain →
        Means definitions sight element scope item plain) →
      Means definitions sight (.array length element) scope (.array items) (.array plains)
  | sequence {types scope items plains} : items.length = types.length →
      plains.length = types.length →
      (∀ (i : Nat) type item plain, types[i]? = some type → items[i]? = some item →
        plains[i]? = some plain → Means definitions sight type scope item plain) →
      Means definitions sight (.sequence types) scope (.array items) (.array plains)
  | switch {on cases default scope discriminant type value plain} :
      scope.resolve on = .ok discriminant → pick? cases default discriminant = some type →
      Means definitions sight type scope value plain →
      Means definitions sight (.switch on cases default) scope value plain
  | yes {condition yes no scope value plain} : condition scope = .ok true →
      Means definitions sight yes scope value plain →
      Means definitions sight (.conditional condition yes no) scope value plain
  | no {condition yes no scope value plain} : condition scope = .ok false →
      Means definitions sight no scope value plain →
      Means definitions sight (.conditional condition yes no) scope value plain
  | checked {relation holds inner scope value plain} : plain == value →
      Means definitions sight inner scope value plain →
      Means definitions sight (.checked relation holds inner) scope value plain
  | padded {size inner scope value plain} : Means definitions sight inner scope value plain →
      Means definitions sight (.padded size inner) scope value plain
  | packed {unit scope document plain} : plain.names = unit.fields.map PackedField.name →
      (∀ field ∈ unit.fields, ∀ part found, document.get? field.name = some part →
        plain.get? field.name = some found → Codec.wordOf? part = Codec.wordOf? found) →
      (∀ field ∈ unit.fields, ∀ found, plain.get? field.name = some found →
        field.DecodedPart found) →
      Means definitions sight (.packed unit) scope (.struct document) (.struct plain)
  | lazy {slot scope value plain} : Means definitions sight (definitions slot) scope value plain →
      Means definitions sight (.lazy slot) scope value plain

/-- The document is written as the plain one, and answers as that does. -/
structure Schema.Means (schema : Schema) (sight : Sight) (options : CodecOptions)
    (document plain : Document) : Prop where
  names : plain.names = schema.fields.map Prod.fst
  resembles : document.Resembles sight (fun _ => True) plain
  held : ∀ field ∈ schema.fields, (document.held? field).isSome
  values : ∀ field ∈ schema.fields, ∀ value part, document.held? field = some value →
    plain.get? field.1 = some part →
      FieldType.Means schema.definitions sight field.2 (Scope.root document options) value part

/-- The constant of a block fits in the block as it is written. Where it is absent,
encoding does not compare the two. -/
def FieldType.Fits (write : Writer) : FieldType → Prop
  | .padded size (.const inner expected) => ∀ path scope content,
    write path inner expected scope = .ok content → content.length ≤ size
  | _ => True

def Site.Fits (codec : Codec) (site : Site) : Prop :=
  ∀ levels, site.type.Fits (FieldType.writeAt codec (FieldType.constantBytes codec) levels)

/-- A site where encoding and decoding settle the same, by what the sight says. -/
structure Site.Settled (codec : Codec) (sight : Sight) (site : Site) : Prop where
  recovers : site.Recovers
  heeds : site.Heeds sight
  fits : site.Fits codec

variable {definitions : Nat → FieldType} {codec : Codec} {sight : Sight}

theorem Scope.Resembles.before {scope scope' : Scope} {site : Site}
    (h : scope.Resembles sight .all scope') : scope.Resembles sight site.names scope' :=
  h.mono fun _ _ _ => trivial

-- ---------------------------------------------------------------------------
-- The form of what is meant
-- ---------------------------------------------------------------------------

theorem FieldType.Means.decoded {scope scope' : Scope}
    (h : Means definitions sight type scope value plain)
    (hs : Site.Everywhere definitions (Site.Settled codec sight) ⟨seen, type⟩)
    (hr : scope.Resembles sight .all scope') : Decoded definitions type scope' plain := by
  induction h generalizing seen scope' with
  | int => exact .int
  | float => exact .float
  | text => exact .text
  | id => exact .id
  | reversedId => exact .reversedId
  | bytes => exact .bytes
  | bool => exact .bool
  | flags | number => exact .flags
  | const _ _ ih => exact .const (ih (hs.part .const) hr)
  | enum _ ih => exact .enum (ih (hs.part .enum) hr)
  | record hnames hdoc hheld _ ih =>
    refine .record hnames fun field hf part hpart => ?_
    obtain ⟨value, hv⟩ := Option.isSome_iff_exists.mp (hheld field hf)
    obtain ⟨_, hfield⟩ := hs.field hf
    exact ih field hf value part hv hpart hfield (hr.child hdoc fun _ _ _ => trivial)
  | array hlen _ ih =>
    refine .array fun plain hp => ?_
    obtain ⟨i, hi, rfl⟩ := List.getElem_of_mem hp
    exact ih i _ _ (List.getElem?_eq_getElem (hlen ▸ hi)) (List.getElem?_eq_getElem hi)
      (hs.part .element) hr
  | sequence hlen hplains _ ih =>
    refine .sequence hplains fun pair hp => ?_
    obtain ⟨i, hi⟩ := List.mem_iff_getElem?.mp hp
    obtain ⟨htype, hplain⟩ := List.getElem?_zip_eq_some.mp hi
    obtain ⟨hlt, -⟩ := List.getElem?_eq_some_iff.mp htype
    exact ih i _ _ _ htype (List.getElem?_eq_getElem (hlen ▸ hlt)) hplain
      (hs.part (.item (List.of_mem_zip hp).1)) hr
  | switch hdisc hp _ ih =>
    obtain ⟨discriminant', hdisc', hkeys⟩ :=
      hr.before.discriminant hs.here.recovers.looks hs.here.heeds hdisc
    refine .switch hdisc' ((pick?_congr _ hkeys).symm.trans hp) ?_
    rcases mem_of_pick? hp with ⟨case, hc, rfl⟩ | ht
    · exact ih (hs.part (.case hc)) hr
    · exact ih (hs.part (.default ht)) hr
  | yes htruth _ ih =>
    exact .yes (hs.here.heeds _ _ hr.before _ htruth) (ih (hs.part .yes) hr)
  | no htruth _ ih => exact .no (hs.here.heeds _ _ hr.before _ htruth) (ih (hs.part .no) hr)
  | checked _ _ ih => exact .checked (ih (hs.part .checked) hr)
  | padded _ ih => exact .padded (ih (hs.part .padded) hr)
  | packed hnames _ hparts => exact .packed hnames hparts
  | lazy _ ih => exact .lazy (ih (hs.part .lazy) hr)

-- ---------------------------------------------------------------------------
-- Writing what is meant
-- ---------------------------------------------------------------------------

/-- A writer that takes a value and the plain one that it means to the same bytes. -/
def WritesMeant (codec : Codec) (sight : Sight) (write : Writer) : Prop :=
  ∀ seen type, Site.Everywhere codec.definitions (Site.Settled codec sight) ⟨seen, type⟩ →
    ∀ scope scope' : Scope, scope.Resembles sight .all scope' → scope'.WellFormed →
      ∀ path value plain, FieldType.Means codec.definitions sight type scope value plain →
        ∀ written, write path type value scope = .ok written →
          write path type plain scope' = .ok written

open Codec

theorem Codec.WritesFrom.meant {write write' : FieldPath → Value → Except CodecError Bytes}
    (hlen : items.length = plains.length)
    (h : ∀ (i : Nat) item plain, items[i]? = some item → plains[i]? = some plain →
      ∀ path written, write path item = .ok written → write' path plain = .ok written)
    (hw : WritesFrom write path index items written) :
    WritesFrom write' path index plains written := by
  refine hw.imp (List.forall₂_iff_get.mpr ⟨hlen, fun i hi hi' => ?_⟩)
  exact h i _ _ (List.getElem?_eq_getElem hi) (List.getElem?_eq_getElem hi')

theorem WriteContext.writeSequence_meant {ctx : WriteContext} {types : List FieldType}
    (hlen : items.length = types.length) (hplains : plains.length = types.length)
    (h : ∀ (i : Nat) type item plain, types[i]? = some type → items[i]? = some item →
      plains[i]? = some plain → ∀ path written, ctx.write path type item scope = .ok written →
        ctx.write path type plain scope' = .ok written)
    (hw : ctx.writeSequence path index types items scope = .ok written) :
    ctx.writeSequence path index types plains scope' = .ok written := by
  induction types generalizing index items plains written with
  | nil => exact hw
  | cons type types ih =>
    obtain ⟨item, items, rfl⟩ := List.exists_cons_of_length_eq_add_one hlen
    obtain ⟨plain, plains, rfl⟩ := List.exists_cons_of_length_eq_add_one hplains
    simp only [writeSequence, bind_ok] at hw ⊢
    obtain ⟨part, hpart, rest, hrest, hw⟩ := hw
    refine ⟨part, h 0 _ _ _ rfl rfl rfl _ _ hpart, rest, ?_, hw⟩
    exact ih (by simpa using hlen) (by simpa using hplains) (fun i => h (i + 1)) hrest

theorem writePacked_meant {unit : PackedUnit} {document plain : Document}
    (hnames : plain.names = unit.fields.map PackedField.name)
    (hwords : ∀ field ∈ unit.fields, ∀ part found, document.get? field.name = some part →
      plain.get? field.name = some found → wordOf? part = wordOf? found)
    (hw : writePacked path unit (.struct document) = .ok written) :
    writePacked path unit (.struct plain) = .ok written := by
  rw [writePacked_ok] at hw ⊢
  obtain ⟨hcheck, _, ⟨⟩, words, hparts, rfl⟩ := hw
  refine ⟨hcheck, plain, rfl, words, ?_, rfl⟩
  rw [List.forall₂_iff_zip] at hparts ⊢
  refine ⟨hparts.1, fun {field word} hm => ?_⟩
  obtain ⟨part, hpart, hword, hfits⟩ := hparts.2 hm
  have hf := (List.of_mem_zip hm).1
  obtain ⟨found, hfound⟩ := Document.mem_names_iff.mp (hnames ▸ List.mem_map_of_mem hf)
  exact ⟨found, hfound, hwords field hf part found hpart hfound ▸ hword, hfits⟩

/-- Below a number of levels there are fewer, or none. -/
theorem FieldType.exists_writeAt (codec : Codec) (constantBytes : FieldType → Value → Option Bytes)
    (levels : Nat) : ∃ deeper, writeAt codec constantBytes levels =
      WriteContext.write ⟨codec, constantBytes, deeper⟩ ∧
        ∀ write ∈ deeper, ∃ fewer, write = writeAt codec constantBytes fewer := by
  cases levels with
  | zero => exact ⟨none, rfl, nofun⟩
  | succ levels => exact ⟨some _, rfl, by rintro _ ⟨⟩; exact ⟨levels, rfl⟩⟩

theorem FieldType.absent_wellFormed {type : FieldType}
    (hs : Site.Everywhere definitions (fun site => site.type.ValuesWellFormed) ⟨seen, type⟩)
    (ha : type.absent? = some expected) : expected.WellFormed := by
  unfold FieldType.absent? at ha
  split at ha
  · cases ha
    exact hs.here
  · cases ha
    exact (hs.part .padded).here
  · cases ha

/-- A constant that is absent is written as if it were there. -/
theorem WriteContext.write_absent (ctx : WriteContext) (ha : type.absent? = some expected)
    (hwell : expected == expected) (hf : type.Fits ctx.write)
    (hw : writeMissing ctx.write path scope type = .ok written) :
    ctx.write path type expected scope = .ok written := by
  have hconst {inner : FieldType} {content : Bytes}
      (hw : ctx.write path inner expected scope = .ok content) :
      ctx.write path (.const inner expected) expected scope = .ok content := by
    rwa [write, if_pos hwell]
  unfold FieldType.absent? at ha
  split at ha
  · cases ha
    exact hconst hw
  · cases ha
    simp only [writeMissing, bind_ok, pure_ok] at hw
    obtain ⟨content, hcontent, rfl⟩ := hw
    rw [write, bind_ok]
    exact ⟨content, hconst hcontent, fillBlock_ok.mpr ⟨hf _ _ _ hcontent, rfl⟩⟩
  · cases ha

theorem Codec.WritesField.held {scope : Scope}
    (hs : Site.Everywhere definitions (Site.Settled codec sight) ⟨seen, field.2⟩)
    (hw : WritesField (FieldType.writeAt codec (FieldType.constantBytes codec) levels) path scope
      field written)
    (hv : scope.current.held? field = some value) :
    FieldType.writeAt codec (FieldType.constantBytes codec) levels (path.push (.name field.1))
      field.2 value scope = .ok written := by
  obtain ⟨name, type⟩ := field
  unfold WritesField at hw
  unfold Document.held? at hv
  cases hget : scope.current.get? name with
  | some found =>
    simp only [hget, Option.some_or, Option.some.injEq] at hw hv
    exact hv ▸ hw
  | none =>
    simp only [hget, Option.none_or] at hw hv
    have hfits := hs.here.fits levels
    obtain ⟨deeper, hctx, -⟩ :=
      FieldType.exists_writeAt codec (FieldType.constantBytes codec) levels
    rw [hctx] at hw hfits ⊢
    have hwell := FieldType.absent_wellFormed (hs.mono fun _ h => h.recovers.values) hv
    exact WriteContext.write_absent _ hv hwell.beq_self hfits hw

theorem WritesMeant.fields {scope scope' : Scope} {fields : List (String × FieldType)}
    (h : WritesMeant codec sight (FieldType.writeAt codec (FieldType.constantBytes codec) levels))
    (hs : ∀ field ∈ fields, ∃ seen,
      Site.Everywhere codec.definitions (Site.Settled codec sight) ⟨seen, field.2⟩)
    (hr : scope.Resembles sight .all scope') (hwf : scope'.WellFormed)
    (hnames : scope'.current.names = fields.map Prod.fst)
    (hheld : ∀ field ∈ fields, (scope.current.held? field).isSome)
    (hm : ∀ field ∈ fields, ∀ value part, scope.current.held? field = some value →
      scope'.current.get? field.1 = some part →
        FieldType.Means codec.definitions sight field.2 scope value part)
    (hw : writeFields (FieldType.writeAt codec (FieldType.constantBytes codec) levels) path scope
      fields = .ok written) :
    writeFields (FieldType.writeAt codec (FieldType.constantBytes codec) levels) path scope'
      fields = .ok written := by
  rw [writeFields_ok] at hw ⊢
  obtain ⟨-, parts, hparts, rfl⟩ := hw
  refine ⟨fun name hn => hnames ▸ hn, parts, ?_, rfl⟩
  rw [List.forall₂_iff_zip] at hparts ⊢
  refine ⟨hparts.1, fun {field written} hz => ?_⟩
  have hf := (List.of_mem_zip hz).1
  obtain ⟨seen, hsite⟩ := hs field hf
  obtain ⟨value, hv⟩ := Option.isSome_iff_exists.mp (hheld field hf)
  obtain ⟨part, hpart⟩ := Document.mem_names_iff.mp (hnames ▸ List.mem_map_of_mem hf)
  have hwritten := (hparts.2 hz).held hsite hv
  unfold WritesField
  simp only [hpart]
  exact h _ _ hsite _ _ hr hwf _ _ _ (hm field hf value part hv hpart) _ hwritten

namespace WriteContext

/-- A value is written as the plain one that it means. -/
theorem write_meant {deeper : Option Writer}
    (hdeeper : ∀ write ∈ deeper, ∃ fewer,
      write = FieldType.writeAt codec (FieldType.constantBytes codec) fewer)
    (hd : ∀ write ∈ deeper, WritesMeant codec sight write) :
    WritesMeant codec sight (write ⟨codec, FieldType.constantBytes codec, deeper⟩) := by
  intro seen type hs scope scope' hr hwf path value plain hm written hw
  have hwell : plain.WellFormed :=
    (hm.decoded hs hr).wellFormed (hs.mono fun _ h => h.recovers.names)
  have halike : WritesAlike codec.definitions
      (write ⟨codec, FieldType.constantBytes codec, deeper⟩) := by
    have hshow := FieldType.constantBytes_alike codec
    refine write_alike ⟨codec, FieldType.constantBytes codec, deeper⟩ (fun write hwrite => ?_) hshow
    obtain ⟨fewer, rfl⟩ := hdeeper write hwrite
    exact FieldType.writeAt_alike codec hshow _
  induction type using FieldType.induction generalizing path value plain written with
  | int kind order =>
    cases hm with
    | int hn =>
      simp only [write, bind_ok, expect_ok] at hw ⊢
      obtain ⟨m, hm, hw⟩ := hw
      exact ⟨m, hn.symm.trans hm, hw⟩
  | float order =>
    cases hm with
    | float hbits =>
      simp only [write, bind_ok, expect_ok] at hw ⊢
      obtain ⟨bits, hb, hw⟩ := hw
      exact ⟨bits, hbits.symm.trans hb, hw⟩
  | text =>
    cases hm with
    | text htext =>
      simp only [write, bind_ok, expect_ok] at hw ⊢
      obtain ⟨text, ht, hw⟩ := hw
      exact ⟨text, htext.symm.trans ht, hw⟩
  | id =>
    cases hm with
    | id hcode =>
      simp only [write, bind_ok, expect_ok] at hw ⊢
      obtain ⟨code, hid, hw⟩ := hw
      exact ⟨code, hcode.symm.trans hid, hw⟩
  | reversedId =>
    cases hm with
    | reversedId hcode =>
      simp only [write, bind_ok, expect_ok] at hw ⊢
      obtain ⟨code, hid, hw⟩ := hw
      exact ⟨code, hcode.symm.trans hid, hw⟩
  | bytes length =>
    cases hm with
    | bytes hcontent =>
      rw [write_bytes_ok] at hw ⊢
      obtain ⟨hfound, hasks⟩ := hw
      cases hcontent.symm.trans hfound
      refine ⟨rfl, hasks.imp ?_ ?_⟩ <;> exact hs.here.heeds.asks hs.here.recovers.looks hr.before
  | const inner expected ih =>
    cases hm with
    | const hm heq =>
      rw [write] at hw ⊢
      split at hw
      · have hinner := hs.part .const
        have hplain := ih hinner _ _ _ hm _ hw hwell
        rw [if_pos heq]
        exact (halike _ _ (hinner.mono fun _ h => h.recovers.alike) _ _ _ _ _ (.of_beq hwell heq)
          hwf.agree).result hplain
      · cases hw
  | bool kind order no yes =>
    cases hm with
    | bool => exact hw
  | enum repr variants ih =>
    cases hm with
    | enum hm =>
      rw [write] at hw ⊢
      have hinner := hs.part .enum
      have hplain := ih hinner _ _ _ hm _ hw hwell.of_enum
      have hraw :=
        rawValue_enum_same hs.here.recovers.recoverable hs.here.recovers.values hwell.of_enum
      exact (halike _ _ (hinner.mono fun _ h => h.recovers.alike) _ _ _ _ _ hraw hwf.agree).result
        hplain
  | flags set =>
    cases hm with
    | flags => exact hw
    | @number _ _ n _ hn =>
      rw [write, if_pos hn] at hw
      have hlt := n.toInt_lt
      rw [write, UInt64.toNat_ofNat', Nat.mod_eq_of_lt (by omega)]
      exact hw
  | record name fields =>
    cases hm with
    | record hnames hdoc hheld hm =>
      simp only [write, bind_ok, expect_ok, descend_ok] at hw ⊢
      obtain ⟨_, ⟨⟩, write, hwrite, hw⟩ := hw
      refine ⟨_, rfl, write, hwrite, ?_⟩
      obtain ⟨fewer, rfl⟩ := hdeeper write hwrite
      refine (hd _ hwrite).fields (fun field hf => ?_) (hr.child hdoc fun _ _ _ => trivial)
        (hwf.child hwell.of_struct) hnames hheld hm hw
      exact hs.field hf
  | array length element ih =>
    cases hm with
    | array hlen hm =>
      simp only [write, bind_ok, expect_ok, checkCount_ok, writeItems_ok] at hw ⊢
      obtain ⟨_, ⟨⟩, _, hasks, hw⟩ := hw
      refine ⟨_, rfl, (), hlen ▸ hasks.imp ?_ ?_, hw.meant hlen ?_⟩
      · exact hs.here.heeds.asks hs.here.recovers.looks hr.before
      · exact hs.here.heeds.asks hs.here.recovers.looks hr.before
      intro i item plain hi hp path written hwritten
      exact ih (hs.part .element) _ _ _ (hm i item plain hi hp) _ hwritten
        (hwell.of_array _ (List.mem_of_getElem? hp))
  | greedy element => exact hs.here.recovers.recoverable.elim
  | sequence types ih =>
    cases hm with
    | sequence hlen hplains hm =>
      obtain ⟨_, ⟨⟩, -, hw⟩ := write_sequence_ok.mp hw
      refine write_sequence_ok.mpr ⟨_, rfl, hplains, writeSequence_meant hlen hplains ?_ hw⟩
      intro i type item plain ht hi hp path written hwritten
      have hmem := List.mem_of_getElem? ht
      exact ih type hmem (hs.part (.item hmem)) _ _ _ (hm i type item plain ht hi hp) _ hwritten
        (hwell.of_array _ (List.mem_of_getElem? hp))
  | switch on cases default ihc ihd =>
    cases hm with
    | switch hdisc hp hm =>
      obtain ⟨_, _, hdisc', hp', hw⟩ := write_switch_ok.mp hw
      cases hdisc.symm.trans hdisc'
      cases hp.symm.trans hp'
      obtain ⟨found, hfound, hkeys⟩ :=
        hr.before.discriminant hs.here.recovers.looks hs.here.heeds hdisc
      refine write_switch_ok.mpr
        ⟨found, _, hfound, (FieldType.pick?_congr _ hkeys).symm.trans hp, ?_⟩
      rcases FieldType.mem_of_pick? hp with ⟨case, hc, rfl⟩ | ht
      · exact ihc case hc (hs.part (.case hc)) _ _ _ hm _ hw hwell
      · exact ihd _ ht (hs.part (.default ht)) _ _ _ hm _ hw hwell
  | conditional condition yes no ihy ihn =>
    simp only [write, bind_ok, answered_ok] at hw ⊢
    obtain ⟨truth, htruth, hw⟩ := hw
    refine ⟨truth, hs.here.heeds _ _ hr.before _ htruth, ?_⟩
    cases hm with
    | yes htrue hm =>
      cases htrue.symm.trans htruth
      exact ihy (hs.part .yes) _ _ _ hm _ hw hwell
    | no hfalse hm =>
      cases hfalse.symm.trans htruth
      exact ihn (hs.part .no) _ _ _ hm _ hw hwell
  | select alternatives => exact hs.here.recovers.recoverable.elim
  | checked relation holds inner ih =>
    cases hm with
    | checked heq hm =>
      rw [write] at hw ⊢
      split at hw
      · rename_i hholds
        have hsame : value.Same plain := (Value.Same.of_beq hwell heq).symm
        rw [if_pos (hs.here.heeds _ _ hr.before _ _ hsame hholds)]
        exact ih (hs.part .checked) _ _ _ hm _ hw hwell
      · cases hw
  | padded size inner ih =>
    cases hm with
    | padded hm =>
      rw [write, bind_ok] at hw ⊢
      obtain ⟨content, hcontent, hw⟩ := hw
      exact ⟨content, ih (hs.part .padded) _ _ _ hm _ hcontent hwell, hw⟩
  | packed unit =>
    cases hm with
    | packed hnames hwords _ =>
      rw [write] at hw ⊢
      exact writePacked_meant hnames hwords hw
  | lazy slot =>
    cases hm with
    | lazy hm =>
      rw [write, descend_ok] at hw ⊢
      obtain ⟨write, hwrite, hw⟩ := hw
      exact ⟨write, hwrite, hd write hwrite _ _ (hs.part .lazy) _ _ hr hwf _ _ _ hm _ hw⟩

end WriteContext

theorem FieldType.writeAt_meant (codec : Codec) (sight : Sight) (levels : Nat) :
    WritesMeant codec sight (writeAt codec (constantBytes codec) levels) := by
  induction levels with
  | zero => exact WriteContext.write_meant nofun nofun
  | succ levels ih =>
    refine WriteContext.write_meant ?_ ?_
    all_goals rintro _ ⟨⟩
    · exact ⟨levels, rfl⟩
    · exact ih

namespace Schema

variable {schema : Schema} {options : CodecOptions} {document plain : Document}

theorem Recovers.settled (hs : schema.Recovers) (hh : schema.Everywhere (Site.Heeds sight))
    (hf : schema.Everywhere (Site.Fits codec)) : schema.Everywhere (Site.Settled codec sight) :=
  fun before field after heq part hpart => ⟨hs.sites before field after heq part hpart,
    hh before field after heq part hpart, hf before field after heq part hpart⟩

theorem Means.root (hm : schema.Means sight options document plain) :
    (Scope.root document options).Resembles sight .all (Scope.root plain options) :=
  .root (fun name value _ => hm.resembles name value trivial) options

theorem Means.decoded (hm : schema.Means sight options document plain)
    (hs : schema.Everywhere (Site.Settled codec sight)) : schema.Decoded options plain := by
  refine ⟨hm.names, fun field hf part hpart => ?_⟩
  obtain ⟨value, hv⟩ := Option.isSome_iff_exists.mp (hm.held field hf)
  obtain ⟨_, hfield⟩ := hs.field hf
  exact (hm.values field hf value part hv hpart).decoded hfield hm.root

theorem Means.wellFormed (hm : schema.Means sight options document plain) (hs : schema.Recovers)
    (hsites : schema.Everywhere (Site.Settled codec sight)) : plain.WellFormed := by
  refine Document.wellFormed_of_names hm.names hs.names fun name hn value hv => ?_
  obtain ⟨field, hf, rfl⟩ := List.mem_map.mp hn
  obtain ⟨_, hfield⟩ := hs.sites.field hf
  have hdec := (hm.decoded hsites).values field hf value hv
  exact hdec.wellFormed (hfield.mono fun _ h => h.names)

/-- A document is encoded as the plain one that it means. -/
theorem Means.encode (hm : schema.Means sight options document plain) (hs : schema.Recovers)
    (hsites : schema.Everywhere (Site.Settled (schema.codec options) sight))
    (h : schema.encode options document = .ok bytes) : schema.encode options plain = .ok bytes := by
  have hwf : (Scope.root plain options).WellFormed := by
    rintro (_ | up) other ⟨⟩
    exact hm.wellFormed hs hsites
  refine (FieldType.writeAt_meant (schema.codec options) sight options.maxDepth).fields
    (fun field hf => ?_) hm.root hwf hm.names hm.held hm.values h
  exact hsites.field hf

/-- What is written for a document reads back as the plain one that it means. -/
theorem Means.decode (hm : schema.Means sight options document plain) (hs : schema.Recovers)
    (hsites : schema.Everywhere (Site.Settled (schema.codec options) sight))
    (h : schema.encode options document = .ok bytes) :
    ∃ found, schema.decode options bytes = .ok found ∧ found == plain :=
  decode_of_encode hs (hm.decoded hsites) (hm.encode hs hsites h)

end Schema

end Mapsmith
