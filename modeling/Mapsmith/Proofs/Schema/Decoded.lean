import Mapsmith.Proofs.Schema.Writing

/-!
# Documents in decoded form

`FieldType.Decoded`: decoding builds one kind of value for each type, and a record of just its
fields in their order. A document that was decoded and edited since keeps this form: nothing is
said of the numbers, texts and counts in it. What type a switch or a condition stands for is
decided in the scope of the document itself.
-/

namespace Mapsmith

/-- The part of a packed unit is one that decoding builds: flags, or an integer
that is not negative. -/
def PackedField.DecodedPart (field : PackedField) (part : Value) : Prop :=
  match field.flags with
  | some _ => ∃ bits names, part = .flags bits names
  | none => ∃ n : Int64, 0 ≤ n.toInt ∧ part = .int n

/-- The value has the form in which decoding builds values of the type. Types that
take what is left of the input, and selections, are left out. -/
inductive FieldType.Decoded (definitions : Nat → FieldType) : FieldType → Scope → Value → Prop
  | int {kind order scope n} : Decoded definitions (.int kind order) scope (.int n)
  | float {order scope bits} : Decoded definitions (.float order) scope (.float bits)
  | text {scope text} : Decoded definitions .text scope (.str text)
  | id {scope code} : Decoded definitions .id scope (.id code)
  | reversedId {scope code} : Decoded definitions .reversedId scope (.id code)
  | bytes {length scope content} : Decoded definitions (.bytes length) scope (.bytes content)
  | const {inner expected scope value} : Decoded definitions inner scope value →
      Decoded definitions (.const inner expected) scope value
  | bool {kind order no yes scope b} : Decoded definitions (.bool kind order no yes) scope (.bool b)
  | enum {repr variants scope raw} : Decoded definitions repr scope raw →
      Decoded definitions (.enum repr variants) scope (.enum (variantName? variants raw) raw)
  | flags {set scope bits names} : Decoded definitions (.flags set) scope (.flags bits names)
  | record {name fields scope document} : document.names = fields.map Prod.fst →
      (∀ field ∈ fields, ∀ value, document.get? field.1 = some value →
        Decoded definitions field.2 (scope.child document) value) →
      Decoded definitions (.record name fields) scope (.struct document)
  | array {length element scope items} : (∀ item ∈ items, Decoded definitions element scope item) →
      Decoded definitions (.array length element) scope (.array items)
  | sequence {types scope items} : items.length = types.length →
      (∀ pair ∈ types.zip items, Decoded definitions pair.1 scope pair.2) →
      Decoded definitions (.sequence types) scope (.array items)
  | switch {on cases default scope discriminant type value} :
      scope.resolve on = .ok discriminant → pick? cases default discriminant = some type →
      Decoded definitions type scope value →
      Decoded definitions (.switch on cases default) scope value
  | yes {condition yes no scope value} : condition scope = .ok true →
      Decoded definitions yes scope value →
      Decoded definitions (.conditional condition yes no) scope value
  | no {condition yes no scope value} : condition scope = .ok false →
      Decoded definitions no scope value →
      Decoded definitions (.conditional condition yes no) scope value
  | checked {relation holds inner scope value} : Decoded definitions inner scope value →
      Decoded definitions (.checked relation holds inner) scope value
  | padded {size inner scope value} : Decoded definitions inner scope value →
      Decoded definitions (.padded size inner) scope value
  | packed {unit scope document} : document.names = unit.fields.map PackedField.name →
      (∀ field ∈ unit.fields, ∀ part, document.get? field.name = some part →
        field.DecodedPart part) →
      Decoded definitions (.packed unit) scope (.struct document)
  | lazy {slot scope value} : Decoded definitions (definitions slot) scope value →
      Decoded definitions (.lazy slot) scope value

/-- The document has the fields of the schema, each in decoded form. -/
structure Schema.Decoded (schema : Schema) (options : CodecOptions) (document : Document) :
    Prop where
  names : document.names = schema.fields.map Prod.fst
  values : ∀ field ∈ schema.fields, ∀ value, document.get? field.1 = some value →
    FieldType.Decoded schema.definitions field.2 (Scope.root document options) value

theorem PackedField.DecodedPart.wellFormed {field : PackedField} (h : field.DecodedPart part) :
    part.WellFormed := by
  unfold DecodedPart at h
  split at h
  · obtain ⟨bits, names, rfl⟩ := h
    exact .flags _ _
  · obtain ⟨n, -, rfl⟩ := h
    exact .int _

theorem Document.wellFormed_of_names {document : Document} {names : List String}
    (hnames : document.names = names) (hn : names.Nodup)
    (hv : ∀ name ∈ names, ∀ value, document.get? name = some value → value.WellFormed) :
    document.WellFormed := by
  have hnodup : document.names.Nodup := hnames ▸ hn
  refine ⟨hnodup, fun entry he => ?_⟩
  have hmem : entry.1 ∈ document.names := List.mem_map_of_mem he
  exact hv entry.1 (hnames ▸ hmem) entry.2 (get?_of_mem hnodup he)

theorem FieldType.Decoded.wellFormed {definitions : Nat → FieldType}
    (hs : Site.Everywhere definitions Site.NamesDistinct ⟨seen, type⟩)
    (h : Decoded definitions type scope value) : value.WellFormed := by
  induction h generalizing seen with
  | int => exact .int _
  | float => exact .float _
  | text => exact .str _
  | id | reversedId => exact .id _
  | bytes => exact .bytes _
  | bool => exact .bool _
  | flags => exact .flags _ _
  | const _ ih => exact ih (hs.part .const)
  | enum _ ih => exact .enum (ih (hs.part .enum))
  | record hnames _ ih =>
    refine (Document.wellFormed_of_names hnames hs.here fun name hn value hv => ?_).toStruct
    obtain ⟨field, hf, rfl⟩ := List.mem_map.mp hn
    obtain ⟨_, hfield⟩ := hs.field hf
    exact ih field hf value hv hfield
  | array _ ih => exact .array fun item hi => ih item hi (hs.part .element)
  | @sequence types scope items hlen _ ih =>
    refine .array fun item hi => ?_
    obtain ⟨i, hlt, rfl⟩ := List.getElem_of_mem hi
    have hzip : (types[i], items[i]) ∈ types.zip items := by
      rw [List.mem_iff_getElem]
      exact ⟨i, by simp; omega, by simp⟩
    exact ih _ hzip (hs.part (.item (List.of_mem_zip hzip).1))
  | switch _ hp _ ih =>
    rcases mem_of_pick? hp with ⟨case, hc, rfl⟩ | ht
    · exact ih (hs.part (.case hc))
    · exact ih (hs.part (.default ht))
  | yes _ _ ih => exact ih (hs.part .yes)
  | no _ _ ih => exact ih (hs.part .no)
  | checked _ ih => exact ih (hs.part .checked)
  | padded _ ih => exact ih (hs.part .padded)
  | packed hnames hparts =>
    refine (Document.wellFormed_of_names hnames hs.here fun name hn value hv => ?_).toStruct
    obtain ⟨field, hf, rfl⟩ := List.mem_map.mp hn
    exact (hparts field hf value hv).wellFormed
  | lazy _ ih => exact ih (hs.part .lazy)

end Mapsmith
