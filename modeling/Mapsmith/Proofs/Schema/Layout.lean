import Mapsmith.Schema.Decode
import Mapsmith.Proofs.Outcome

/-!
# Where values lie

`FieldType.Lies`: the relation between a value of a type and the bytes that hold it, apart from
both codecs: decoding finds what lies at its place, and encoding writes what makes a value lie
there. The bytes in the unused tail of a block may be any, so a value lies in cells, some of
which are left open. The one type without a layout is the selection, which is a matter of what
does not go through.

Where a field ends may depend on the end of the input, so a layout also counts the bytes that
are left after it.
-/

namespace Mapsmith

/-- Bytes of which some are left open. -/
abbrev Cells := List (Option UInt8)

namespace Cells

def of (bytes : Bytes) : Cells := bytes.map some

def gap (n : Nat) : Cells := List.replicate n none

/-- The byte is that of the cell, if the cell is not left open. -/
def Admits (cell : Option UInt8) (b : UInt8) : Prop := cell = none ∨ cell = some b

/-- The bytes are those of the cells, whatever stands where they are left open. -/
def Match (cells : Cells) (bytes : Bytes) : Prop := List.Forall₂ Admits cells bytes

/-- The bytes of the cells, with zeros where they are left open. -/
def fill (cells : Cells) : Bytes := cells.map (·.getD 0)

theorem Match.length {cells : Cells} (h : cells.Match bytes) : cells.length = bytes.length :=
  List.Forall₂.length_eq h

@[simp] theorem match_nil : Match [] bytes ↔ bytes = [] := by
  rw [Match, List.forall₂_nil_left_iff]

theorem match_cons {cells : Cells} : Match (cell :: cells) bytes ↔
    ∃ b rest, Admits cell b ∧ cells.Match rest ∧ bytes = b :: rest := by
  rw [Match, List.forall₂_cons_left_iff]
  rfl

theorem match_append {first second : Cells} : (first ++ second).Match bytes ↔
    ∃ taken rest, bytes = taken ++ rest ∧ first.Match taken ∧ second.Match rest := by
  induction first generalizing bytes with
  | nil => simp
  | cons cell first ih =>
    simp only [List.cons_append, match_cons, ih]
    constructor
    · rintro ⟨b, _, hb, ⟨taken, rest, rfl, htaken, hrest⟩, rfl⟩
      exact ⟨b :: taken, rest, rfl, ⟨b, taken, hb, htaken, rfl⟩, hrest⟩
    · rintro ⟨_, rest, rfl, ⟨b, taken, hb, htaken, rfl⟩, hrest⟩
      exact ⟨b, taken ++ rest, hb, ⟨taken, rest, rfl, htaken, hrest⟩, rfl⟩

@[simp] theorem match_of {content : Bytes} : (of content).Match bytes ↔ bytes = content := by
  induction content generalizing bytes with
  | nil => exact match_nil
  | cons b content ih =>
    rw [of, List.map_cons, match_cons, ← of]
    simp [ih, Admits]

@[simp] theorem match_gap : (gap n).Match bytes ↔ bytes.length = n := by
  induction n generalizing bytes with
  | zero => simp [gap]
  | succ n ih =>
    rw [gap, List.replicate_succ, match_cons, ← gap]
    cases bytes <;> simp [ih, Admits]

theorem match_fill (cells : Cells) : cells.Match cells.fill := by
  induction cells with
  | nil => exact .nil
  | cons cell cells ih => exact .cons (by cases cell <;> simp [Admits]) ih

@[simp] theorem fill_of (bytes : Bytes) : (of bytes).fill = bytes := by
  simp [of, fill, Function.comp_def]

@[simp] theorem fill_append (first second : Cells) :
    (first ++ second).fill = first.fill ++ second.fill := by
  simp [fill]

@[simp] theorem fill_gap (n : Nat) : (gap n).fill = List.replicate n 0 := by simp [gap, fill]

@[simp] theorem length_fill (cells : Cells) : cells.fill.length = cells.length := by simp [fill]

@[simp] theorem length_of (bytes : Bytes) : (of bytes).length = bytes.length := by simp [of]

end Cells

/-- The number of items that a length asks for, within the limit; none if it asks
for all that is left. -/
def Length.Asks (length : Length) (scope : Scope) : Option Nat → Prop
  | none => length.resolve scope = .ok none
  | some n => length.resolve scope = .ok (some n) ∧ n ≤ scope.options.maxElements

theorem Length.count_ok {length : Length} :
    length.count path scope = .ok n ↔ length.Asks scope n := by
  simp only [count, bind_ok, answered_ok]
  constructor
  · rintro ⟨asked, h, hn⟩
    cases asked with
    | none =>
      cases pure_ok.mp hn
      exact h
    | some requested =>
      simp only at hn
      split at hn
      · simp at hn
      · rename_i hle
        cases pure_ok.mp hn
        refine ⟨?_, by omega⟩
        rw [h, Int.toNat_of_nonneg (by omega)]
  · intro h
    cases n with
    | none => exact ⟨none, h, rfl⟩
    | some n =>
      obtain ⟨h, hle⟩ := h
      refine ⟨some n, h, ?_⟩
      simp only
      rw [if_neg (by omega)]
      rfl

/-- The fields that a length refers to. -/
def Length.references : Length → List Reference
  | .field reference | .scaled reference _ | .lookup _ reference => [reference]
  | .product first second => [first, second]
  | .fixed _ | .remaining | .computed _ => []

theorem Scope.resolveInt_of_resolve {scope scope' : Scope}
    (h : ∀ value, scope.resolve reference = .ok value → ∃ value',
      scope'.resolve reference = .ok value' ∧ value.asInt? = value'.asInt?)
    (hn : scope.resolveInt reference = .ok n) : scope'.resolveInt reference = .ok n := by
  simp only [resolveInt, bind_ok] at hn ⊢
  obtain ⟨value, hv, hn⟩ := hn
  obtain ⟨value', hv', heq⟩ := h value hv
  refine ⟨value', hv', ?_⟩
  rw [heq] at hn
  split at hn
  · simp only [*]
  · cases hn

/-- A length asks for the same in another scope, if what it refers to counts the
same there, or is the same key of a table, and its function gives the same. -/
theorem Length.resolve_of_references {length : Length} {scope scope' : Scope}
    (hr : ∀ reference ∈ length.references, ∀ value, scope.resolve reference = .ok value →
      ∃ value', scope'.resolve reference = .ok value' ∧ value.asInt? = value'.asInt? ∧
        ((∃ table, length = .lookup table reference) → keyText value = keyText value'))
    (ho : scope.options = scope'.options)
    (hc : ∀ count, length = .computed count → ∀ n, count scope = .ok n → count scope' = .ok n)
    (hn : length.resolve scope = .ok n) : length.resolve scope' = .ok n := by
  have hint (reference : Reference) (hm : reference ∈ length.references) {n : Int}
      (hn : scope.resolveInt reference = .ok n) : scope'.resolveInt reference = .ok n := by
    refine Scope.resolveInt_of_resolve (fun value hv => ?_) hn
    obtain ⟨value', hv', heq, -⟩ := hr reference hm value hv
    exact ⟨value', hv', heq⟩
  cases length with
  | fixed m => exact hn
  | remaining => exact hn
  | field reference =>
    simp only [resolve, bind_ok] at hn ⊢
    obtain ⟨m, hm, hn⟩ := hn
    exact ⟨m, hint reference (by simp [references]) hm, hn⟩
  | scaled reference factor =>
    simp only [resolve, bind_ok] at hn ⊢
    obtain ⟨m, hm, hn⟩ := hn
    exact ⟨m, hint reference (by simp [references]) hm, hn⟩
  | product first second =>
    simp only [resolve, bind_ok] at hn ⊢
    obtain ⟨a, ha, b, hb, hn⟩ := hn
    exact ⟨a, hint first (by simp [references]) ha, b, hint second (by simp [references]) hb, hn⟩
  | lookup table key =>
    simp only [resolve, bind_ok] at hn ⊢
    obtain ⟨value, hv, hn⟩ := hn
    obtain ⟨value', hv', -, htext⟩ := hr key (by simp [references]) value hv
    exact ⟨value', hv', by simpa only [← htext ⟨table, rfl⟩, ← ho] using hn⟩
  | computed count =>
    simp only [resolve, bind_ok] at hn ⊢
    obtain ⟨m, hm, hn⟩ := hn
    exact ⟨m, hc count rfl m hm, hn⟩

abbrev ValueLayout := Nat → Value → Cells → Prop

/-- The layout of each type in each scope. -/
abbrev Layout := FieldType → Scope → ValueLayout

-- ---------------------------------------------------------------------------
-- Items and fields
-- ---------------------------------------------------------------------------

inductive ItemsLie (item : ValueLayout) : Nat → List Value → Cells → Prop
  | nil {left} : ItemsLie item left [] []
  | cons {left value cells items rest} : item (left + rest.length) value cells →
      ItemsLie item left items rest → ItemsLie item left (value :: items) (cells ++ rest)

/-- Items lie one after the other up to the end of the input, or up to the first
one that takes no bytes. -/
inductive GreedyLie (item : ValueLayout) : Nat → List Value → Cells → Prop
  | done : GreedyLie item 0 [] []
  | stuck {left value} : 0 < left → item left value [] → GreedyLie item left [value] []
  | cons {left value cells items rest} : cells ≠ [] → item (left + rest.length) value cells →
      GreedyLie item left items rest → GreedyLie item left (value :: items) (cells ++ rest)

/-- The fields after those of a document lie one after the other, each in the
scope of those before it, and make up a document with them. -/
inductive FieldsLie (layout : Layout) (scope : Document → Scope) :
    List (String × FieldType) → Document → Nat → Document → Cells → Prop
  | nil {left document} : FieldsLie layout scope [] document left document []
  | cons {name type fields document left value cells final rest} :
      layout type (scope document) (left + rest.length) value cells →
      FieldsLie layout scope fields (document.insert name value) left final rest →
      FieldsLie layout scope ((name, type) :: fields) document left final (cells ++ rest)

-- ---------------------------------------------------------------------------
-- Types
-- ---------------------------------------------------------------------------

def PackedUnit.value (unit : PackedUnit) (bytes : Bytes) : Value :=
  .struct (.ofList ((unit.fields.zip (unit.split bytes)).map fun (field, word) =>
    (field.name, Decoder.packedValue field word)))

namespace FieldType

mutual
/-- Where a value of a type lies. A record lies in cells if its fields do by the
layout `deeper`. -/
def Lies (codec : Codec) (deeper : Option Layout) : Layout
  | .int kind order, _, _, value, cells => ∃ word, word.length = kind.size ∧ cells = .of word ∧
      value = .int (Int64.ofInt (kind.decode order word))
  | .float order, _, _, value, cells => ∃ word, word.length = 4 ∧ cells = .of word ∧
      value = .float (UInt32.ofNat (order.decode word))
  | .text, _, _, value, cells => ∃ text, 0 ∉ Bytes.ofText text ∧
      cells = .of (Bytes.ofText text ++ [0]) ∧ value = .str text
  | .id, _, _, value, cells => ∃ code : FourCC, cells = .of code.bytes ∧
      value = .id code
  | .reversedId, _, _, value, cells => ∃ code : FourCC, cells = .of code.bytes ∧
      value = .id code.reverse
  | .bytes length, scope, left, value, cells => ∃ content, cells = .of content ∧
      value = .bytes content ∧
      (length.Asks scope (some content.length) ∨ length.Asks scope none ∧ left = 0)
  | .const inner expected, scope, left, value, cells =>
    Lies codec deeper inner scope left value cells ∧ value == expected
  | .bool kind order no yes, _, _, value, cells => ∃ word, word.length = kind.size ∧
      cells = .of word ∧ (kind.decode order word = yes ∧ value = .bool true ∨
        kind.decode order word = no ∧ no ≠ yes ∧ value = .bool false)
  | .enum repr variants, scope, left, value, cells => ∃ raw,
      Lies codec deeper repr scope left raw cells ∧ value = .enum (variantName? variants raw) raw
  | .flags set, _, _, value, cells => ∃ word, word.length = set.kind.size ∧ cells = .of word ∧
      value = set.valueOf (UInt64.ofNat (set.order.decode word))
  | .record _ fields, scope, left, value, cells => ∃ layout ∈ deeper, ∃ document,
      FieldsLie layout scope.child fields .empty left document cells ∧ value = .struct document
  | .array length element, scope, left, value, cells => ∃ items, value = .array items ∧
      (length.Asks scope (some items.length) ∧
          ItemsLie (Lies codec deeper element scope) left items cells ∨
        length.Asks scope none ∧ GreedyLie (Lies codec deeper element scope) left items cells)
  | .greedy element, scope, left, value, cells => ∃ items, value = .array items ∧
      GreedyLie (Lies codec deeper element scope) left items cells
  | .sequence types, scope, left, value, cells => ∃ items, value = .array items ∧
      SequenceLies codec deeper types scope left items cells
  | .switch on cases default, scope, left, value, cells => ∃ discriminant,
      scope.resolve on = .ok discriminant ∧
      CaseLies codec deeper discriminant (DefaultLies codec deeper default scope left value cells)
        cases scope left value cells
  | .conditional condition yes no, scope, left, value, cells =>
    condition scope = .ok true ∧ Lies codec deeper yes scope left value cells ∨
      condition scope = .ok false ∧ Lies codec deeper no scope left value cells
  | .select _, _, _, _, _ => False
  | .checked _ holds inner, scope, left, value, cells =>
    Lies codec deeper inner scope left value cells ∧ holds value scope = true
  | .padded size inner, scope, left, value, cells => ∃ content : Cells, content.length ≤ size ∧
      Lies codec deeper inner scope (left + (size - content.length)) value content ∧
      cells = content ++ .gap (size - content.length)
  | .packed unit, _, _, value, cells => unit.check = .ok () ∧ ∃ word, word.length = unit.size ∧
      cells = .of word ∧ value = unit.value word
  | .lazy slot, scope, left, value, cells => ∃ layout ∈ deeper,
      layout (codec.definitions slot) scope left value cells
  termination_by structural type => type
/-- One value of each type, one after the other. -/
def SequenceLies (codec : Codec) (deeper : Option Layout) :
    List FieldType → Scope → Nat → List Value → Cells → Prop
  | [], _, _, items, cells => items = [] ∧ cells = []
  | type :: types, scope, left, items, cells => ∃ value rest first others,
      items = value :: rest ∧ cells = first ++ others ∧
      Lies codec deeper type scope (left + others.length) value first ∧
      SequenceLies codec deeper types scope left rest others
  termination_by structural types => types
def CaseLies (codec : Codec) (deeper : Option Layout) (discriminant : Value) (otherwise : Prop) :
    List (Key × FieldType) → Scope → ValueLayout
  | [], _, _, _, _ => otherwise
  | (key, type) :: cases, scope, left, value, found =>
    if key.matches discriminant then Lies codec deeper type scope left value found
    else CaseLies codec deeper discriminant otherwise cases scope left value found
  termination_by structural cases => cases
def DefaultLies (codec : Codec) (deeper : Option Layout) : Option FieldType → Scope → ValueLayout
  | none, _, _, _, _ => False
  | some type, scope, left, value, cells => Lies codec deeper type scope left value cells
  termination_by structural default => default
end

/-- Where a value of a type lies with `levels` of records left. -/
def LiesAt (codec : Codec) : Nat → Layout
  | 0 => Lies codec none
  | levels + 1 => Lies codec (some (LiesAt codec levels))

theorem exists_lies (codec : Codec) (levels : Nat) :
    ∃ deeper, LiesAt codec levels = Lies codec deeper := by
  cases levels with
  | zero => exact ⟨none, rfl⟩
  | succ levels => exact ⟨some _, rfl⟩

theorem mem_of_pick? {default : Option FieldType}
    (h : pick? cases default discriminant = some type) :
    (∃ case ∈ cases, case.2 = type) ∨ type ∈ default := by
  unfold pick? at h
  split at h
  · rename_i case hf
    cases h
    exact .inl ⟨case, List.mem_of_find?_eq_some hf, rfl⟩
  · exact .inr h

theorem switch_lies_iff {default : Option FieldType} :
    Lies codec deeper (.switch on cases default) scope left value cells' ↔
    ∃ discriminant type, scope.resolve on = .ok discriminant ∧
      pick? cases default discriminant = some type ∧
        Lies codec deeper type scope left value cells' := by
  have hcase (discriminant : Value) :
      CaseLies codec deeper discriminant (DefaultLies codec deeper default scope left value cells')
        cases scope left value cells' ↔ ∃ type, pick? cases default discriminant = some type ∧
          Lies codec deeper type scope left value cells' := by
    induction cases with
    | nil => cases default <;> simp [CaseLies, DefaultLies, pick?]
    | cons case cases ih =>
      obtain ⟨key, type⟩ := case
      by_cases hk : key.matches discriminant
      · simp [CaseLies, pick?, hk]
      · simpa [CaseLies, pick?, hk] using ih
  simp only [Lies, hcase, exists_and_left]

end FieldType

def Schema.Lies (schema : Schema) (options : CodecOptions) (document : Document) (cells : Cells) :
    Prop :=
  FieldsLie (FieldType.LiesAt (schema.codec options) options.maxDepth) (Scope.root · options)
    schema.fields .empty 0 document cells

end Mapsmith
