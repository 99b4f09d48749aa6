import Mapsmith.Proofs.Schema.Running
import Mapsmith.Proofs.Schema.Tasks

/-!
# The values that the encoder comes to

`Schema.encode_accounts`: from the fields of a document the encoder goes on to the parts of
their values, through records and arrays and into the alternative that a selection takes.
Whatever it comes to on the way to a result, it has written as some of the bytes. So each name
of a struct that is written as a record is the name of a field, at any depth. A packed unit
asks for the names of its own fields only, and takes a struct with more of them as if it had no
others.
-/

namespace Mapsmith

/-- One value that the encoder comes to, by a type and with so many records left. -/
structure Visit where
  levels : Nat
  path : FieldPath
  type : FieldType
  value : Value
  scope : Scope

namespace Visit

variable {codec : Codec}

/-- The bytes that the encoder writes there, or why it has none. -/
def write (codec : Codec) (visit : Visit) : Except CodecError Bytes :=
  FieldType.writeAt codec (FieldType.constantBytes codec) visit.levels visit.path visit.type
  visit.value visit.scope

def Accepted (codec : Codec) (visit : Visit) : Prop := ∃ part, visit.write codec = .ok part

/-- The value is written as some of the bytes. -/
def Written (codec : Codec) (bytes : Bytes) (visit : Visit) : Prop :=
  ∃ part, part <:+: bytes ∧ visit.write codec = .ok part

/-- Where the encoder goes from a value. A selection leads to the first alternative that
takes the value. -/
inductive Next (codec : Codec) : Visit → Visit → Prop
  | const {levels path inner expected value scope} :
      Next codec ⟨levels, path, .const inner expected, value, scope⟩
      ⟨levels, path, inner, expected, scope⟩
  | enum {levels path repr variants value scope} :
      Next codec ⟨levels, path, .enum repr variants, value, scope⟩
        ⟨levels, path, repr, Codec.rawValue variants value, scope⟩
  | field {levels path name fields field document value scope} : field ∈ fields →
      document.get? field.1 = some value →
      Next codec ⟨levels + 1, path, .record name fields, .struct document, scope⟩
        ⟨levels, path.push (.name field.1), field.2, value, scope.child document⟩
  | element {levels path length element items i item scope} : items[i]? = some item →
      Next codec ⟨levels, path, .array length element, .array items, scope⟩
        ⟨levels, path.push (.index i), element, item, scope⟩
  | greedy {levels path element items i item scope} : items[i]? = some item →
      Next codec ⟨levels, path, .greedy element, .array items, scope⟩
        ⟨levels, path.push (.index i), element, item, scope⟩
  | item {levels path types i type items item scope} : types[i]? = some type →
      items[i]? = some item →
      Next codec ⟨levels, path, .sequence types, .array items, scope⟩
        ⟨levels, path.push (.index i), type, item, scope⟩
  | switch {levels path on cases default discriminant type value scope} :
      scope.resolve on = .ok discriminant → FieldType.pick? cases default discriminant = some type →
      Next codec ⟨levels, path, .switch on cases default, value, scope⟩
      ⟨levels, path, type, value, scope⟩
  | yes {levels path condition yes no value scope} : condition scope = .ok true →
      Next codec ⟨levels, path, .conditional condition yes no, value, scope⟩
      ⟨levels, path, yes, value, scope⟩
  | no {levels path condition yes no value scope} : condition scope = .ok false →
      Next codec ⟨levels, path, .conditional condition yes no, value, scope⟩
      ⟨levels, path, no, value, scope⟩
  | alternative {levels path alternatives type value scope} :
      First (fun other => Accepted codec ⟨levels, path, other, value, scope⟩) alternatives type →
      Accepted codec ⟨levels, path, type, value, scope⟩ →
      Next codec ⟨levels, path, .select alternatives, value, scope⟩
      ⟨levels, path, type, value, scope⟩
  | checked {levels path relation holds inner value scope} :
      Next codec ⟨levels, path, .checked relation holds inner, value, scope⟩
      ⟨levels, path, inner, value, scope⟩
  | padded {levels path size inner value scope} :
      Next codec ⟨levels, path, .padded size inner, value, scope⟩
      ⟨levels, path, inner, value, scope⟩
  | lazy {levels path slot value scope} :
      Next codec ⟨levels + 1, path, .lazy slot, value, scope⟩
      ⟨levels, path, codec.definitions slot, value, scope⟩

end Visit

/-- The encoder comes to the value on its way through the document. -/
inductive Schema.Visits (schema : Schema) (options : CodecOptions) (document : Document) :
    Visit → Prop
  | field {field value} : field ∈ schema.fields → document.get? field.1 = some value →
      Visits schema options document
        ⟨options.maxDepth, FieldPath.root.push (.name field.1), field.2, value,
          .root document options⟩
  | next {visit next} : Visits schema options document visit →
      visit.Next (schema.codec options) next →
      Visits schema options document next

-- ---------------------------------------------------------------------------
-- What is visited is written
-- ---------------------------------------------------------------------------

open Codec

theorem Codec.writeFields_present {write : Writer} {scope : Scope}
    {fields : List (String × FieldType)}
    (hw : writeFields write path scope fields = .ok written) (hf : field ∈ fields)
    (hv : scope.current.get? field.1 = some value) :
    ∃ part, part <:+: written ∧
      write (path.push (.name field.1)) field.2 value scope = .ok part := by
  obtain ⟨-, parts, hparts, rfl⟩ := writeFields_ok.mp hw
  obtain ⟨i, hi, rfl⟩ := List.getElem_of_mem hf
  have hi' := hparts.length_eq ▸ hi
  have hpart := hparts.get hi hi'
  rw [List.get_eq_getElem, WritesField, hv] at hpart
  exact ⟨parts[i], List.infix_of_mem_flatten (List.getElem_mem hi'), hpart⟩

theorem Codec.not_writeMissing {write : Writer} {scope : Scope} {type : FieldType}
    (h : type.absent? = none) :
    writeMissing write path scope type ≠ .ok written := by
  unfold writeMissing
  split
  · cases h
  · cases h
  · exact nofun

theorem Codec.writeFields_required {write : Writer} {scope : Scope}
    {fields : List (String × FieldType)}
    (hw : writeFields write path scope fields = .ok written) (hf : field ∈ fields)
    (hnone : field.2.absent? = none) : ∃ value part, scope.current.get? field.1 = some value ∧
      write (path.push (.name field.1)) field.2 value scope = .ok part := by
  cases hv : scope.current.get? field.1 with
  | none => exact absurd hw (not_writeFields_of_missing hf hv fun _ _ => not_writeMissing hnone)
  | some value =>
    obtain ⟨part, -, hpart⟩ := writeFields_present hw hf hv
    exact ⟨value, part, rfl, hpart⟩

/-- From a value that is written the encoder goes on to values that are. -/
theorem Visit.Written.next {visit next : Visit} (h : visit.Written codec bytes)
    (hn : visit.Next codec next) : next.Written codec bytes := by
  obtain ⟨levels, path, type, value, scope⟩ := visit
  obtain ⟨written, hinfix, hw⟩ := h
  obtain ⟨deeper, hctx, -⟩ := FieldType.exists_writeAt codec (FieldType.constantBytes codec) levels
  dsimp only [Visit.write] at hw
  -- Only a field and what is behind a lazy one have a record less.
  have here {path scope type value part} (hpart : part <:+: written)
      (hw : WriteContext.write ⟨codec, FieldType.constantBytes codec,
        deeper⟩ path type value scope = .ok part) :
      Written codec bytes ⟨levels, path, type, value, scope⟩ :=
    ⟨part, hpart.trans hinfix, by rw [Visit.write, hctx, hw]⟩
  cases hn with
  | field hf hv =>
    simp only [FieldType.writeAt, WriteContext.write, bind_ok, expect_ok,
      WriteContext.descend_ok] at hw
    obtain ⟨_, ⟨⟩, _, ⟨⟩, hw⟩ := hw
    obtain ⟨part, hpart, hw⟩ := writeFields_present hw hf hv
    exact ⟨part, hpart.trans hinfix, hw⟩
  | lazy =>
    rw [FieldType.writeAt, WriteContext.write, WriteContext.descend_ok] at hw
    obtain ⟨_, ⟨⟩, hw⟩ := hw
    exact ⟨written, hinfix, hw⟩
  | const =>
    rw [hctx, WriteContext.write] at hw
    split at hw
    · exact here List.infix_rfl hw
    · cases hw
  | enum =>
    rw [hctx, WriteContext.write] at hw
    exact here List.infix_rfl hw
  | element hi =>
    simp only [hctx, WriteContext.write, bind_ok, expect_ok, writeItems_ok] at hw
    obtain ⟨_, ⟨⟩, _, -, hw⟩ := hw
    obtain ⟨part, hpart, hw⟩ := hw.item hi
    rw [Nat.zero_add] at hw
    exact here hpart hw
  | greedy hi =>
    simp only [hctx, WriteContext.write, bind_ok, expect_ok, writeItems_ok] at hw
    obtain ⟨_, ⟨⟩, hw⟩ := hw
    obtain ⟨part, hpart, hw⟩ := hw.item hi
    rw [Nat.zero_add] at hw
    exact here hpart hw
  | item ht hi =>
    rw [hctx, WriteContext.write_sequence_ok] at hw
    obtain ⟨_, ⟨⟩, -, hw⟩ := hw
    obtain ⟨part, hpart, hw⟩ := WriteContext.writeSequence_item hw ht hi
    rw [Nat.zero_add] at hw
    exact here hpart hw
  | switch hdisc hpick =>
    rw [hctx, WriteContext.write_switch_ok, hdisc] at hw
    obtain ⟨_, type, ⟨⟩, hpick', hw⟩ := hw
    cases hpick.symm.trans hpick'
    exact here List.infix_rfl hw
  | yes hcond =>
    rw [hctx, WriteContext.write, hcond] at hw
    exact here List.infix_rfl hw
  | no hcond =>
    rw [hctx, WriteContext.write, hcond] at hw
    exact here List.infix_rfl hw
  | alternative hfirst haccepted =>
    rw [hctx, WriteContext.write] at hw
    obtain ⟨type, hfirst', hw⟩ := WriteContext.first_of_writeFirst hw
    simp only [Accepted, Visit.write, hctx] at hfirst haccepted
    cases hfirst.unique haccepted hfirst' ⟨_, hw⟩
    exact here List.infix_rfl hw
  | checked =>
    rw [hctx, WriteContext.write] at hw
    split at hw
    · exact here List.infix_rfl hw
    · cases hw
  | padded =>
    simp only [hctx, WriteContext.write, bind_ok, fillBlock_ok] at hw
    obtain ⟨content, hcontent, -, rfl⟩ := hw
    exact here (List.prefix_append _ _).isInfix hcontent

section

variable {schema : Schema} {options : CodecOptions} {document : Document} {bytes : Bytes}
    {visit : Visit}

/-- The encoder comes only to values that it writes. -/
theorem Schema.Visits.written (hv : schema.Visits options document visit)
    (h : schema.encode options document = .ok bytes) :
    visit.Written (schema.codec options) bytes := by
  induction hv with
  | field hf hv => exact writeFields_present h hf hv
  | next _ hn ih => exact ih.next hn

end

-- ---------------------------------------------------------------------------
-- The names of a struct
-- ---------------------------------------------------------------------------

/-- The type takes a struct apart by itself. -/
def FieldType.TakesStruct : FieldType → Prop
  | .record .. | .packed _ => True
  | _ => False

/-- With all of the names the encoder goes on to a type that takes the struct apart. -/
def Visit.Leads (codec : Codec) (names : List String) (visit : Visit) : Prop :=
  ∃ last other, Relation.ReflTransGen (Next codec) visit last ∧ last.path = visit.path ∧
    last.type.TakesStruct ∧ last.value = .struct other ∧ names ⊆ other.names

/-- What the encoder has made of a value: some of the bytes, and of a struct either a
record of all its names or a packed unit of some of them. -/
structure Visit.Accounts (codec : Codec) (bytes : Bytes) (visit : Visit) : Prop where
  written : visit.Written codec bytes
  /-- Each name is the name of a field. -/
  record : ∀ name fields, visit.type = .record name fields →
    ∃ struct, visit.value = .struct struct ∧
    ∀ name ∈ struct.names, name ∈ fields.map Prod.fst
  /-- The names of the fields are there, and no other name makes a difference. -/
  packed : ∀ unit, visit.type = .packed unit → ∃ struct, visit.value = .struct struct ∧
    (∀ field ∈ unit.fields, field.name ∈ struct.names) ∧
    ∀ other : Document, (∀ field ∈ unit.fields, other.get? field.name = struct.get? field.name) →
      write codec { visit with value := .struct other } = write codec visit
  /-- Other types lead to one of these two. -/
  struct : ∀ struct, visit.value = .struct struct → visit.Leads codec struct.names

namespace Visit

variable {codec : Codec} {bytes : Bytes} {levels : Nat} {path : FieldPath} {type : FieldType}
  {struct : Document} {value : Value} {scope : Scope}

theorem Accepted.record (h : Accepted codec ⟨levels, path, .record name fields, value, scope⟩) :
    ∃ struct, value = .struct struct ∧ ∀ name ∈ struct.names, name ∈ fields.map Prod.fst := by
  obtain ⟨part, h⟩ := h
  obtain ⟨_, struct, hstruct, h⟩ := FieldType.writeAt_record_ok h
  cases value with
  | struct => cases hstruct; exact ⟨struct, rfl, (writeFields_ok.mp h).1⟩
  | _ => cases hstruct

theorem Accepted.packed (h : Accepted codec ⟨levels, path, .packed unit, value, scope⟩) :
    ∃ struct, value = .struct struct ∧ (∀ field ∈ unit.fields, field.name ∈ struct.names) ∧
      ∀ other : Document, (∀ field ∈ unit.fields, other.get? field.name = struct.get? field.name) →
        write codec ⟨levels, path, .packed unit, .struct other, scope⟩ =
          write codec ⟨levels, path, .packed unit, value, scope⟩ := by
  obtain ⟨part, h⟩ := h
  obtain ⟨ctx, hctx, -⟩ :=
    FieldType.exists_writeContext codec (FieldType.constantBytes codec) levels
  simp only [Visit.write, hctx, WriteContext.write] at h ⊢
  obtain ⟨hcheck, struct, hstruct, words, hwords, rfl⟩ := writePacked_ok.mp h
  obtain rfl : value = .struct struct := by
    cases value <;> cases hstruct
    rfl
  refine ⟨struct, rfl, fun field hf => ?_, fun other hother => ?_⟩
  · obtain ⟨i, hi, rfl⟩ := List.getElem_of_mem hf
    obtain ⟨held, hheld, -⟩ := hwords.get hi (hwords.length_eq ▸ hi)
    exact Document.mem_names_iff.mpr ⟨held, hheld⟩
  · rw [h]
    refine writePacked_ok.mpr ⟨hcheck, other, rfl, words, ?_, rfl⟩
    have hboth := (List.forall₂_and_left _ _).mpr ⟨hother, hwords⟩
    exact hboth.imp fun field word hword => hword.1 ▸ hword.2

theorem Accepted.next {visit next : Visit} (h : visit.Accepted codec) (hn : visit.Next codec next) :
    next.Accepted codec := by
  obtain ⟨written, hw⟩ := h
  obtain ⟨part, -, hpart⟩ := Written.next ⟨written, List.infix_rfl, hw⟩ hn
  exact ⟨part, hpart⟩

theorem Accepted.field {field : String × FieldType} {fields : List (String × FieldType)}
    (h : Accepted codec ⟨levels, path, .record name fields, .struct struct, scope⟩)
    (hf : field ∈ fields)
    (hnone : field.2.absent? = none) : ∃ fewer value, struct.get? field.1 = some value ∧
      Accepted codec ⟨fewer, path.push (.name field.1), field.2, value, scope.child struct⟩ := by
  obtain ⟨part, h⟩ := h
  obtain ⟨fewer, _, ⟨⟩, h⟩ := FieldType.writeAt_record_ok h
  obtain ⟨value, part, hvalue, hpart⟩ := writeFields_required h hf hnone
  exact ⟨fewer, value, hvalue, part, hpart⟩

theorem Accepted.items (h : Accepted codec ⟨levels, path, .array length element, value, scope⟩) :
    ∃ items, value = .array items ∧ ∀ item ∈ items, ∃ i,
      Accepted codec ⟨levels, path.push (.index i), element, item, scope⟩ := by
  obtain ⟨items, rfl⟩ : ∃ items, value = .array items := by
    obtain ⟨part, h⟩ := h
    obtain ⟨ctx, hctx, -⟩ :=
      FieldType.exists_writeContext codec (FieldType.constantBytes codec) levels
    rw [Visit.write, hctx] at h
    cases value with
    | array items => exact ⟨items, rfl⟩
    | _ => cases h
  refine ⟨items, rfl, fun item hitem => ?_⟩
  obtain ⟨i, hi⟩ := List.mem_iff_getElem?.mp hitem
  exact ⟨i, h.next (.element hi)⟩

theorem Leads.head {visit next : Visit} (h : Leads codec names next) (hn : visit.Next codec next)
    (hp : next.path = visit.path) : Leads codec names visit := by
  obtain ⟨last, other, hrest, hpath, hlast⟩ := h
  exact ⟨last, other, .head hn hrest, hpath.trans hp, hlast⟩

theorem Leads.mono (h : Leads codec names visit) (hsub : names' ⊆ names) :
    Leads codec names' visit := by
  obtain ⟨last, other, hrest, hpath, htype, hvalue, hnames⟩ := h
  exact ⟨last, other, hrest, hpath, htype, hvalue, fun _ hn => hnames (hsub hn)⟩

/-- A struct that is written is taken apart, if that is so behind lazy fields. -/
theorem Accepted.leads_of (hbelow : ∀ fewer, levels = fewer + 1 → ∀ type struct,
      Accepted codec ⟨fewer, path, type, .struct struct, scope⟩ →
        Leads codec struct.names ⟨fewer, path, type, .struct struct, scope⟩)
    (h : Accepted codec ⟨levels, path, type, .struct struct, scope⟩) :
    Leads codec struct.names ⟨levels, path, type, .struct struct, scope⟩ := by
  obtain ⟨deeper, hctx, -⟩ := FieldType.exists_writeAt codec (FieldType.constantBytes codec) levels
  induction type using FieldType.induction generalizing struct with
  | record name fields => exact ⟨_, struct, .refl, rfl, trivial, rfl, fun _ hn => hn⟩
  | packed unit => exact ⟨_, struct, .refl, rfl, trivial, rfl, fun _ hn => hn⟩
  | lazy slot =>
    cases levels with
    | zero =>
      obtain ⟨written, hw⟩ := h
      cases hw
    | succ fewer => exact (hbelow fewer rfl _ _ (h.next .lazy)).head .lazy rfl
  | enum repr variants ih => exact (ih (h.next .enum)).head .enum rfl
  | checked relation holds inner ih => exact (ih (h.next .checked)).head .checked rfl
  | padded size inner ih => exact (ih (h.next .padded)).head .padded rfl
  | const inner expected ih =>
    obtain ⟨written, hw⟩ := id h
    rw [Visit.write, hctx, WriteContext.write] at hw
    split at hw
    · rename_i heq
      obtain ⟨other, rfl, hother⟩ := Value.struct_beq_iff.mp heq
      -- What is written is the expected struct, which has the names of the one at hand.
      have hsub : struct.names ⊆ other.names := by
        intro name hn
        obtain ⟨value, hv⟩ := Document.mem_names_iff.mp hn
        obtain ⟨held, hheld, -⟩ := Document.get?_of_beq hother hv
        exact Document.mem_names_iff.mpr ⟨held, hheld⟩
      exact ((ih (h.next .const)).mono hsub).head .const rfl
    · cases hw
  | switch on cases default ihc ihd =>
    obtain ⟨written, hw⟩ := id h
    rw [Visit.write, hctx, WriteContext.write_switch_ok] at hw
    obtain ⟨discriminant, type, hdisc, hpick, -⟩ := hw
    have hn : Next codec ⟨levels, path, .switch on cases default, .struct struct, scope⟩
        ⟨levels, path, type, .struct struct, scope⟩ := .switch hdisc hpick
    obtain ⟨case, hc, rfl⟩ | hd := FieldType.mem_of_pick? hpick
    · exact (ihc case hc (h.next hn)).head hn rfl
    · exact (ihd type hd (h.next hn)).head hn rfl
  | conditional condition yes no ihy ihn =>
    obtain ⟨written, hw⟩ := id h
    rw [Visit.write, hctx, WriteContext.write, bind_ok] at hw
    obtain ⟨truth, htruth, -⟩ := hw
    rw [answered_ok] at htruth
    cases truth with
    | true => exact (ihy (h.next (.yes htruth))).head (.yes htruth) rfl
    | false => exact (ihn (h.next (.no htruth))).head (.no htruth) rfl
  | select alternatives ih =>
    obtain ⟨written, hw⟩ := id h
    rw [Visit.write, hctx, WriteContext.write] at hw
    obtain ⟨type, hfirst, hw⟩ := WriteContext.first_of_writeFirst hw
    rw [← hctx] at hfirst hw
    have hn : Next codec ⟨levels, path, .select alternatives, .struct struct, scope⟩
        ⟨levels, path, type, .struct struct, scope⟩ := .alternative hfirst ⟨written, hw⟩
    exact (ih type hfirst.mem (h.next hn)).head hn rfl
  | sequence types =>
    obtain ⟨written, hw⟩ := h
    rw [Visit.write, hctx] at hw
    obtain ⟨_, ⟨⟩, -⟩ := WriteContext.write_sequence_ok.mp hw
  | _ =>
    obtain ⟨written, hw⟩ := h
    rw [Visit.write, hctx] at hw
    cases hw

/-- A struct that is written is taken apart by a record or a packed unit. -/
theorem Accepted.leads (h : Accepted codec ⟨levels, path, type, .struct struct, scope⟩) :
    Leads codec struct.names ⟨levels, path, type, .struct struct, scope⟩ := by
  induction levels generalizing type struct with
  | zero => exact h.leads_of nofun
  | succ levels ih =>
    refine h.leads_of ?_
    rintro _ ⟨⟩ type struct h
    exact ih h

/-- What the encoder makes of a value that it writes. -/
theorem Written.accounts {visit : Visit} (h : visit.Written codec bytes) :
    visit.Accounts codec bytes := by
  obtain ⟨levels, path, type, value, scope⟩ := visit
  have haccepted : Accepted codec ⟨levels, path, type, value, scope⟩ := by
    obtain ⟨part, -, hpart⟩ := h
    exact ⟨part, hpart⟩
  refine ⟨h, ?_, ?_, ?_⟩
  · rintro name fields rfl
    exact haccepted.record
  · rintro unit rfl
    exact haccepted.packed
  · rintro struct rfl
    exact haccepted.leads

end Visit

/-- No name of a document that is written is left out: those of the root and of every
record that the encoder comes to are names of their fields. Only a packed unit passes
over names. -/
theorem Schema.encode_accounts {schema : Schema} {options : CodecOptions} {document : Document}
    (h : schema.encode options document = .ok bytes) :
    (∀ name ∈ document.names, name ∈ schema.fields.map Prod.fst) ∧
      ∀ visit, schema.Visits options document visit → visit.Accounts (schema.codec options) bytes :=
  ⟨(writeFields_ok.mp h).1, fun _ hv => (hv.written h).accounts⟩

/-- Trees of numbers, each with its branches. -/
def trees : Schema where
  name := "Trees"
  fields := [("count", .int .u8 .little), ("trees", .array (.field ⟨0, ["count"]⟩) (.lazy 0))]
  definitions := fun _ => .select [.record "Tree" [("count", .int .u8 .little),
    ("trees", .array (.field ⟨0, ["count"]⟩) (.lazy 0))], .int .u8 .little]

def twig : Document :=
  ⟨[("count", .int 1),
    ("trees", .array [.struct ⟨[("trees", .array [.int 7]), ("count", .int 1)]⟩])]⟩

theorem twig_accounts :
    trees.encode {} twig = .ok [1, 1, 7] ∧ (∀ name ∈ twig.names, name ∈ trees.fields.map Prod.fst) ∧
      ∀ visit, trees.Visits {} twig visit → visit.Accounts (trees.codec {}) [1, 1, 7] := by
  have h : trees.encode {} twig = .ok [1, 1, 7] := rfl
  exact ⟨h, Schema.encode_accounts h⟩

def halves : PackedUnit := ⟨1, .lowFirst, [⟨"low", 4, none⟩, ⟨"high", 4, none⟩]⟩

/-- What stands in a packed unit under another name is not written. -/
theorem halves_passes_over :
    let schema : Schema := { name := "Halves", fields := [("unit", .packed halves)] }
    let struct : Document := ⟨[("low", .int 1), ("high", .int 2), ("extra", .int 3)]⟩
    let document : Document := ⟨[("unit", .struct struct)]⟩
    schema.encode {} document = .ok [0x21] ∧
      (∃ visit, schema.Visits {} document visit ∧ visit.type = .packed halves ∧
        visit.value = .struct struct) ∧
      "extra" ∈ struct.names ∧ "extra" ∉ halves.fields.map PackedField.name :=
  ⟨rfl, ⟨_, .field List.mem_cons_self rfl, rfl, rfl⟩, by decide, by decide⟩

end Mapsmith
