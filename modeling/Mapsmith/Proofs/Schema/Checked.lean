import Mapsmith.Proofs.Schema.Breakdown
import Mapsmith.Schema.Check

/-!
# Checked schemas at work

`Schema.decode_encode_ne_invalidSchema`: a schema that has been checked is not found to be at
fault later on, whatever it is given to decode or to encode. The check goes over each
definition by itself, and so a type that is reached from checked ones is checked; what the
codecs ask of a unit or of a selection is what the check has asked of it.

That a schema which fails its check is at fault for some input is not proved, and need not be
so.
-/

namespace Mapsmith

-- ---------------------------------------------------------------------------
-- What the check goes over
-- ---------------------------------------------------------------------------

theorem bind_unit_ok {x : Except ε Unit} {f : Unit → Except ε α} :
    x >>= f = .ok a ↔ x = .ok () ∧ f () = .ok a := by
  cases x <;> simp [bind, Except.bind]

theorem mapError_ok {x : Except ε α} {f : ε → ε'} : x.mapError f = .ok a ↔ x = .ok a := by
  cases x with
  | error => exact ⟨nofun, nofun⟩
  | ok => exact ⟨fun h => congrArg _ (Except.ok.inj h), fun h => congrArg _ (Except.ok.inj h)⟩

theorem checkTypes_ok : checkTypes types = .ok () ↔ ∀ type ∈ types, type.check = .ok () := by
  induction types with
  | nil => simp [checkTypes, pure, Except.pure]
  | cons type types ih => rw [checkTypes, bind_unit_ok, ih, List.forall_mem_cons]

theorem checkCases_ok : checkCases cases = .ok () ↔ ∀ case ∈ cases, case.2.check = .ok () := by
  induction cases with
  | nil => simp [checkCases, pure, Except.pure]
  | cons case cases ih => rw [checkCases, bind_unit_ok, ih, List.forall_mem_cons]

theorem checkFields_ok {name : String} :
    checkFields name fields = .ok () ↔ ∀ field ∈ fields, field.2.check = .ok () := by
  induction fields with
  | nil => simp [checkFields, pure, Except.pure]
  | cons field fields ih => rw [checkFields, bind_unit_ok, mapError_ok, ih, List.forall_mem_cons]

theorem check_select_ok : (FieldType.select alternatives).check = .ok () ↔
    alternatives ≠ [] ∧ ∀ type ∈ alternatives, type.check = .ok () := by
  cases alternatives with
  | nil => simp [FieldType.check, throw, throwThe, MonadExceptOf.throw]
  | cons first rest => simp [FieldType.check, bind_unit_ok, checkTypes_ok]

theorem check_switch_ok {default : Option FieldType} :
    (FieldType.switch on cases default).check = .ok () ↔
    (∀ case ∈ cases, case.2.check = .ok ()) ∧ ∀ type ∈ default, type.check = .ok () := by
  cases default with
  | none => simp [FieldType.check, checkCases_ok]
  | some type => simp [FieldType.check, bind_unit_ok, checkCases_ok]

/-- What a checked type is made of has been checked with it, the definition of a lazy
field apart. -/
theorem Site.Part.check {definitions : Nat → FieldType} {site other : Site}
    (h : Part definitions site other) (hc : site.type.check = .ok ())
    (hl : ∀ slot, site.type = .lazy slot → (definitions slot).check = .ok ()) :
    other.type.check = .ok () := by
  cases h with
  | const | enum | element | greedy | checked | padded => exact hc
  | field => exact checkFields_ok.mp hc _ (by simp)
  | item hmem => exact checkTypes_ok.mp hc _ hmem
  | case hmem => exact (check_switch_ok.mp hc).1 _ hmem
  | default hmem => exact (check_switch_ok.mp hc).2 _ hmem
  | yes => exact (bind_unit_ok.mp hc).1
  | no => exact (bind_unit_ok.mp hc).2
  | alternative hmem => exact (check_select_ok.mp hc).2 _ hmem
  | lazy => exact hl _ rfl

/-- What a lazy field stands for has been checked. -/
def Site.ResolvesChecked (definitions : Nat → FieldType) (site : Site) : Prop :=
  ∀ slot, site.type = .lazy slot → (definitions slot).check = .ok ()

theorem Site.everywhere_check {definitions : Nat → FieldType} {site : Site}
    (hc : site.type.check = .ok ())
    (hl : Everywhere definitions (ResolvesChecked definitions) site) :
    Everywhere definitions (fun site => site.type.check = .ok ()) site := by
  intro part hs
  induction hs with
  | refl => exact hc
  | tail hs hpart ih => exact hpart.check ih (hl _ hs)

-- ---------------------------------------------------------------------------
-- Functions that do not blame the schema
-- ---------------------------------------------------------------------------

/-- The result is not that the schema is at fault. -/
def Blameless (x : Except CodecError α) : Prop := ∀ fault, x ≠ .error (.invalidSchema fault)

theorem avoids_fault {x : Except CodecError α} : Avoids .fault x ↔ Blameless x := by
  constructor
  · exact fun h fault => h _ rfl
  · intro h error hb heq
    obtain ⟨fault, rfl⟩ := CodecError.breakdown?_eq_fault.mp hb
    exact h fault heq

/-- No computed length blames the schema. -/
def Length.AnswersBlamelessly : Length → Prop
  | .computed count => ∀ scope, Blameless (answered (count scope))
  | _ => True

/-- No function that belongs to the type itself blames the schema. -/
def FieldType.AnswersBlamelessly : FieldType → Prop
  | .bytes length | .array length _ => length.AnswersBlamelessly
  | .conditional condition _ _ => ∀ scope, Blameless (answered (condition scope))
  | _ => True

theorem FieldType.AnswersBlamelessly.answersWithout {type : FieldType}
    (h : type.AnswersBlamelessly) :
    type.AnswersWithout .fault := by
  unfold AnswersWithout
  split
  · exact fun scope => avoids_fault.mpr (h scope)
  · exact fun scope => avoids_fault.mpr (h scope)
  · exact fun scope => avoids_fault.mpr (h scope)
  · trivial

/-- What the codecs ask of a unit or of a selection is what the check has asked of it. -/
theorem Site.avoids_fault_of_check {site : Site} (hc : site.type.check = .ok ())
    (ha : site.type.AnswersBlamelessly) (constantBytes : FieldType → Value → Option Bytes) :
    site.Avoids .fault constantBytes where
  answers := ha.answersWithout
  unit unit htype := by
    rw [htype, FieldType.check] at hc
    exact hc ▸ avoids_ok _
  choice _ htype := (check_select_ok.mp (htype ▸ hc)).1 rfl
  shown := nofun

-- ---------------------------------------------------------------------------
-- Schemas
-- ---------------------------------------------------------------------------

namespace Schema

variable {schema : Schema}

theorem everywhere_avoids_fault (hc : schema.check = .ok ())
    (hl : schema.Everywhere (Site.ResolvesChecked schema.definitions))
    (ha : schema.Everywhere fun site => site.type.AnswersBlamelessly)
    (constantBytes : FieldType → Value → Option Bytes) :
    schema.Everywhere (Site.Avoids .fault constantBytes) := by
  intro before field after heq part hs
  have hfield : field.2.check = .ok () := checkFields_ok.mp hc field (by simp [heq])
  exact Site.avoids_fault_of_check
    (Site.everywhere_check hfield (hl before field after heq) part hs)
    (ha before field after heq part hs) constantBytes

/-- If a schema is checked, and so are the definitions of the lazy fields that are reached
from it, then neither codec ever answers that the schema is invalid, unless a function of
the schema says so itself. -/
theorem decode_encode_ne_invalidSchema (hc : schema.check = .ok ())
    (hl : schema.Everywhere (Site.ResolvesChecked schema.definitions))
    (ha : schema.Everywhere fun site => site.type.AnswersBlamelessly) (options : CodecOptions)
    (bytes : Bytes) (document : Document) :
    (∀ fault, schema.decode options bytes ≠ .error (.invalidSchema fault)) ∧
      ∀ fault, schema.encode options document ≠ .error (.invalidSchema fault) := by
  have hs := everywhere_avoids_fault hc hl ha (FieldType.constantBytes (schema.codec options))
  exact ⟨avoids_fault.mp (avoids_decode hs bytes), avoids_fault.mp (avoids_encode hs document)⟩

/-- A record of two halves of a byte that may hold another such record, or ends in a null. -/
def nodes : Schema where
  name := "Nodes"
  fields := [("root", .lazy 0)]
  definitions := fun _ => .record "Node"
    [("halves", .packed ⟨1, .lowFirst, [⟨"low", 4, none⟩, ⟨"high", 4, none⟩]⟩),
      ("next", .select [.magic [0], .lazy 0])]

theorem nodes_answer : nodes.Everywhere fun site => site.type.AnswersBlamelessly := by
  have hnext (seen : List (List String)) : Site.Inside nodes.definitions
      (fun site => site.type.AnswersBlamelessly) ⟨seen, .select [.magic [0], .lazy 0]⟩ := by
    refine .intro trivial fun other hpart _ => ?_
    cases hpart with
    | alternative hmem =>
      simp only [List.mem_cons, List.not_mem_nil, or_false] at hmem
      obtain rfl | rfl := hmem
      · refine .intro trivial fun other hpart _ => ?_
        cases hpart
        exact .intro trivial nofun
      · exact Site.inside_lazy trivial
  have hfields :
      Site.InsideFields nodes.definitions (fun site => site.type.AnswersBlamelessly) [] []
      nodes.fields := ⟨Site.inside_lazy trivial, trivial⟩
  exact fun _ _ _ heq => (hfields.field heq).everywhere fun _ _ =>
    Site.inside_record trivial ⟨.intro trivial nofun, hnext _, trivial⟩

theorem decode_encode_ne_invalidSchema_nodes :
    nodes.check = .ok () ∧ nodes.Everywhere (Site.ResolvesChecked nodes.definitions) ∧
      (nodes.Everywhere fun site => site.type.AnswersBlamelessly) ∧
      (∀ fault, nodes.decode {} [0x21, 0x43] ≠ .error (.invalidSchema fault)) ∧
      ∀ fault, nodes.encode {} .empty ≠ .error (.invalidSchema fault) := by
  have hc : nodes.check = .ok () := rfl
  have hl : nodes.Everywhere (Site.ResolvesChecked nodes.definitions) := fun _ _ _ _ _ _ _ _ => rfl
  obtain ⟨hdecode, hencode⟩ :=
    decode_encode_ne_invalidSchema hc hl nodes_answer {} [0x21, 0x43] .empty
  exact ⟨hc, hl, nodes_answer, hdecode, hencode⟩

end Schema

end Mapsmith
