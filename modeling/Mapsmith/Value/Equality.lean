import Mapsmith.Value.Basic

/-!
# Equality of values

`Value.beq`: two documents are equal when they hold equal values under the same names, in
whatever order. Flags are equal when their bits are, and floats when their bits are, so that
every value equals itself.
-/

namespace Mapsmith

mutual
def Value.beq : Value → Value → Bool
  | .int a, .int b => a == b
  | .float a, .float b => a == b
  | .bool a, .bool b => a == b
  | .str a, .str b => a == b
  | .bytes a, .bytes b => a == b
  | .id a, .id b => a == b
  | .enum name a, .enum other b => name == other && a.beq b
  | .flags a _, .flags b _ => a == b
  | .struct a, .struct b => a.beq b
  | .array a, .array b => beqItems a b
  | _, _ => false
  termination_by structural v => v
def Document.beq : Document → Document → Bool
  | ⟨entries⟩, other => entries.length == other.size && heldBy entries other
  termination_by structural doc => doc
def beqItems : List Value → List Value → Bool
  | [], [] => true
  | a :: rest, b :: others => a.beq b && beqItems rest others
  | _, _ => false
  termination_by structural items => items
/-- Every entry has an equal value under its name in the other document. -/
def heldBy : List (String × Value) → Document → Bool
  | [], _ => true
  | (name, a) :: rest, other =>
    (match other.get? name with
      | some b => a.beq b
      | none => false) && heldBy rest other
  termination_by structural entries => entries
end

instance : BEq Value := ⟨Value.beq⟩

instance : BEq Document := ⟨Document.beq⟩

end Mapsmith
