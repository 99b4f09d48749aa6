import Mapsmith.Value.Text
import Mapsmith.Schema.Error

/-!
# Scopes and references

`Scope.resolve`, `Length.count`: while a field is decoded it sees the fields before it, in its
own record and in the records around it. A reference names one of these, and a length is a
number of items computed from them.
-/

namespace Mapsmith

/-- Counts by table and key. -/
abbrev Lookups := List (String × List (String × Nat))

namespace Lookups

def count? (lookups : Lookups) (table key : String) : Option Nat := do
  (← lookups.lookup table).lookup key

end Lookups

/-- What bounds a single run of the codec. -/
structure CodecOptions where
  /-- The largest number of items that a length may ask for. -/
  maxElements : Nat := 16777216
  /-- How many records may be open at once below the root. -/
  maxDepth : Nat := 256
  /-- Bytes after the root record are ignored. -/
  allowTrailing : Bool := false
  lookups : Lookups := []

/-- A path to a field: `up` records outward, then inward by name. -/
structure Reference where
  up : Nat
  path : List String
  deriving DecidableEq, Repr

namespace Reference

/-- Reads a dotted path; each leading `_` goes one record outward. -/
def ofText (text : String) : Reference :=
  climb 0 (Text.splitOn '.' text)
where
  climb (up : Nat) : List String → Reference
    | [] => ⟨up, []⟩
    | part :: rest => if part = "_" then climb (up + 1) rest else ⟨up, part :: rest⟩

def toText (reference : Reference) : String :=
  String.join (List.replicate reference.up "_.") ++ ".".intercalate reference.path

end Reference

/-- The fields that are in sight: those of the innermost record, and those of the
records around it from the inside out. -/
structure Scope where
  current : Document
  enclosing : List Document
  options : CodecOptions

namespace Scope

def root (document : Document) (options : CodecOptions) : Scope := ⟨document, [], options⟩

def child (scope : Scope) (document : Document) : Scope :=
  ⟨document, scope.current :: scope.enclosing, scope.options⟩

/-- The fields that are in sight `up` records outward. -/
def outward? (scope : Scope) (up : Nat) : Option Document :=
  (scope.current :: scope.enclosing)[up]?

def find? (scope : Scope) (reference : Reference) : Option Value := do
  (← scope.outward? reference.up).getPath? reference.path

def resolve (scope : Scope) (reference : Reference) : Except Refusal Value :=
  match scope.find? reference with
  | some value => .ok value
  | none => .error ⟨.missingField reference.toText, nofun⟩

def resolveInt (scope : Scope) (reference : Reference) : Except Refusal Int := do
  let value ← scope.resolve reference
  match value.asInt? with
  | some n => return n
  | none => throw ⟨.typeMismatch reference.toText "an integer" value.kind, nofun⟩

end Scope

/-- How many items a field holds. -/
inductive Length where
  | fixed (n : Nat)
  | field (reference : Reference)
  | product (first second : Reference)
  | scaled (reference : Reference) (factor : Nat)
  /-- A count from a table, under the text of a field. -/
  | lookup (table : String) (key : Reference)
  /-- All that is left of the input. -/
  | remaining
  | computed (count : Scope → Except Refusal Int)

namespace Length

def keyText (value : Value) : String := value.asStr?.getD value.toText

def resolve (length : Length) (scope : Scope) : Except Refusal (Option Int) :=
  match length with
  | .fixed n => return some n
  | .field reference => return some (← scope.resolveInt reference)
  | .product first second => do
    let a ← scope.resolveInt first
    let b ← scope.resolveInt second
    return some (a * b)
  | .scaled reference factor => return some ((← scope.resolveInt reference) * factor)
  | .lookup table key => do
    let text := keyText (← scope.resolve key)
    match scope.options.lookups.count? table text with
    | some n => return some n
    | none => throw ⟨.missingLookup table text, nofun⟩
  | .remaining => return none
  | .computed count => return some (← count scope)

/-- A number of items within the limit, for the field at `path`. -/
def count (length : Length) (path : FieldPath) (scope : Scope) :
    Except CodecError (Option Nat) := do
  match ← answered (length.resolve scope) with
  | none => return none
  | some requested =>
    let limit := scope.options.maxElements
    if requested < 0 ∨ limit < requested then throw (.overflow path.toText requested limit)
    else return some requested.toNat

end Length

end Mapsmith
