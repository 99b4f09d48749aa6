import Mapsmith.Schema.FieldType

/-!
# Checked schemas

`Schema.check`: a schema is consistent when every packed unit in it is filled by its fields and
every selection has an alternative. Definitions of lazy fields are checked by themselves.
-/

namespace Mapsmith

/-- Says in which field of a record a fault lies. -/
def CodecError.within (schema field : String) : CodecError → CodecError
  | .invalidSchema fault => .invalidSchema (.within schema field fault)
  | error => error

mutual
def FieldType.check : FieldType → Except CodecError Unit
  | .const inner _ => inner.check
  | .array _ element => element.check
  | .greedy element => element.check
  | .checked _ _ inner => inner.check
  | .padded _ inner => inner.check
  | .enum repr _ => repr.check
  | .record name fields => checkFields name fields
  | .sequence types => checkTypes types
  | .select [] => throw (.invalidSchema .emptySelection)
  | .select (first :: rest) => do
    first.check
    checkTypes rest
  | .switch _ cases none => checkCases cases
  | .switch _ cases (some default) => do
    checkCases cases
    default.check
  | .conditional _ yes no => do
    yes.check
    no.check
  | .packed unit => unit.check
  | .int .. | .float _ | .text | .id | .reversedId | .bytes _ | .bool .. | .flags _ | .lazy _ =>
    return ()
  termination_by structural type => type
def checkTypes : List FieldType → Except CodecError Unit
  | [] => return ()
  | type :: rest => do
    type.check
    checkTypes rest
  termination_by structural types => types
def checkCases : List (Key × FieldType) → Except CodecError Unit
  | [] => return ()
  | (_, type) :: rest => do
    type.check
    checkCases rest
  termination_by structural cases => cases
def checkFields (schema : String) : List (String × FieldType) → Except CodecError Unit
  | [] => return ()
  | (field, type) :: rest => do
    type.check.mapError (CodecError.within schema field)
    checkFields schema rest
  termination_by structural fields => fields
end

def Schema.check (schema : Schema) : Except CodecError Unit := checkFields schema.name schema.fields

end Mapsmith
