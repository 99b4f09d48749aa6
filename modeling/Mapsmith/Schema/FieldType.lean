import Mapsmith.Value.Equality
import Mapsmith.Schema.Packed
import Mapsmith.Schema.Scope

/-!
# Field types and schemas

`FieldType`: the vocabulary in which records are described. One description serves both
decoding and encoding.
-/

namespace Mapsmith

/-- What picks a case of a switch. -/
inductive Key where
  /-- The integer that the discriminant stands for. -/
  | int (n : Int)
  /-- The name or the text of the discriminant. -/
  | name (text : String)
  /-- An identifier or a byte string. -/
  | bytes (content : Bytes)

def Key.matches : Key → Value → Bool
  | .int n, value => value.asInt? == some n
  | .name text, value => value.enumName? == some text || value.asStr? == some text
  | .bytes content, .id code => code.bytes == content
  | .bytes content, .bytes found => found == content
  | .bytes _, _ => false

/-- The type of a field. -/
inductive FieldType where
  | int (kind : IntKind) (order : ByteOrder)
  /-- A single-precision number. -/
  | float (order : ByteOrder)
  /-- UTF-8 text up to a null byte. -/
  | text
  | id
  /-- An identifier whose last byte comes first. -/
  | reversedId
  | bytes (length : Length)
  | const (inner : FieldType) (value : Value)
  /-- An integer with one value for false and one for true. -/
  | bool (kind : IntKind) (order : ByteOrder) (no yes : Int)
  | enum (repr : FieldType) (variants : List (String × Value))
  | flags (set : FlagSet)
  | record (name : String) (fields : List (String × FieldType))
  | array (length : Length) (element : FieldType)
  /-- Elements up to the end of the input. -/
  | greedy (element : FieldType)
  /-- One value of each type. -/
  | sequence (types : List FieldType)
  /-- The type of the first case whose key matches the field referred to. -/
  | switch (on : Reference) (cases : List (Key × FieldType)) (default : Option FieldType)
  | conditional (condition : Scope → Except Refusal Bool) (yes no : FieldType)
  /-- The first alternative that goes through. -/
  | select (alternatives : List FieldType)
  /-- A value about which a named relation holds. -/
  | checked (relation : String) (holds : Value → Scope → Bool) (inner : FieldType)
  /-- A block of `size` bytes, zeros after its content. -/
  | padded (size : Nat) (inner : FieldType)
  | packed (unit : PackedUnit)
  /-- The definition in a slot of the schema; records recur through it. -/
  | lazy (slot : Nat)

namespace FieldType

instance : Inhabited FieldType := ⟨.sequence []⟩

/-- A byte string that is always the same. -/
def magic (content : Bytes) : FieldType := .const (.bytes (.fixed content.length)) (.bytes content)

/-- The name of a raw value of an enumeration. -/
def variantName? (variants : List (String × Value)) (raw : Value) : Option String :=
  (variants.find? fun variant => variant.2 == raw).map Prod.fst

/-- The raw value of a name of an enumeration. -/
def variantRaw? (variants : List (String × Value)) (name : String) : Option Value :=
  variants.lookup name

/-- The type that a switch picks for a discriminant. -/
def pick? (cases : List (Key × FieldType)) (default : Option FieldType) (discriminant : Value) :
    Option FieldType :=
  match cases.find? fun case => case.1.matches discriminant with
  | some case => some case.2
  | none => default

end FieldType

/-- The description of a file: the fields of its root record, and what its lazy
fields stand for. -/
structure Schema where
  name : String
  fields : List (String × FieldType)
  definitions : Nat → FieldType := fun _ => .sequence []

end Mapsmith
