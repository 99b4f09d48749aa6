import Mapsmith.Schema.FieldType

/-!
# Encoding

Writes a document as the bytes that its schema describes. A value is written
only if decoding gives it back: numbers fit their words, texts hold no null byte,
counts agree with the fields that carry them, and no field of the document is
left over. A constant may be absent.

Types nest in two ways. Within a field the encoder follows the type; into a
record, or through a lazy field, it goes by `deeper`, of which there are as many
as the depth limit allows.
-/

namespace Mapsmith

/-- What encoding and decoding are given besides the data. -/
structure Codec where
  options : CodecOptions
  definitions : Nat → FieldType

abbrev Writer := FieldPath → FieldType → Value → Scope → Except CodecError Bytes

namespace Codec

def mismatch {α : Type} (path : FieldPath) (expected : String) (value : Value) :
    Except CodecError α :=
  throw (.typeMismatch path.toText expected value.kind)

/-- The error of a constant with another value, which shows both of them. Where showing one
halts, so does the run. -/
def otherConstant (field : String) : Option Bytes → Option Bytes → CodecError
  | some expected, some actual => .formatMismatch field expected actual
  | _, _ => .halted

def expect {α : Type} (path : FieldPath) (expected : String) (value : Value) :
    Option α → Except CodecError α
  | some a => return a
  | none => mismatch path expected value

def writeInt (path : FieldPath) (kind : IntKind) (order : ByteOrder) (n : Int) :
    Except CodecError Bytes :=
  if n < kind.min ∨ kind.max < n then throw (.roundTrip path.toText (.outOfRange n kind))
  else return kind.encode order n

def writeFlags (path : FieldPath) (set : FlagSet) (bits : Nat) : Except CodecError Bytes :=
  if Nat.pow 2 set.kind.width ≤ bits then
    throw (.roundTrip path.toText (.flagsTooWide bits set.kind.width))
  else return set.order.encode set.kind.size bits

def writeText (path : FieldPath) (text : String) : Except CodecError Bytes :=
  if '\x00' ∈ text.toList then throw (.roundTrip path.toText .embeddedNull)
  else return Bytes.ofText text ++ [0]

def checkCount (path : FieldPath) (length : Length) (scope : Scope) (held : Nat) (unit : String) :
    Except CodecError Unit := do
  match ← length.count path scope with
  | some expected =>
    if expected = held then return ()
    else throw (.validation path.toText (.miscounted held unit expected))
  | none => return ()

/-- Fills a block of `size` bytes with zeros after its content. -/
def fillBlock (path : FieldPath) (size : Nat) (content : Bytes) : Except CodecError Bytes :=
  let used := content.length
  if size < used then throw (.roundTrip path.toText (.blockTooSmall used size))
  else return content ++ List.replicate (size - used) 0

/-- The word of a field of a packed unit. -/
def packedWord (path : FieldPath) (field : PackedField) (value : Value) :
    Except CodecError UInt64 := do
  let word ← match value with
    | .flags bits _ => pure bits
    | other => do
      let n ← expect path "an integer" other other.asInt?
      if n < 0 then throw (.roundTrip path.toText (.negative n))
      else pure (UInt64.ofNat n.toNat)
  if PackedUnit.fits field.width word then return word
  else throw (.roundTrip path.toText (.tooWide word.toNat field.width.toNat))

def writePacked (path : FieldPath) (unit : PackedUnit) (value : Value) :
    Except CodecError Bytes := do
  unit.check
  let document ← expect path "a struct" value value.asStruct?
  let words ← unit.fields.mapM fun field => do
    let path := path.push (.name field.name)
    match document.get? field.name with
    | some part => packedWord path field part
    | none => throw (.missingField path.toText)
  return unit.join words

def writeItems (path : FieldPath) (write : FieldPath → Value → Except CodecError Bytes)
    (items : List Value) : Except CodecError Bytes := do
  let parts ← items.zipIdx.mapM fun item => write (path.push (.index item.2)) item.1
  return parts.flatten

/-- A field that is absent: only a constant is known without its value. -/
def writeMissing (write : Writer) (path : FieldPath) (scope : Scope) :
    FieldType → Except CodecError Bytes
  | .const inner value => write path inner value scope
  | .padded size (.const inner value) => do
    let content ← write path inner value scope
    return content ++ List.replicate (size - content.length) 0
  | _ => throw (.missingField path.toText)

/-- Writes the fields of a record in the order of the schema. -/
def writeFields (write : Writer) (path : FieldPath) (scope : Scope)
    (fields : List (String × FieldType)) : Except CodecError Bytes := do
  match scope.current.names.find? fun name => !(fields.any fun field => field.1 == name) with
  | some name => throw (.unknownField (path.push (.name name)).toText)
  | none =>
    let parts ← fields.mapM fun field => do
      let path := path.push (.name field.1)
      match scope.current.get? field.1 with
      | some value => write path field.2 value scope
      | none => writeMissing write path scope field.2
    return parts.flatten

/-- The raw value that an enumerated field writes for a value: that of its name
if the name is known, else the value itself. -/
def rawValue (variants : List (String × Value)) : Value → Value
  | .enum (some name) raw => (FieldType.variantRaw? variants name).getD raw
  | .enum none raw => raw
  | .str name => (FieldType.variantRaw? variants name).getD (.str name)
  | other => other

end Codec

structure WriteContext where
  codec : Codec
  /-- The bytes of a constant, for the error that reports it. -/
  constantBytes : FieldType → Value → Option Bytes
  /-- Writing in a record one level deeper, unless the depth limit is reached. -/
  deeper : Option Writer

namespace WriteContext

/-- Goes one record deeper, if the depth limit allows it. -/
def descend {α : Type} (ctx : WriteContext) (path : FieldPath)
    (f : Writer → Except CodecError α) : Except CodecError α :=
  match ctx.deeper with
  | some write => f write
  | none =>
    let limit := ctx.codec.options.maxDepth
    throw (.overflow path.toText (limit + 1) limit)

open Codec

mutual
def write (ctx : WriteContext) (path : FieldPath) : FieldType → Value → Scope →
    Except CodecError Bytes
  | .int kind order, value, _ => do
    writeInt path kind order (← expect path "an integer" value value.asInt?)
  | .float order, value, _ => do
    return order.encode 4 (← expect path "a float" value value.asFloat?).toNat
  | .text, value, _ => do writeText path (← expect path "a string" value value.asStr?)
  | .id, value, _ => do return (← expect path "an identifier" value value.asId?).bytes
  | .reversedId, value, _ => do
    return (← expect path "an identifier" value value.asId?).reverse.bytes
  | .bytes length, value, scope => do
    let content ← match value with
      | .bytes content => pure content
      | .id code => pure code.bytes
      | other => mismatch path "bytes" other
    checkCount path length scope content.length "bytes"
    return content
  | .const inner expected, value, scope =>
    if value == expected then ctx.write path inner expected scope
    else throw (otherConstant path.toText (ctx.constantBytes inner expected)
        (ctx.constantBytes inner value))
  | .bool kind order no yes, value, _ =>
    match value with
    | .bool b => writeInt path kind order (if b then yes else no)
    | other => mismatch path "a boolean" other
  | .enum repr variants, value, scope =>
    ctx.write path repr (rawValue variants value) scope
  | .flags set, value, _ =>
    match value with
    | .flags bits _ => writeFlags path set bits.toNat
    | .int n =>
      if 0 ≤ n.toInt then writeFlags path set n.toInt.toNat else mismatch path "flags" value
    | other => mismatch path "flags" other
  | .record _ fields, value, scope => do
    let document ← expect path "a struct" value value.asStruct?
    ctx.descend path fun write => writeFields write path (scope.child document) fields
  | .array length element, value, scope => do
    let items ← expect path "an array" value value.asArray?
    checkCount path length scope items.length "elements"
    writeItems path (fun path item => ctx.write path element item scope) items
  | .greedy element, value, scope => do
    let items ← expect path "an array" value value.asArray?
    writeItems path (fun path item => ctx.write path element item scope) items
  | .sequence types, value, scope => do
    let items ← expect path "an array" value value.asArray?
    if items.length ≠ types.length then
      throw (.validation path.toText (.wrongArity items.length types.length))
    ctx.writeSequence path 0 types items scope
  | .switch on cases default, value, scope => do
    let discriminant ← answered (scope.resolve on)
    match ctx.writeCase path discriminant cases value scope with
    | some written => written
    | none => ctx.writeDefault path discriminant default value scope
  | .conditional condition yes no, value, scope => do
    if ← answered (condition scope) then ctx.write path yes value scope
    else ctx.write path no value scope
  | .select alternatives, value, scope =>
    ctx.writeFirst path none alternatives value scope
  | .checked relation holds inner, value, scope =>
    if holds value scope then ctx.write path inner value scope
    else throw (.validation path.toText (.check relation))
  | .padded size inner, value, scope => do
    fillBlock path size (← ctx.write path inner value scope)
  | .packed unit, value, _ => writePacked path unit value
  | .lazy slot, value, scope =>
    ctx.descend path fun write => write path (ctx.codec.definitions slot) value scope
  termination_by structural type => type
def writeSequence (ctx : WriteContext) (path : FieldPath) (index : Nat) :
    List FieldType → List Value → Scope → Except CodecError Bytes
  | type :: types, item :: items, scope => do
    let part ← ctx.write (path.push (.index index)) type item scope
    let rest ← ctx.writeSequence path (index + 1) types items scope
    return part ++ rest
  | _, _, _ => return []
  termination_by structural types => types
/-- Writes the value with the type of the first case that matches, if one does. -/
def writeCase (ctx : WriteContext) (path : FieldPath) (discriminant : Value) :
    List (Key × FieldType) → Value → Scope → Option (Except CodecError Bytes)
  | (key, type) :: cases, value, scope =>
    if key.matches discriminant then some (ctx.write path type value scope)
    else ctx.writeCase path discriminant cases value scope
  | [], _, _ => none
  termination_by structural cases => cases
/-- Writes the value with the type for all other discriminants. -/
def writeDefault (ctx : WriteContext) (path : FieldPath) (discriminant : Value) :
    Option FieldType → Value → Scope → Except CodecError Bytes
  | some type, value, scope => ctx.write path type value scope
  | none, _, _ => throw (.unknownVariant path.toText discriminant.toText)
  termination_by structural default => default
/-- Writes the value with the first alternative that takes it; `last` is why the
one before did not. -/
def writeFirst (ctx : WriteContext) (path : FieldPath) (last : Option CodecError) :
    List FieldType → Value → Scope → Except CodecError Bytes
  | [], _, _ => throw (last.getD (.invalidSchema (.noAlternatives path.toText)))
  | type :: types, value, scope =>
    match ctx.write path type value scope with
    | .ok written => .ok written
    | .error error =>
      if error.halts then throw error else ctx.writeFirst path (some error) types value scope
  termination_by structural types => types
end

end WriteContext

namespace FieldType

/-- Writes a value of a type with `levels` of records left. -/
def writeAt (codec : Codec) (constantBytes : FieldType → Value → Option Bytes) : Nat → Writer
  | 0 => WriteContext.write ⟨codec, constantBytes, none⟩
  | levels + 1 =>
    WriteContext.write ⟨codec, constantBytes, some (writeAt codec constantBytes levels)⟩

/-- The bytes of a constant by itself, empty if it cannot be written, or none where writing it
halts. A constant in it that does not match is shown by its bytes too, and so on for `reports`
times. -/
def constantBytesAt (codec : Codec) : Nat → FieldType → Value → Option Bytes
  | 0 => fun _ _ => none
  | reports + 1 => fun type value =>
    match value with
    | .bytes content => some content
    | value =>
      let scope := Scope.root Document.empty codec.options
      match writeAt codec (constantBytesAt codec reports) codec.options.maxDepth FieldPath.root
        type value scope with
      | .ok written => some written
      | .error error => if error.halts then none else some []

/-- More constants that show others than any run has room for. -/
def reportLimit : Nat := 18446744073709551616

/-- The bytes that show a constant. Each record in it may be as deep as the limit allows, and
nothing limits how often one constant shows another. -/
def constantBytes (codec : Codec) : FieldType → Value → Option Bytes :=
  constantBytesAt codec reportLimit

end FieldType

namespace Schema

def codec (schema : Schema) (options : CodecOptions) : Codec := ⟨options, schema.definitions⟩

/-- The bytes of a document, or why it has none. -/
def encode (schema : Schema) (options : CodecOptions) (document : Document) :
    Except CodecError Bytes :=
  let codec := schema.codec options
  Codec.writeFields (FieldType.writeAt codec (FieldType.constantBytes codec) options.maxDepth)
    FieldPath.root (Scope.root document options) schema.fields

end Schema

end Mapsmith
