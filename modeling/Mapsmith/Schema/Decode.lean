import Mapsmith.Schema.Encode

/-!
# Decoding

Reads bytes as the document that a schema describes. Each field sees the fields
before it. Types nest as in encoding: within a field the decoder follows the
type, and into a record, or through a lazy field, it goes by `deeper`.

A failure keeps the place where reading stopped. A constant needs it, because it
reports what it found, and a selection goes back to its own start.
-/

namespace Mapsmith

/-- How far reading has come: the bytes before it are counted, those after it are
at hand, and `path` names the field being read. -/
structure Place where
  offset : Nat
  rest : Bytes
  path : FieldPath

namespace Place

def start (input : Bytes) : Place := ⟨0, input, .root⟩

def advance (place : Place) (n : Nat) : Place :=
  { place with offset := place.offset + n, rest := place.rest.drop n }

end Place

/-- Reading from a place, with the place reached in both outcomes. -/
abbrev Decoder := EStateM CodecError Place

abbrev ValueReader := FieldType → Scope → Decoder Value

namespace Decoder

/-- Fails with an error about the current field. -/
def fail {α : Type} (error : String → CodecError) : Decoder α := fun place =>
  .error (error place.path.toText) place

def failAtEnd {α : Type} : Decoder α := fun place =>
  .error (.endOfInput place.path.toText place.offset) place

/-- What holds or fails whatever the place is. -/
def lift {α : Type} : Except CodecError α → Decoder α
  | .ok a => pure a
  | .error error => throw error

def take (n : Nat) : Decoder Bytes := fun place =>
  let taken := place.rest.take n
  if taken.length < n then failAtEnd place else .ok taken (place.advance n)

def ensure (n : Nat) : Decoder Unit := fun place =>
  if (place.rest.take n).length < n then failAtEnd place else .ok () place

/-- Reads what is one step further along the path. -/
def within {α : Type} (segment : Segment) (decoder : Decoder α) : Decoder α := do
  modify fun place => { place with path := place.path.push segment }
  let a ← decoder
  modify fun place => { place with path := place.path.pop }
  return a

theorem within_apply {α : Type} (segment : Segment) (decoder : Decoder α) (start : Place) :
    within segment decoder start = match decoder { start with path := start.path.push segment } with
      | .ok a stop => .ok a { stop with path := stop.path.pop }
      | .error error stop => .error error stop := by
  show EStateM.bind decoder _ { start with path := start.path.push segment } = _
  rw [EStateM.bind]
  cases decoder { start with path := start.path.push segment } <;> rfl

def readInt (kind : IntKind) (order : ByteOrder) : Decoder Int := do
  return kind.decode order (← take kind.size)

def readText : Decoder String := fun place =>
  let content := place.rest.takeWhile (· != 0)
  match place.rest.drop content.length with
  | [] => .error (.endOfInput place.path.toText (place.offset + place.rest.length)) place
  | _ :: _ =>
    let place := place.advance (content.length + 1)
    match Bytes.utf8? content with
    | some text => .ok text place
    | none => fail .invalidText place

/-- The number of items that a length asks for. -/
def count (length : Length) (scope : Scope) : Decoder (Option Nat) := fun place =>
  lift (length.count place.path scope) place

/-- Reads `n` items more after the given ones, which are counted by `index` and
listed from the last to the first. -/
def readTimes (read : Decoder Value) : Nat → Nat → List Value → Decoder (List Value)
  | 0, _, items => return items.reverse
  | n + 1, index, items => do
    let item ← within (.index index) read
    readTimes read n (index + 1) (item :: items)

/-- Reads items until the input ends or an item takes nothing of it. Each item
but the last takes a byte or more, so `bound` need only be as long as the input. -/
def readGreedy (read : Decoder Value) : Bytes → Nat → List Value → Decoder (List Value)
  | [], _, items => return items.reverse
  | _ :: bound, index, items => fun place =>
    match place.rest with
    | [] => .ok items.reverse place
    | _ :: _ =>
      match within (.index index) read place with
      | .error error stop => .error error stop
      | .ok item next =>
        if next.offset = place.offset then .ok (item :: items).reverse next
        else readGreedy read bound (index + 1) (item :: items) next

/-- Reads the fields of a record. The scope of each is that of the fields before it. -/
def readFields (read : ValueReader) (scope : Document → Scope) :
    List (String × FieldType) → Document → Decoder Document
  | [], document => return document
  | (name, type) :: fields, document => do
    let value ← within (.name name) (read type (scope document))
    readFields read scope fields (document.insert name value)

def packedValue (field : PackedField) (word : UInt64) : Value :=
  match field.flags with
  | some set => set.valueOf word
  | none => .int word.toInt64

def readPacked (unit : PackedUnit) : Decoder Value := do
  lift unit.check
  let words := unit.split (← take unit.size)
  return .struct (.ofList ((unit.fields.zip words).map fun (field, word) =>
    (field.name, packedValue field word)))

/-- Reads a constant. Where its type finds another value or the end of the input,
the error shows the bytes read, or all that are left if none were. -/
def readConst (expected : Value) (expectedBytes : Unit → Option Bytes) (read : Decoder Value) :
    Decoder Value :=
  fun start =>
    let mismatch (stop : Place) : EStateM.Result CodecError Place Value :=
      let actual :=
        if start.offset < stop.offset then start.rest.take (stop.offset - start.offset)
        else start.rest
      fail (Codec.otherConstant · (expectedBytes ()) (some actual)) stop
    match read start with
    | .ok found stop => if found == expected then .ok found stop else mismatch stop
    | .error (.endOfInput ..) stop => mismatch stop
    | .error error stop => .error error stop

def readBool (kind : IntKind) (order : ByteOrder) (no yes : Int) : Decoder Value := do
  let found ← readInt kind order
  if found = yes then return .bool true
  else if found = no then return .bool false
  else fail (.validation · (.notBoolean no yes found))

/-- Reads a block of `size` bytes, of which the content takes the first ones. -/
def readBlock (size : Nat) (read : Decoder Value) : Decoder Value := fun start =>
  match ensure size start with
  | .error error stop => .error error stop
  | .ok _ _ =>
    match read start with
    | .error error stop => .error error stop
    | .ok value stop =>
      let used := stop.offset - start.offset
      if size < used then fail (.validation · (.overrun used size)) stop
      else .ok value { start.advance size with path := stop.path }

end Decoder

structure ReadContext where
  codec : Codec
  /-- Reading in a record one level deeper, unless the depth limit is reached. -/
  deeper : Option ValueReader

namespace ReadContext

open Decoder

/-- Goes one record deeper, if the depth limit allows it. -/
def descend {α : Type} (ctx : ReadContext) (f : ValueReader → Decoder α) : Decoder α :=
  match ctx.deeper with
  | some read => f read
  | none =>
    let limit := ctx.codec.options.maxDepth
    fail (.overflow · (limit + 1) limit)

mutual
def read (ctx : ReadContext) : FieldType → Scope → Decoder Value
  | .int kind order, _ => return .int (Int64.ofInt (← readInt kind order))
  | .float order, _ => return .float (UInt32.ofNat (order.decode (← take 4)))
  | .text, _ => return .str (← readText)
  | .id, _ => do
    match FourCC.ofBytes? (← take 4) with
    | some code => return .id code
    | none => failAtEnd
  | .reversedId, _ => do
    match FourCC.ofBytes? (← take 4) with
    | some code => return .id code.reverse
    | none => failAtEnd
  | .bytes length, scope => do
    match ← count length scope with
    | some n => return .bytes (← take n)
    | none => return .bytes (← take (← get).rest.length)
  | .const inner expected, scope =>
    readConst expected (fun _ => inner.constantBytes ctx.codec expected) (ctx.read inner scope)
  | .bool kind order no yes, _ => readBool kind order no yes
  | .enum repr variants, scope => do
    let raw ← ctx.read repr scope
    return .enum (FieldType.variantName? variants raw) raw
  | .flags set, _ => return set.valueOf (UInt64.ofNat (set.order.decode (← take set.kind.size)))
  | .record _ fields, scope =>
    ctx.descend fun read => return .struct (← readFields read scope.child fields .empty)
  | .array length element, scope => do
    match ← count length scope with
    | some n => return .array (← readTimes (ctx.read element scope) n 0 [])
    | none => return .array (← readGreedy (ctx.read element scope) (← get).rest 0 [])
  | .greedy element, scope =>
    return .array (← readGreedy (ctx.read element scope) (← get).rest 0 [])
  | .sequence types, scope => return .array (← ctx.readSequence 0 types scope)
  | .switch on cases default, scope => do
    let discriminant ← lift (answered (scope.resolve on))
    match ctx.readCase discriminant cases scope with
    | some decoder => decoder
    | none => ctx.readDefault discriminant default scope
  | .conditional condition yes no, scope => do
    if ← lift (answered (condition scope)) then ctx.read yes scope else ctx.read no scope
  | .select alternatives, scope => ctx.readFirst none alternatives scope
  | .checked relation holds inner, scope => do
    let value ← ctx.read inner scope
    if holds value scope then return value else fail (.validation · (.check relation))
  | .padded size inner, scope => readBlock size (ctx.read inner scope)
  | .packed unit, _ => readPacked unit
  | .lazy slot, scope => ctx.descend fun read => read (ctx.codec.definitions slot) scope
  termination_by structural type => type
def readSequence (ctx : ReadContext) (index : Nat) :
    List FieldType → Scope → Decoder (List Value)
  | [], _ => return []
  | type :: types, scope => do
    let item ← within (.index index) (ctx.read type scope)
    return item :: (← ctx.readSequence (index + 1) types scope)
  termination_by structural types => types
/-- Reads a value of the type of the first case that matches, if one does. -/
def readCase (ctx : ReadContext) (discriminant : Value) :
    List (Key × FieldType) → Scope → Option (Decoder Value)
  | (key, type) :: cases, scope =>
    if key.matches discriminant then some (ctx.read type scope)
    else ctx.readCase discriminant cases scope
  | [], _ => none
  termination_by structural cases => cases
/-- Reads a value of the type for all other discriminants. -/
def readDefault (ctx : ReadContext) (discriminant : Value) :
    Option FieldType → Scope → Decoder Value
  | some type, scope => ctx.read type scope
  | none, _ => fail (.unknownVariant · discriminant.toText)
  termination_by structural default => default
/-- Reads the first alternative that goes through, each from the same place;
`last` is why the one before did not. -/
def readFirst (ctx : ReadContext) (last : Option CodecError) :
    List FieldType → Scope → Decoder Value
  | [], _ => fun start =>
    .error (last.getD (.invalidSchema (.noAlternatives start.path.toText))) start
  | type :: types, scope => fun start =>
    match ctx.read type scope start with
    | .ok value stop => .ok value stop
    | .error error stop =>
      if error.halts then .error error stop else ctx.readFirst (some error) types scope start
  termination_by structural types => types
end

end ReadContext

namespace FieldType

/-- Reads a value of a type with `levels` of records left. -/
def readAt (codec : Codec) : Nat → ValueReader
  | 0 => ReadContext.read ⟨codec, none⟩
  | levels + 1 => ReadContext.read ⟨codec, some (readAt codec levels)⟩

end FieldType

namespace Schema

/-- The document that the bytes hold, or why they hold none. -/
def decode (schema : Schema) (options : CodecOptions) (bytes : Bytes) :
    Except CodecError Document :=
  let codec := schema.codec options
  let decoder := Decoder.readFields (FieldType.readAt codec options.maxDepth)
    (Scope.root · options) schema.fields .empty
  match decoder (.start bytes) with
  | .error error _ => .error error
  | .ok document place =>
    match place.rest with
    | [] => .ok document
    | _ :: _ =>
      if options.allowTrailing then .ok document
      else .error (.trailingData place.offset place.rest.length)

/-- The first schema that decodes the bytes, by its number, and what it decodes. -/
def decodeFirst (schemas : List Schema) (options : CodecOptions) (bytes : Bytes) :
    Except CodecError (Nat × Document) :=
  go 0 none schemas
where
  go (index : Nat) (last : Option CodecError) : List Schema → Except CodecError (Nat × Document)
    | [] => .error (last.getD (.invalidSchema .noLayouts))
    | schema :: rest =>
      match schema.decode options bytes with
      | .ok document => .ok (index, document)
      | .error error => if error.halts then .error error else go (index + 1) (some error) rest

end Schema

end Mapsmith
