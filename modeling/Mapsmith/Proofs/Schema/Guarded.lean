import Mapsmith.Schema.Decode
import Mapsmith.Proofs.Schema.PackedUnit

/-!
# The codec by checked operations

The decoder, as a program that holds the whole input and a position in it, and that
computes with words. What such a program does has a domain: a slice lies in the bytes that
it is cut from, a difference is not below zero, a shift is shorter than its word, and the
position is one of the input. Here each of these is checked, and a run that leaves its
domain ends as `outOfRange`.

Where a constant does not match, the decoder runs the encoder for the bytes that show the
constant, and where a constant in that one does not match, the encoder runs itself. So the
encoder is here too, as a program that adds to what is written. Only so many of these runs
may stand within each other, and a run that needs more ends as `exhausted`.
-/

namespace Mapsmith

/-- Why a run ends without a result. -/
inductive Halt where
  /-- An operation was asked for what it is not defined for. -/
  | outOfRange
  /-- More constants were to be shown within each other than may be. -/
  | exhausted
  /-- The data was refused. -/
  | failed (error : CodecError)

/-- A program whose operations are checked. -/
abbrev Guarded (σ : Type) := EStateM Halt σ

namespace Guarded

variable {σ : Type}

-- ---------------------------------------------------------------------------
-- Checked operations
-- ---------------------------------------------------------------------------

def require (defined : Bool) : Guarded σ Unit := if defined then pure () else throw .outOfRange

def slice (bytes : Bytes) (start stop : Nat) : Guarded σ Bytes := do
  require (start ≤ stop && stop ≤ bytes.length)
  return (bytes.drop start).take (stop - start)

def byteAt (bytes : Bytes) (i : Nat) : Guarded σ UInt8 :=
  match bytes[i]? with
  | some b => pure b
  | none => throw .outOfRange

def subtract (a b : Nat) : Guarded σ Nat := do
  require (b ≤ a)
  return a - b

def subtractWord (a b : UInt32) : Guarded σ UInt32 := do
  require (b ≤ a)
  return a - b

def addWord (a b : UInt32) : Guarded σ UInt32 := do
  require (a.toNat + b.toNat < 2 ^ 32)
  return a + b

def shiftRight (word : UInt64) (n : UInt32) : Guarded σ UInt64 := do
  require (n < 64)
  return word >>> n.toUInt64

def shiftLeft (word : UInt64) (n : UInt32) : Guarded σ UInt64 := do
  require (n < 64)
  return word <<< n.toUInt64

/-- As many zeros as can be counted by a signed word. -/
def zeros (n : Nat) : Guarded σ Bytes := do
  require (n < 2 ^ 63)
  return List.replicate n 0

def lift {α : Type} : Except CodecError α → Guarded σ α
  | .ok a => pure a
  | .error error => throw (.failed error)

/-- The outcome of a run by itself. -/
def outcome {α : Type} : Except Halt α → Guarded σ α
  | .ok a => pure a
  | .error halt => throw halt

theorem lift_bind (x : Except CodecError α) (f : α → Except CodecError β) :
    (lift (x >>= f) : Guarded σ β) = lift x >>= fun a => lift (f a) := by
  cases x <;> rfl

theorem slice_of_le (h : start ≤ stop) (hle : stop ≤ bytes.length) :
    (slice bytes start stop : Guarded σ Bytes) = pure ((bytes.drop start).take (stop - start)) := by
  simp [slice, require, h, hle]

theorem subtract_of_le (h : b ≤ a) : (subtract a b : Guarded σ Nat) = pure (a - b) := by
  simp [subtract, require, h]

theorem subtractWord_of_le {a b : UInt32} (h : b.toNat ≤ a.toNat) :
    (subtractWord a b : Guarded σ UInt32) = pure (a - b) := by
  simp [subtractWord, require, UInt32.le_iff_toNat_le, h]

theorem addWord_of_lt {a b : UInt32} (h : a.toNat + b.toNat < 2 ^ 32) :
    (addWord a b : Guarded σ UInt32) = pure (a + b) := by
  rw [addWord, require, if_pos (decide_eq_true h)]
  rfl

theorem shiftRight_of_lt {n : UInt32} (h : n.toNat < 64) (word : UInt64) :
    (shiftRight word n : Guarded σ UInt64) = pure (word >>> n.toUInt64) := by
  simp [shiftRight, require, UInt32.lt_iff_toNat_lt, h]

theorem shiftLeft_of_lt {n : UInt32} (h : n.toNat < 64) (word : UInt64) :
    (shiftLeft word n : Guarded σ UInt64) = pure (word <<< n.toUInt64) := by
  simp [shiftLeft, require, UInt32.lt_iff_toNat_lt, h]

theorem zeros_of_lt (h : n < 2 ^ 63) : (zeros n : Guarded σ Bytes) = pure (List.replicate n 0) := by
  rw [zeros, require, if_pos (decide_eq_true h)]
  rfl

-- ---------------------------------------------------------------------------
-- Packed units
-- ---------------------------------------------------------------------------

def mask (width : UInt32) : Guarded σ UInt64 := do
  if width = 0 then return 0
  else shiftRight 0xFFFFFFFFFFFFFFFF (← subtractWord 64 width)

def fits (width : UInt32) (word : UInt64) : Guarded σ Bool :=
  return word &&& ~~~ (← mask width) == 0

def covered : UInt32 → List PackedField → Guarded σ UInt32
  | total, [] => return total
  | total, field :: fields => do covered (← addWord total field.width) fields

def check (unit : PackedUnit) : Guarded σ Unit := do
  if unit.size = 0 ∨ 8 < unit.size then throw (.failed (.invalidSchema (.unitSize unit.size)))
  else match unit.fields.find? fun field => field.width = 0 with
    | some field => throw (.failed (.invalidSchema (.noWidth field.name)))
    | none => do
      let total ← covered 0 unit.fields
      if total.toNat ≠ unit.size * 8 then
        throw (.failed (.invalidSchema (.notCovered total.toNat (unit.size * 8))))
      else return ()

def shift (unit : PackedUnit) (consumed width : UInt32) : Guarded σ UInt32 :=
  match unit.order with
  | .highFirst => do subtractWord (← subtractWord (UInt32.ofNat (unit.size * 8)) consumed) width
  | .lowFirst => return consumed

def splitFrom (unit : PackedUnit) (whole : UInt64) : UInt32 → List PackedField →
    Guarded σ (List UInt64)
  | _, [] => return []
  | consumed, field :: fields => do
    let low ← shiftRight whole (← shift unit consumed field.width)
    let word := low &&& (← mask field.width)
    let next ← addWord consumed field.width
    return word :: (← splitFrom unit whole next fields)

def joinFrom (unit : PackedUnit) : UInt32 → List PackedField → List UInt64 → Guarded σ UInt64
  | consumed, field :: fields, word :: words => do
    let low := word &&& (← mask field.width)
    let placed ← shiftLeft low (← shift unit consumed field.width)
    let next ← addWord consumed field.width
    return placed ||| (← joinFrom unit next fields words)
  | _, _, _ => return 0

/-- The number that the first `size` bytes hold, at most eight of them. -/
def readWord (order : ByteOrder) (bytes : Bytes) (size : Nat) : Guarded σ UInt64 := do
  require (0 < size && size ≤ 8 && size ≤ bytes.length)
  return UInt64.ofNat (order.decode (bytes.take size))

def writeWord (order : ByteOrder) (whole : UInt64) (size : Nat) : Guarded σ Bytes := do
  require (0 < size && size ≤ 8 && whole.toNat < 2 ^ (size * 8))
  return order.encode size whole.toNat

theorem toNat_mask (kind : IntKind) :
    (PackedUnit.mask (UInt32.ofNat kind.width)).toNat = 2 ^ kind.width - 1 := by
  cases kind <;> decide

theorem width_le (kind : IntKind) : (UInt32.ofNat kind.width).toNat ≤ 64 := by cases kind <;> decide

theorem mask_eq (h : width.toNat ≤ 64) :
    (mask width : Guarded σ UInt64) = pure (PackedUnit.mask width) := by
  unfold mask PackedUnit.mask
  split
  · rfl
  · rename_i hw
    have hpos := PackedUnit.toNat_ne_zero hw
    have hshift : (64 - width).toNat < 64 := by
      rw [UInt32.toNat_sub_of_le _ _ (UInt32.le_iff_toNat_le.mpr h)]
      simp only [UInt32.reduceToNat]
      omega
    rw [subtractWord_of_le h, pure_bind, shiftRight_of_lt hshift]

theorem fits_eq (h : width.toNat ≤ 64) (word : UInt64) :
    (fits width word : Guarded σ Bool) = pure (PackedUnit.fits width word) := by
  rw [fits, mask_eq h, pure_bind]
  rfl

theorem covered_eq {fields : List PackedField} (h : total.toNat + PackedUnit.bits fields < 2 ^ 32) :
    (covered total fields : Guarded σ UInt32) = pure (PackedUnit.total total fields) := by
  induction fields generalizing total with
  | nil => rfl
  | cons field fields ih =>
    rw [PackedUnit.bits_cons] at h
    have hadd : (total + field.width).toNat = total.toNat + field.width.toNat :=
      PackedUnit.toNat_add (by omega)
    rw [covered, addWord_of_lt (by omega), pure_bind, ih (by omega)]
    rfl

theorem check_eq {unit : PackedUnit} (h : PackedUnit.bits unit.fields < 2 ^ 32) :
    (check unit : Guarded σ Unit) = lift unit.check := by
  have hzero : (0 : UInt32).toNat + PackedUnit.bits unit.fields < 2 ^ 32 := by simpa using h
  unfold check PackedUnit.check
  split
  · rfl
  · generalize (unit.fields.find? fun field => field.width = 0) = zero?
    cases zero? with
    | some field => rfl
    | none =>
      dsimp only
      rw [covered_eq hzero, PackedUnit.covered_eq, if_pos hzero, pure_bind]
      show _ = lift (if (PackedUnit.total 0 unit.fields).toNat ≠ unit.size * 8 then _ else _)
      split <;> rfl

theorem shift_eq {unit : PackedUnit} (hsize : unit.size ≤ 8)
    (hle : consumed.toNat + width.toNat ≤ unit.size * 8) :
    (shift unit consumed width : Guarded σ UInt32) = pure (unit.shift consumed width) := by
  unfold shift PackedUnit.shift
  cases unit.order with
  | lowFirst => rfl
  | highFirst =>
    have htotal : (UInt32.ofNat (unit.size * 8)).toNat = unit.size * 8 := by
      rw [UInt32.toNat_ofNat', Nat.mod_eq_of_lt (by omega)]
    have hrest : (UInt32.ofNat (unit.size * 8) - consumed).toNat =
        unit.size * 8 - consumed.toNat := by
      rw [UInt32.toNat_sub_of_le _ _ (UInt32.le_iff_toNat_le.mpr (by omega)), htotal]
    dsimp only
    rw [subtractWord_of_le (by omega), pure_bind, subtractWord_of_le (by omega)]

section

variable {unit : PackedUnit} {fields : List PackedField}

theorem splitFrom_eq (hsize : unit.size ≤ 8) (whole : UInt64)
    (hw : ∀ field ∈ fields, field.width ≠ 0)
    (hle : consumed.toNat + PackedUnit.bits fields ≤ unit.size * 8) :
    (splitFrom unit whole consumed fields : Guarded σ (List UInt64)) =
      pure (unit.splitFrom whole consumed fields) := by
  induction fields generalizing consumed with
  | nil => rfl
  | cons field fields ih =>
    obtain ⟨hfield, hfields⟩ := List.forall_mem_cons.mp hw
    obtain ⟨hfits, hlt, -, hnext⟩ := PackedUnit.within_cons hsize hfield hle
    rw [splitFrom, shift_eq hsize hfits, pure_bind, shiftRight_of_lt hlt, pure_bind,
      mask_eq (by omega), pure_bind, addWord_of_lt (by omega), pure_bind, ih hfields hnext,
        pure_bind]
    rfl

theorem joinFrom_eq (hsize : unit.size ≤ 8) (hw : ∀ field ∈ fields, field.width ≠ 0)
    (hle : consumed.toNat + PackedUnit.bits fields ≤ unit.size * 8) (words : List UInt64) :
    (joinFrom unit consumed fields words : Guarded σ UInt64) =
      pure (unit.joinFrom consumed fields words) := by
  induction fields generalizing consumed words with
  | nil => rfl
  | cons field fields ih =>
    cases words with
    | nil => rfl
    | cons word words =>
      obtain ⟨hfield, hfields⟩ := List.forall_mem_cons.mp hw
      obtain ⟨hfits, hlt, -, hnext⟩ := PackedUnit.within_cons hsize hfield hle
      rw [joinFrom, mask_eq (by omega), pure_bind, shift_eq hsize hfits, pure_bind,
        shiftLeft_of_lt hlt, pure_bind, addWord_of_lt (by omega), pure_bind, ih hfields hnext words,
        pure_bind]
      rfl

end

end Guarded

-- ---------------------------------------------------------------------------
-- Encoding
-- ---------------------------------------------------------------------------

abbrev GuardedEncoder := Guarded Bytes

abbrev GuardedWriter := FieldPath → FieldType → Value → Scope → GuardedEncoder Unit

namespace GuardedEncoder

open Guarded

def put (part : Except CodecError Bytes) : GuardedEncoder Unit := do
  let part ← lift part
  modify fun written => written ++ part

def writeFlags (path : FieldPath) (set : FlagSet) (bits : UInt64) : GuardedEncoder Unit := do
  if ← fits (UInt32.ofNat set.kind.width) bits then
    put (.ok (set.order.encode set.kind.size bits.toNat))
  else put (.error (.roundTrip path.toText (.flagsTooWide bits.toNat set.kind.width)))

def packedWord (path : FieldPath) (field : PackedField) (value : Value) :
    GuardedEncoder UInt64 := do
  let word ← lift (match value with
    | .flags bits _ => pure bits
    | other => do
      let n ← Codec.expect path "an integer" other other.asInt?
      if n < 0 then throw (.roundTrip path.toText (.negative n))
      else pure (UInt64.ofNat n.toNat))
  if ← fits field.width word then return word
  else throw (.failed (.roundTrip path.toText (.tooWide word.toNat field.width.toNat)))

/-- The word of a field, from what stands under its name. -/
def packedPart (path : FieldPath) (document : Document) (field : PackedField) :
    GuardedEncoder UInt64 :=
  let path := path.push (.name field.name)
  match document.get? field.name with
  | some part => packedWord path field part
  | none => throw (.failed (.missingField path.toText))

def packedWords (path : FieldPath) (document : Document) : List PackedField →
    GuardedEncoder (List UInt64)
  | [] => return []
  | field :: fields => do
    let word ← packedPart path document field
    return word :: (← packedWords path document fields)

def writePacked (path : FieldPath) (unit : PackedUnit) (value : Value) : GuardedEncoder Unit := do
  check unit
  let document ← lift (Codec.expect path "a struct" value value.asStruct?)
  let words ← packedWords path document unit.fields
  let whole ← joinFrom unit 0 unit.fields words
  put (.ok (← writeWord unit.byteOrder whole unit.size))

def writeAll {α : Type} (write : α → GuardedEncoder Unit) : List α → GuardedEncoder Unit
  | [] => return ()
  | a :: as => do
    write a
    writeAll write as

/-- Writes the content of a block of `size` bytes, and zeros after it. -/
def writeBlock (path : FieldPath) (size : Nat) (write : GuardedEncoder Unit) :
    GuardedEncoder Unit := do
  let start := (← get).length
  write
  let used ← subtract (← get).length start
  if size < used then put (.error (.roundTrip path.toText (.blockTooSmall used size)))
  else put (.ok (← zeros (← subtract size used)))

/-- A field that is absent: a constant is written without its value, and a block around one
is filled if there is room in it. -/
def writeMissing (write : GuardedWriter) (path : FieldPath) (scope : Scope) :
    FieldType → GuardedEncoder Unit
  | .const inner value => write path inner value scope
  | .padded size (.const inner value) => do
    let start := (← get).length
    write path inner value scope
    let used ← subtract (← get).length start
    put (.ok (← zeros (size - used)))
  | _ => put (.error (.missingField path.toText))

def writeFields (write : GuardedWriter) (path : FieldPath) (scope : Scope)
    (fields : List (String × FieldType)) : GuardedEncoder Unit :=
  match scope.current.names.find? fun name => !(fields.any fun field => field.1 == name) with
  | some name => put (.error (.unknownField (path.push (.name name)).toText))
  | none => writeAll (fun field =>
      let path := path.push (.name field.1)
      match scope.current.get? field.1 with
      | some value => write path field.2 value scope
      | none => writeMissing write path scope field.2) fields

end GuardedEncoder

structure GuardedWriteContext where
  codec : Codec
  /-- The bytes that show a constant. -/
  shown : FieldType → Value → Except Halt Bytes
  deeper : Option GuardedWriter

namespace GuardedWriteContext

open Guarded GuardedEncoder

def descend (ctx : GuardedWriteContext) (path : FieldPath)
    (f : GuardedWriter → GuardedEncoder Unit) :
    GuardedEncoder Unit :=
  match ctx.deeper with
  | some write => f write
  | none =>
    let limit := ctx.codec.options.maxDepth
    put (.error (.overflow path.toText (limit + 1) limit))

/-- Writes a value without any operation that must be checked. -/
def plain (ctx : GuardedWriteContext) (path : FieldPath) (type : FieldType) (value : Value)
    (scope : Scope) :
    GuardedEncoder Unit :=
  put (WriteContext.write ⟨ctx.codec, fun _ _ => none, none⟩ path type value scope)

def writeItems (path : FieldPath) (write : FieldPath → Value → GuardedEncoder Unit)
    (items : List Value) :
    GuardedEncoder Unit :=
  writeAll (fun item => write (path.push (.index item.2)) item.1) items.zipIdx

mutual
def write (ctx : GuardedWriteContext) (path : FieldPath) : FieldType → Value → Scope →
    GuardedEncoder Unit
  | .int kind order, value, scope => ctx.plain path (.int kind order) value scope
  | .float order, value, scope => ctx.plain path (.float order) value scope
  | .text, value, scope => ctx.plain path .text value scope
  | .id, value, scope => ctx.plain path .id value scope
  | .reversedId, value, scope => ctx.plain path .reversedId value scope
  | .bytes length, value, scope => ctx.plain path (.bytes length) value scope
  | .bool kind order no yes, value, scope => ctx.plain path (.bool kind order no yes) value scope
  | .const inner expected, value, scope =>
    if value == expected then ctx.write path inner expected scope
    else do
      let shown ← outcome (ctx.shown inner expected)
      let actual ← outcome (ctx.shown inner value)
      put (.error (.formatMismatch path.toText shown actual))
  | .enum repr variants, value, scope => ctx.write path repr (Codec.rawValue variants value) scope
  | .flags set, value, _ =>
    match value with
    | .flags bits _ => writeFlags path set bits
    | .int n =>
      if 0 ≤ n.toInt then writeFlags path set (UInt64.ofNat n.toInt.toNat)
      else put (Codec.mismatch path "flags" value)
    | other => put (Codec.mismatch path "flags" other)
  | .record _ fields, value, scope => do
    let document ← lift (Codec.expect path "a struct" value value.asStruct?)
    ctx.descend path fun write => writeFields write path (scope.child document) fields
  | .array length element, value, scope => do
    let items ← lift (Codec.expect path "an array" value value.asArray?)
    lift (Codec.checkCount path length scope items.length "elements")
    writeItems path (fun path item => ctx.write path element item scope) items
  | .greedy element, value, scope => do
    let items ← lift (Codec.expect path "an array" value value.asArray?)
    writeItems path (fun path item => ctx.write path element item scope) items
  | .sequence types, value, scope => do
    let items ← lift (Codec.expect path "an array" value value.asArray?)
    if items.length ≠ types.length then
      put (.error (.validation path.toText (.wrongArity items.length types.length)))
    else ctx.writeSequence path 0 types items scope
  | .switch on cases default, value, scope => do
    let discriminant ← lift (answered (scope.resolve on))
    match ctx.writeCase path discriminant cases value scope with
    | some run => run
    | none => ctx.writeDefault path discriminant default value scope
  | .conditional condition yes no, value, scope => do
    if ← lift (answered (condition scope)) then ctx.write path yes value scope
    else ctx.write path no value scope
  | .select alternatives, value, scope => ctx.writeFirst path none alternatives value scope
  | .checked relation holds inner, value, scope =>
    if holds value scope then ctx.write path inner value scope
    else put (.error (.validation path.toText (.check relation)))
  | .padded size inner, value, scope => writeBlock path size (ctx.write path inner value scope)
  | .packed unit, value, _ => writePacked path unit value
  | .lazy slot, value, scope =>
    ctx.descend path fun write => write path (ctx.codec.definitions slot) value scope
  termination_by structural type => type
def writeSequence (ctx : GuardedWriteContext) (path : FieldPath) (index : Nat) :
    List FieldType → List Value → Scope → GuardedEncoder Unit
  | type :: types, item :: items, scope => do
    ctx.write (path.push (.index index)) type item scope
    ctx.writeSequence path (index + 1) types items scope
  | _, _, _ => return ()
  termination_by structural types => types
def writeCase (ctx : GuardedWriteContext) (path : FieldPath) (discriminant : Value) :
    List (Key × FieldType) → Value → Scope → Option (GuardedEncoder Unit)
  | (key, type) :: cases, value, scope =>
    if key.matches discriminant then some (ctx.write path type value scope)
    else ctx.writeCase path discriminant cases value scope
  | [], _, _ => none
  termination_by structural cases => cases
def writeDefault (ctx : GuardedWriteContext) (path : FieldPath) (discriminant : Value) :
    Option FieldType → Value → Scope → GuardedEncoder Unit
  | some type, value, scope => ctx.write path type value scope
  | none, _, _ => put (.error (.unknownVariant path.toText discriminant.toText))
  termination_by structural default => default
/-- Writes the value with the first alternative that takes it, and takes back what those
before it have written. -/
def writeFirst (ctx : GuardedWriteContext) (path : FieldPath) (last : Option CodecError) :
    List FieldType → Value → Scope → GuardedEncoder Unit
  | [], _, _ => put (.error (last.getD (.invalidSchema (.noAlternatives path.toText))))
  | type :: types, value, scope => fun written =>
    match ctx.write path type value scope written with
    | .error (.failed error) more =>
      if error.halts then .error (.failed error) more
      else ctx.writeFirst path (some error) types value scope (more.take written.length)
    | result => result
  termination_by structural types => types
end

end GuardedWriteContext

namespace FieldType

/-- Writes a value of a type with checked operations and `levels` of records left. -/
def writeGuarded (codec : Codec) (shown : FieldType → Value → Except Halt Bytes) : Nat →
    GuardedWriter
  | 0 => GuardedWriteContext.write ⟨codec, shown, none⟩
  | levels + 1 => GuardedWriteContext.write ⟨codec, shown, some (writeGuarded codec shown levels)⟩

/-- The bytes that show a constant, with at most `shows` runs within each other. -/
def shownGuardedAt (codec : Codec) : Nat → FieldType → Value → Except Halt Bytes
  | 0 => fun _ _ => .error .exhausted
  | shows + 1 => fun type value =>
    match value with
    | .bytes content => .ok content
    | value =>
      let scope := Scope.root Document.empty codec.options
      match writeGuarded codec (shownGuardedAt codec shows) codec.options.maxDepth FieldPath.root
        type value scope [] with
      | .ok () written => .ok written
      | .error (.failed error) _ => if error.halts then .error (.failed error) else .ok []
      | .error halt _ => .error halt

/-- The bytes that show a constant, with at most `shows` runs within each other, and no more than
the codec has room for. -/
def shownGuarded (codec : Codec) (shows : Nat) : FieldType → Value → Except Halt Bytes :=
  shownGuardedAt codec (min shows reportLimit)

end FieldType

-- ---------------------------------------------------------------------------
-- Decoding
-- ---------------------------------------------------------------------------

/-- How far reading has come in the input. -/
structure Cursor where
  position : Nat
  path : FieldPath

abbrev GuardedDecoder := Guarded Cursor

abbrev GuardedReader := FieldType → Scope → GuardedDecoder Value

namespace GuardedDecoder

open Guarded

def position : GuardedDecoder Nat := return (← get).position

def moveTo (input : Bytes) (position : Nat) : GuardedDecoder Unit := do
  require (position ≤ input.length)
  modify fun cursor => { cursor with position }

/-- Goes back to an earlier position, and cuts the path to the length that it had there. -/
def rewind (input : Bytes) (start : Cursor) : GuardedDecoder Unit := do
  moveTo input start.position
  modify fun cursor => { cursor with path := cursor.path.truncate start.path.depth }

def fail {α : Type} (error : String → CodecError) : GuardedDecoder α := fun cursor =>
  .error (.failed (error cursor.path.toText)) cursor

def remaining (input : Bytes) : GuardedDecoder Nat := return input.length - (← position)

def ensure (input : Bytes) (n : Nat) : GuardedDecoder Unit := do
  if (← remaining input) < n then
    let start ← position
    fail (.endOfInput · start)

def take (input : Bytes) (n : Nat) : GuardedDecoder Bytes := do
  ensure input n
  let start ← position
  moveTo input (start + n)
  slice input start (start + n)

def within {α : Type} (segment : Segment) (run : GuardedDecoder α) : GuardedDecoder α := do
  modify fun cursor => { cursor with path := cursor.path.push segment }
  let a ← run
  modify fun cursor => { cursor with path := cursor.path.pop }
  return a

def readInt (input : Bytes) (kind : IntKind) (order : ByteOrder) : GuardedDecoder Int := do
  return kind.decode order (← take input kind.size)

def textOf (content : Bytes) : GuardedDecoder String :=
  match Bytes.utf8? content with
  | some text => return text
  | none => fail .invalidText

def readText (input : Bytes) : GuardedDecoder String := do
  let start ← position
  let rest ← slice input (min start input.length) input.length
  let content := rest.takeWhile (· != 0)
  if rest.contains 0 then
    moveTo input (start + (content.length + 1))
    textOf content
  else fail (.endOfInput · input.length)

def readId (input : Bytes) (value : FourCC → Value) : GuardedDecoder Value := do
  let bytes ← take input 4
  return value ⟨← byteAt bytes 0, ← byteAt bytes 1, ← byteAt bytes 2, ← byteAt bytes 3⟩

def count (length : Length) (scope : Scope) : GuardedDecoder (Option Nat) := fun cursor =>
  lift (length.count cursor.path scope) cursor

def readTimes (read : GuardedDecoder Value) : Nat → Nat → List Value → GuardedDecoder (List Value)
  | 0, _, items => return items.reverse
  | n + 1, index, items => do
    let item ← within (.index index) read
    readTimes read n (index + 1) (item :: items)

/-- Reads items until the input ends or an item takes nothing of it. A loop that goes on
after `bound` items is out of range too. -/
def readGreedy (input : Bytes) (read : GuardedDecoder Value) :
    Nat → Nat → List Value → GuardedDecoder (List Value)
  | 0, _, items => do
    require ((← remaining input) = 0)
    return items.reverse
  | bound + 1, index, items => do
    if (← remaining input) = 0 then return items.reverse
    else
      let before ← position
      let item ← within (.index index) read
      if (← position) = before then return (item :: items).reverse
      else readGreedy input read bound (index + 1) (item :: items)

def readFields (read : GuardedReader) (scope : Document → Scope) :
    List (String × FieldType) → Document → GuardedDecoder Document
  | [], document => return document
  | (name, type) :: fields, document => do
    let value ← within (.name name) (read type (scope document))
    readFields read scope fields (document.insert name value)

/-- The bytes from `start` to where the position is now, or to the end of the input if it
has not moved on. -/
def found (input : Bytes) (start : Nat) : GuardedDecoder Bytes := do
  let stop := max (← position) start
  if start < stop then slice input start stop
  else slice input (min start input.length) input.length

/-- Reads a constant. One that does not match is shown by `shown`. -/
def readConst (input : Bytes) (expected : Value) (shown : Except Halt Bytes)
    (read : GuardedDecoder Value) :
    GuardedDecoder Value :=
  fun start =>
    let mismatch : GuardedDecoder Value := do
      let actual ← found input start.position
      let expectedBytes ← outcome shown
      fail (.formatMismatch · expectedBytes actual)
    match read start with
    | .ok found stop => if found == expected then .ok found stop else mismatch stop
    | .error (.failed (.endOfInput ..)) stop => mismatch stop
    | .error halt stop => .error halt stop

def readBool (input : Bytes) (kind : IntKind) (order : ByteOrder) (no yes : Int) :
    GuardedDecoder Value := do
  let found ← readInt input kind order
  if found = yes then return .bool true
  else if found = no then return .bool false
  else fail (.validation · (.notBoolean no yes found))

def readBlock (input : Bytes) (size : Nat) (read : GuardedDecoder Value) :
    GuardedDecoder Value := do
  ensure input size
  let start ← position
  let value ← read
  let used ← subtract (← position) start
  if size < used then fail (.validation · (.overrun used size))
  else
    moveTo input (start + size)
    return value

def readPacked (input : Bytes) (unit : PackedUnit) : GuardedDecoder Value := do
  check unit
  let bytes ← take input unit.size
  let whole ← readWord unit.byteOrder bytes unit.size
  let words ← splitFrom unit whole 0 unit.fields
  return .struct (.ofList ((unit.fields.zip words).map fun (field, word) =>
    (field.name, Decoder.packedValue field word)))

def readFlags (input : Bytes) (set : FlagSet) : GuardedDecoder Value := do
  let raw := set.kind.decode set.order (← take input set.kind.size)
  return set.valueOf (UInt64.ofInt raw &&& (← mask (UInt32.ofNat set.kind.width)))

end GuardedDecoder

structure GuardedReadContext where
  codec : Codec
  input : Bytes
  /-- The bytes that show a constant. -/
  shown : FieldType → Value → Except Halt Bytes
  deeper : Option GuardedReader

namespace GuardedReadContext

open Guarded GuardedDecoder

def descend {α : Type} (ctx : GuardedReadContext) (f : GuardedReader → GuardedDecoder α) :
    GuardedDecoder α :=
  match ctx.deeper with
  | some read => f read
  | none =>
    let limit := ctx.codec.options.maxDepth
    fail (.overflow · (limit + 1) limit)

mutual
def read (ctx : GuardedReadContext) : FieldType → Scope → GuardedDecoder Value
  | .int kind order, _ => return .int (Int64.ofInt (← readInt ctx.input kind order))
  | .float order, _ => return .float (UInt32.ofNat (order.decode (← take ctx.input 4)))
  | .text, _ => return .str (← readText ctx.input)
  | .id, _ => readId ctx.input .id
  | .reversedId, _ => readId ctx.input fun code => .id code.reverse
  | .bytes length, scope => do
    match ← count length scope with
    | some n => return .bytes (← take ctx.input n)
    | none => return .bytes (← take ctx.input (← remaining ctx.input))
  | .const inner expected, scope =>
    readConst ctx.input expected (ctx.shown inner expected) (ctx.read inner scope)
  | .bool kind order no yes, _ => readBool ctx.input kind order no yes
  | .enum repr variants, scope => do
    let raw ← ctx.read repr scope
    return .enum (FieldType.variantName? variants raw) raw
  | .flags set, _ => readFlags ctx.input set
  | .record _ fields, scope =>
    ctx.descend fun read => return .struct (← readFields read scope.child fields .empty)
  | .array length element, scope => do
    match ← count length scope with
    | some n => return .array (← readTimes (ctx.read element scope) n 0 [])
    | none =>
      return .array (← readGreedy ctx.input (ctx.read element scope) (← remaining ctx.input) 0 [])
  | .greedy element, scope =>
    return .array (← readGreedy ctx.input (ctx.read element scope) (← remaining ctx.input) 0 [])
  | .sequence types, scope => return .array (← ctx.readSequence 0 types scope)
  | .switch on cases default, scope => do
    let discriminant ← lift (answered (scope.resolve on))
    match ctx.readCase discriminant cases scope with
    | some run => run
    | none => ctx.readDefault discriminant default scope
  | .conditional condition yes no, scope => do
    if ← lift (answered (condition scope)) then ctx.read yes scope else ctx.read no scope
  | .select alternatives, scope => ctx.readFirst none alternatives scope
  | .checked relation holds inner, scope => do
    let value ← ctx.read inner scope
    if holds value scope then return value else fail (.validation · (.check relation))
  | .padded size inner, scope => readBlock ctx.input size (ctx.read inner scope)
  | .packed unit, _ => readPacked ctx.input unit
  | .lazy slot, scope => ctx.descend fun read => read (ctx.codec.definitions slot) scope
  termination_by structural type => type
def readSequence (ctx : GuardedReadContext) (index : Nat) :
    List FieldType → Scope → GuardedDecoder (List Value)
  | [], _ => return []
  | type :: types, scope => do
    let item ← within (.index index) (ctx.read type scope)
    return item :: (← ctx.readSequence (index + 1) types scope)
  termination_by structural types => types
def readCase (ctx : GuardedReadContext) (discriminant : Value) :
    List (Key × FieldType) → Scope → Option (GuardedDecoder Value)
  | (key, type) :: cases, scope =>
    if key.matches discriminant then some (ctx.read type scope)
    else ctx.readCase discriminant cases scope
  | [], _ => none
  termination_by structural cases => cases
def readDefault (ctx : GuardedReadContext) (discriminant : Value) :
    Option FieldType → Scope → GuardedDecoder Value
  | some type, scope => ctx.read type scope
  | none, _ => fail (.unknownVariant · discriminant.toText)
  termination_by structural default => default
def readFirst (ctx : GuardedReadContext) (last : Option CodecError) :
    List FieldType → Scope → GuardedDecoder Value
  | [], _ => fun start =>
    .error (.failed (last.getD (.invalidSchema (.noAlternatives start.path.toText)))) start
  | type :: types, scope => fun start =>
    match ctx.read type scope start with
    | .error (.failed error) stop =>
      if error.halts then .error (.failed error) stop
      else (rewind ctx.input start >>= fun _ => ctx.readFirst (some error) types scope) stop
    | result => result
  termination_by structural types => types
end

end GuardedReadContext

namespace FieldType

/-- Reads a value of a type with checked operations and `levels` of records left. -/
def readGuarded (codec : Codec) (input : Bytes) (shown : FieldType → Value → Except Halt Bytes) :
    Nat → GuardedReader
  | 0 => GuardedReadContext.read ⟨codec, input, shown, none⟩
  | levels + 1 =>
    GuardedReadContext.read ⟨codec, input, shown, some (readGuarded codec input shown levels)⟩

end FieldType

/-- The document that the bytes hold, by checked operations and with at most `shows` runs that
show a constant within each other. -/
def Schema.decodeGuarded (schema : Schema) (shows : Nat) (options : CodecOptions) (bytes : Bytes) :
    Except Halt Document :=
  let codec := schema.codec options
  let reader :=
    FieldType.readGuarded codec bytes (FieldType.shownGuarded codec shows) options.maxDepth
  match GuardedDecoder.readFields reader (Scope.root · options) schema.fields .empty ⟨0, .root⟩ with
  | .error halt _ => .error halt
  | .ok document cursor =>
    let remaining := bytes.length - cursor.position
    if remaining = 0 ∨ options.allowTrailing then .ok document
    else .error (.failed (.trailingData cursor.position remaining))

end Mapsmith
