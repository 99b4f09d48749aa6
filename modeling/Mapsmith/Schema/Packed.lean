import Mapsmith.Value.Basic
import Mapsmith.Schema.Error

/-!
# Flags and packed units

A set of flags is an integer whose bits have names. A packed unit of one to
eight bytes holds several small fields, each with a width in bits; `split` takes
it apart and `join` puts it together.
-/

namespace Mapsmith

/-- Names for the bits of an integer field. -/
structure FlagSet where
  kind : IntKind
  order : ByteOrder
  flags : List (String × UInt64)

namespace FlagSet

/-- The names of the flags whose bits are all set. -/
def namesOf (set : FlagSet) (bits : UInt64) : List String :=
  (set.flags.filter fun flag => flag.2 != 0 && bits &&& flag.2 == flag.2).map Prod.fst

def valueOf (set : FlagSet) (bits : UInt64) : Value := .flags bits (set.namesOf bits)

end FlagSet

/-- Which field of a packed unit comes first. -/
inductive BitOrder where
  /-- The unit is big-endian, and its first field has the highest bits. -/
  | highFirst
  /-- The unit is little-endian, and its first field has the lowest bits. -/
  | lowFirst
  deriving DecidableEq, Repr

structure PackedField where
  name : String
  /-- The number of bits. -/
  width : UInt32
  flags : Option FlagSet

structure PackedUnit where
  /-- The number of bytes. -/
  size : Nat
  order : BitOrder
  fields : List PackedField

namespace PackedUnit

/-- The low `width` bits set, for a width of at most 64. -/
def mask (width : UInt32) : UInt64 :=
  if width = 0 then 0 else 0xFFFFFFFFFFFFFFFF >>> (64 - width).toUInt64

/-- Whether a word has no bit beyond the low `width` ones. -/
def fits (width : UInt32) (word : UInt64) : Bool := word &&& ~~~ mask width == 0

/-- The bits that fields cover after `total` of them, counted in a 32-bit word. The count
halts where it leaves its word. -/
def covered (total : UInt32) : List PackedField → Except CodecError UInt32
  | [] => return total
  | field :: rest =>
    if UInt32.size ≤ total.toNat + field.width.toNat then throw .halted
    else covered (total + field.width) rest

/-- Whether the fields can be told apart and fill the unit. -/
def check (unit : PackedUnit) : Except CodecError Unit :=
  if unit.size = 0 ∨ 8 < unit.size then throw (.invalidSchema (.unitSize unit.size))
  else match unit.fields.find? fun field => field.width = 0 with
    | some field => throw (.invalidSchema (.noWidth field.name))
    | none => do
      let total ← covered 0 unit.fields
      if total.toNat ≠ unit.size * 8 then
        throw (.invalidSchema (.notCovered total.toNat (unit.size * 8)))
      else return ()

/-- How far the bits of a field lie above the lowest bit of the unit, when the
fields before it take `consumed` bits. -/
def shift (unit : PackedUnit) (consumed width : UInt32) : UInt32 :=
  match unit.order with
  | .highFirst => UInt32.ofNat (unit.size * 8) - consumed - width
  | .lowFirst => consumed

def byteOrder (unit : PackedUnit) : ByteOrder :=
  match unit.order with
  | .highFirst => .big
  | .lowFirst => .little

/-- The words of the fields from `consumed` bits on. -/
def splitFrom (unit : PackedUnit) (whole : UInt64) (consumed : UInt32) :
    List PackedField → List UInt64
  | [] => []
  | field :: rest =>
    (whole >>> (unit.shift consumed field.width).toUInt64 &&& mask field.width) ::
      unit.splitFrom whole (consumed + field.width) rest

/-- The words of the fields, in the order of the fields. -/
def split (unit : PackedUnit) (bytes : Bytes) : List UInt64 :=
  unit.splitFrom (UInt64.ofNat (unit.byteOrder.decode bytes)) 0 unit.fields

/-- The bits of the fields from `consumed` bits on, each at its place. -/
def joinFrom (unit : PackedUnit) (consumed : UInt32) : List PackedField → List UInt64 → UInt64
  | field :: rest, word :: words =>
    (word &&& mask field.width) <<< (unit.shift consumed field.width).toUInt64 |||
      unit.joinFrom (consumed + field.width) rest words
  | _, _ => 0

/-- The bytes of a unit with the given words in its fields. -/
def join (unit : PackedUnit) (words : List UInt64) : Bytes :=
  unit.byteOrder.encode unit.size (unit.joinFrom 0 unit.fields words).toNat

end PackedUnit

end Mapsmith
