import Mapsmith.Text.Bytes

/-!
# Words

Integers of one, two or four bytes in either byte order. `IntKind.decode` reads
back what `IntKind.encode` wrote for every integer in range
(`IntKind.decode_encode`), and every run of bytes of the right length is written
back as it was (`IntKind.encode_decode`).
-/

namespace Mapsmith

/-- Which end of a word comes first. -/
inductive ByteOrder where
  | little
  | big
  deriving DecidableEq, Repr

namespace ByteOrder

/-- The low `size` bytes of a number, the lowest first. -/
def lowFirst : Nat → Nat → Bytes
  | 0, _ => []
  | size + 1, n => UInt8.ofNat n :: lowFirst size (n / 256)

/-- The number whose bytes are given with the lowest first. -/
def ofLowFirst : Bytes → Nat
  | [] => 0
  | b :: rest => b.toNat + 256 * ofLowFirst rest

def encode (order : ByteOrder) (size n : Nat) : Bytes :=
  match order with
  | .little => lowFirst size n
  | .big => (lowFirst size n).reverse

def decode (order : ByteOrder) (bytes : Bytes) : Nat :=
  match order with
  | .little => ofLowFirst bytes
  | .big => ofLowFirst bytes.reverse

@[simp] theorem length_lowFirst (size n : Nat) : (lowFirst size n).length = size := by
  induction size generalizing n with
  | zero => rfl
  | succ size ih => simp [lowFirst, ih]

@[simp] theorem length_encode (order : ByteOrder) (size n : Nat) :
    (order.encode size n).length = size := by
  cases order <;> simp [encode]

theorem ofLowFirst_lowFirst (size n : Nat) :
    ofLowFirst (lowFirst size n) = n % Nat.pow 256 size := by
  induction size generalizing n with
  | zero => simp [lowFirst, ofLowFirst, Nat.mod_one]
  | succ size ih =>
    have hpow : 256 ^ (size + 1) = 256 * 256 ^ size := by rw [Nat.pow_succ, Nat.mul_comm]
    simp only [lowFirst, ofLowFirst, ih, UInt8.toNat_ofNat', Nat.pow_eq, hpow, Nat.mod_mul]

theorem lowFirst_ofLowFirst (bytes : Bytes) : lowFirst bytes.length (ofLowFirst bytes) = bytes := by
  induction bytes with
  | nil => rfl
  | cons b rest ih =>
    have hb : b.toNat < 256 := b.toNat_lt
    have hd : (b.toNat + 256 * ofLowFirst rest) / 256 = ofLowFirst rest := by omega
    have hm : UInt8.ofNat (b.toNat + 256 * ofLowFirst rest) = b := by
      apply UInt8.toNat.inj
      rw [UInt8.toNat_ofNat']
      omega
    simp only [List.length_cons, lowFirst, ofLowFirst, hd, hm, ih]

theorem ofLowFirst_lt (bytes : Bytes) : ofLowFirst bytes < Nat.pow 256 bytes.length := by
  induction bytes with
  | nil => simp [ofLowFirst]
  | cons b rest ih =>
    have hb : b.toNat < 256 := b.toNat_lt
    simp only [Nat.pow_eq] at ih
    simp only [ofLowFirst, List.length_cons, Nat.pow_eq, Nat.pow_succ]
    omega

theorem decode_encode (order : ByteOrder) (size n : Nat) :
    order.decode (order.encode size n) = n % Nat.pow 256 size := by
  cases order <;> simp [encode, decode, ofLowFirst_lowFirst]

theorem encode_decode (order : ByteOrder) (bytes : Bytes) :
    order.encode bytes.length (order.decode bytes) = bytes := by
  cases order with
  | little => exact lowFirst_ofLowFirst bytes
  | big =>
    have h := lowFirst_ofLowFirst bytes.reverse
    rw [List.length_reverse] at h
    simp [encode, decode, h]

theorem decode_lt (order : ByteOrder) (bytes : Bytes) :
    order.decode bytes < Nat.pow 256 bytes.length := by
  cases order with
  | little => exact ofLowFirst_lt bytes
  | big => simpa [decode] using ofLowFirst_lt bytes.reverse

end ByteOrder

/-- Width and signedness of an integer field. -/
inductive IntKind where
  | i8
  | u8
  | i16
  | u16
  | i32
  | u32
  deriving DecidableEq, Repr

namespace IntKind

def size : IntKind → Nat
  | .i8 | .u8 => 1
  | .i16 | .u16 => 2
  | .i32 | .u32 => 4

def isSigned : IntKind → Bool
  | .i8 | .i16 | .i32 => true
  | .u8 | .u16 | .u32 => false

def width (kind : IntKind) : Nat := 8 * kind.size

def min (kind : IntKind) : Int :=
  if kind.isSigned then -(Nat.pow 2 (kind.width - 1) : Int) else 0

def max (kind : IntKind) : Int :=
  if kind.isSigned then Nat.pow 2 (kind.width - 1) - 1 else Nat.pow 2 kind.width - 1

def name : IntKind → String
  | .i8 => "i8"
  | .u8 => "u8"
  | .i16 => "i16"
  | .u16 => "u16"
  | .i32 => "i32"
  | .u32 => "u32"

def encode (kind : IntKind) (order : ByteOrder) (n : Int) : Bytes :=
  order.encode kind.size (n % Nat.pow 2 kind.width).toNat

/-- The integer that the bytes of a word hold. -/
def decode (kind : IntKind) (order : ByteOrder) (bytes : Bytes) : Int :=
  let n := order.decode bytes
  if kind.isSigned ∧ Nat.pow 2 (kind.width - 1) ≤ n then (n : Int) - Nat.pow 2 kind.width else n

@[simp] theorem length_encode (kind : IntKind) (order : ByteOrder) (n : Int) :
    (kind.encode order n).length = kind.size := by
  simp [encode]

theorem decode_encode (kind : IntKind) (order : ByteOrder) {n : Int}
    (low : kind.min ≤ n) (high : n ≤ kind.max) : kind.decode order (kind.encode order n) = n := by
  cases kind <;>
    simp [decode, encode, min, max, width, size, isSigned,
      ByteOrder.decode_encode] at low high ⊢ <;>
    omega

theorem encode_decode (kind : IntKind) (order : ByteOrder) {bytes : Bytes}
    (h : bytes.length = kind.size) : kind.encode order (kind.decode order bytes) = bytes := by
  have hlt := order.decode_lt bytes
  have hback := order.encode_decode bytes
  rw [h] at hlt hback
  have hmod : (kind.decode order bytes % Nat.pow 2 kind.width).toNat = order.decode bytes := by
    cases kind <;> simp [decode, width, size, isSigned] at hlt ⊢ <;> (try split) <;> omega
  rw [encode, hmod, hback]

theorem decode_bounds (kind : IntKind) (order : ByteOrder) {bytes : Bytes}
    (h : bytes.length = kind.size) :
    kind.min ≤ kind.decode order bytes ∧ kind.decode order bytes ≤ kind.max := by
  have hlt := order.decode_lt bytes
  rw [h] at hlt
  cases kind <;> simp [decode, min, max, width, size, isSigned] at hlt ⊢ <;> (try split) <;> omega

end IntKind

end Mapsmith
