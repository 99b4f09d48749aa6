import Mathlib.Algebra.GroupWithZero.Nat
import Mathlib.Data.List.Forall2
import Mapsmith.Schema.Packed

/-!
# Packed units

`check_ok_iff`: the check of a unit accepts exactly the units that their fields fill.
`join_split`: putting the words of such a unit together gives back the bytes it was
taken from, because every field returns the bits it reads and the fields reach every
bit. `split_join`: taking it apart gives back the words that were put in, because no
two fields share a bit.

What a unit that fails its check is taken apart into is not said: nothing takes it apart.
-/

namespace Mapsmith

namespace PackedUnit

-- ---------------------------------------------------------------------------
-- Bits of words
-- ---------------------------------------------------------------------------

/-- Whether a bit of a word is set. -/
def bit (word : UInt64) (i : Nat) : Bool := word.toBitVec.getLsbD i

theorem eq_iff_bit {a b : UInt64} : a = b ↔ ∀ i < 64, bit a i = bit b i :=
  ⟨fun h _ _ => h ▸ rfl, fun h => UInt64.toBitVec_inj.mp (BitVec.eq_of_getLsbD_eq h)⟩

@[simp] theorem bit_zero (i : Nat) : bit 0 i = false := by simp [bit]

@[simp] theorem bit_and (a b : UInt64) (i : Nat) : bit (a &&& b) i = (bit a i && bit b i) := by
  simp [bit]

@[simp] theorem bit_or (a b : UInt64) (i : Nat) : bit (a ||| b) i = (bit a i || bit b i) := by
  simp [bit]

theorem bit_not (h : i < 64) : bit (~~~a) i = !bit a i := by simp [bit, h]

theorem toNat_shiftAmount (n : UInt32) : (n.toUInt64.toBitVec % 64#64).toNat = n.toNat % 64 := by
  rw [BitVec.toNat_umod]
  simp

theorem bit_shiftRight (word : UInt64) (n : UInt32) (i : Nat) :
    bit (word >>> n.toUInt64) i = bit word (n.toNat % 64 + i) := by
  have h : (word >>> n.toUInt64).toBitVec = word.toBitVec >>> (n.toNat % 64) := by
    rw [UInt64.toBitVec_shiftRight, BitVec.ushiftRight_eq', ← toNat_shiftAmount]
    rfl
  rw [bit, h, BitVec.getLsbD_ushiftRight, bit]

theorem bit_shiftLeft (word : UInt64) (n : UInt32) (i : Nat) :
    bit (word <<< n.toUInt64) i =
      (decide (n.toNat % 64 ≤ i ∧ i < 64) && bit word (i - n.toNat % 64)) := by
  have h : (word <<< n.toUInt64).toBitVec = word.toBitVec <<< (n.toNat % 64) := by
    rw [UInt64.toBitVec_shiftLeft, BitVec.shiftLeft_eq', ← toNat_shiftAmount]
    rfl
  rw [bit, h, BitVec.getLsbD_shiftLeft, bit]
  by_cases h₁ : i < 64 <;> by_cases h₂ : n.toNat % 64 ≤ i <;> simp [h₁, h₂]

theorem toNat_ne_zero {width : UInt32} (h : width ≠ 0) : width.toNat ≠ 0 := fun h' =>
  h (UInt32.toNat_inj.mp h')

theorem toNat_add {consumed width : UInt32} (h : consumed.toNat + width.toNat < 2 ^ 32) :
    (consumed + width).toNat = consumed.toNat + width.toNat := by
  rw [UInt32.toNat_add, Nat.mod_eq_of_lt h]

/-- How many bits a mask lets through: shifts count modulo 64. -/
def span (width : UInt32) : Nat := (width.toNat - 1) % 64 + 1

theorem bit_mask (h : width ≠ 0) (i : Nat) : bit (mask width) i = decide (i < span width) := by
  have hw := toNat_ne_zero h
  have hlt := width.toNat_lt
  have hshift : (64 - width).toNat % 64 = 64 - span width := by
    rw [UInt32.toNat_sub, span]
    simp only [UInt32.reduceToNat]
    omega
  have hall (j : Nat) : bit 0xFFFFFFFFFFFFFFFF j = decide (j < 64) := by
    show (BitVec.allOnes 64).getLsbD j = _
    rw [BitVec.getLsbD_allOnes]
  rw [mask, if_neg h, bit_shiftRight, hshift, hall, decide_eq_decide, span]
  omega

theorem span_of_le (h : width ≠ 0) (hle : width.toNat ≤ 64) : span width = width.toNat := by
  have hw := toNat_ne_zero h
  rw [span]
  omega

-- ---------------------------------------------------------------------------
-- Words that fit
-- ---------------------------------------------------------------------------

theorem fits_iff_and_mask : fits width word = true ↔ word &&& mask width = word := by
  rw [fits, beq_iff_eq, eq_iff_bit, eq_iff_bit]
  refine forall₂_congr fun i hi => ?_
  rw [bit_and, bit_and, bit_not hi, bit_zero]
  cases bit word i <;> simp

theorem lt_of_fits (h : width ≠ 0) (hf : fits width word = true) (hb : bit word i = true) :
    i < span width := by
  rw [← fits_iff_and_mask.mp hf, bit_and, bit_mask h] at hb
  simp_all

theorem toNat_lt_two_pow_of_fits (h : width ≠ 0) (hf : fits width word = true) :
    word.toNat < 2 ^ width.toNat := by
  refine Nat.lt_pow_two_of_testBit _ fun i hi => ?_
  have hspan : span width ≤ width.toNat := by
    have hw := toNat_ne_zero h
    rw [span]
    omega
  have hout := mt (lt_of_fits h hf (i := i)) (by omega)
  simpa [bit, BitVec.getLsbD] using hout

theorem toNat_lt_of_fits (h : width ≠ 0) (hlt : width.toNat < 64) (hf : fits width word = true) :
    word.toNat < 2 ^ 63 :=
  Nat.lt_of_lt_of_le (toNat_lt_two_pow_of_fits h hf) (Nat.pow_le_pow_right (by omega) (by omega))

theorem toInt_toInt64 {word : UInt64} (h : word.toNat < 2 ^ 63) :
    word.toInt64.toInt = word.toNat := by
  show word.toBitVec.toInt = _
  rw [BitVec.toInt_eq_toNat_of_lt (by rw [UInt64.toNat_toBitVec]; omega), UInt64.toNat_toBitVec]

theorem fits_and_mask (word : UInt64) (width : UInt32) : fits width (word &&& mask width) := by
  rw [fits_iff_and_mask, eq_iff_bit]
  intro i _
  simp

-- ---------------------------------------------------------------------------
-- Checked units
-- ---------------------------------------------------------------------------

/-- The number of bits that the widths of fields say, in an unbounded count. -/
def bits (fields : List PackedField) : Nat := (fields.map fun field => field.width.toNat).sum

@[simp] theorem bits_nil : bits [] = 0 := rfl

@[simp] theorem bits_cons (field : PackedField) (rest : List PackedField) :
    bits (field :: rest) = field.width.toNat + bits rest := by
  simp [bits]

/-- The bits that fields cover after the given ones, in a word. -/
def total (consumed : UInt32) (fields : List PackedField) : UInt32 :=
  fields.foldl (fun total field => total + field.width) consumed

theorem toNat_total {fields : List PackedField} (h : consumed.toNat + bits fields < 2 ^ 32) :
    (total consumed fields).toNat = consumed.toNat + bits fields := by
  induction fields generalizing consumed with
  | nil => rfl
  | cons field rest ih =>
    rw [bits_cons] at h
    have hnext : (consumed + field.width).toNat = consumed.toNat + field.width.toNat :=
      toNat_add (by omega)
    rw [total, List.foldl_cons, ← total, ih (by omega), hnext, bits_cons]
    omega

theorem covered_eq (consumed : UInt32) (fields : List PackedField) :
    covered consumed fields =
      if consumed.toNat + bits fields < 2 ^ 32 then .ok (total consumed fields)
      else .error .halted := by
  induction fields generalizing consumed with
  | nil =>
    rw [if_pos (by simpa using consumed.toNat_lt)]
    rfl
  | cons field rest ih =>
    have hword : UInt32.size = 2 ^ 32 := rfl
    rw [covered, bits_cons, hword]
    split
    · rw [if_neg (by omega)]
      rfl
    · have hnext : (consumed + field.width).toNat = consumed.toNat + field.width.toNat :=
        toNat_add (by omega)
      rw [ih, hnext, Nat.add_assoc]
      rfl

/-- The fields have as many bits as the unit, none of them of no width. -/
structure Filled (unit : PackedUnit) : Prop where
  pos : 0 < unit.size
  le : unit.size ≤ 8
  widths : ∀ field ∈ unit.fields, field.width ≠ 0
  covers : bits unit.fields = unit.size * 8

theorem check_eq {unit : PackedUnit} (hpos : 0 < unit.size) (hle : unit.size ≤ 8)
    (hw : ∀ field ∈ unit.fields, field.width ≠ 0) :
    unit.check = if bits unit.fields = unit.size * 8 then .ok ()
      else if bits unit.fields < 2 ^ 32 then
        .error (.invalidSchema (.notCovered (bits unit.fields) (unit.size * 8)))
      else .error .halted := by
  have hnone : (unit.fields.find? fun field => field.width = 0) = none := by simpa using hw
  have hzero (n : Nat) : (0 : UInt32).toNat + n = n := by simp
  rw [check, if_neg (by omega), hnone]
  simp only [covered_eq, hzero]
  by_cases hbits : bits unit.fields < 2 ^ 32
  · have htotal : (total 0 unit.fields).toNat = bits unit.fields := by
      rw [toNat_total (by rwa [hzero]), hzero]
    simp only [if_pos hbits]
    show (if (total 0 unit.fields).toNat ≠ _ then _ else _) = _
    rw [htotal]
    by_cases hcovers : bits unit.fields = unit.size * 8
    · rw [if_neg (not_not.mpr hcovers), if_pos hcovers]
      rfl
    · rw [if_pos hcovers, if_neg hcovers]
      rfl
  · simp only [if_neg hbits]
    rw [if_neg (by omega)]
    rfl

theorem check_fault {unit : PackedUnit}
    (h : ¬(0 < unit.size ∧ unit.size ≤ 8 ∧ ∀ field ∈ unit.fields, field.width ≠ 0)) :
    ∃ fault, unit.check = .error (.invalidSchema fault) := by
  by_cases hsize : unit.size = 0 ∨ 8 < unit.size
  · exact ⟨.unitSize unit.size, if_pos hsize⟩
  · have hw : ¬∀ field ∈ unit.fields, field.width ≠ 0 := fun hw => h ⟨by omega, by omega, hw⟩
    obtain ⟨field, hf⟩ := Option.isSome_iff_exists.mp
      (List.find?_isSome (p := fun field : PackedField => field.width = 0).mpr (by simpa using hw))
    refine ⟨.noWidth field.name, ?_⟩
    rw [check, if_neg hsize, hf]
    rfl

theorem check_ok_iff {unit : PackedUnit} : unit.check = .ok () ↔ unit.Filled := by
  constructor
  · intro h
    obtain ⟨hpos, hle, hw⟩ : 0 < unit.size ∧ unit.size ≤ 8 ∧
        ∀ field ∈ unit.fields, field.width ≠ 0 := by
      by_contra hbad
      obtain ⟨fault, heq⟩ := check_fault hbad
      cases h.symm.trans heq
    refine ⟨hpos, hle, hw, ?_⟩
    by_contra hbits
    rw [check_eq hpos hle hw, if_neg hbits] at h
    split at h <;> cases h
  · rintro ⟨hpos, hle, hw, hbits⟩
    rw [check_eq hpos hle hw, if_pos hbits]

/-- The check halts exactly if nothing but the number of bits is wrong and that number does not
fit its word. -/
theorem check_halted_iff {unit : PackedUnit} : unit.check = .error .halted ↔
    0 < unit.size ∧ unit.size ≤ 8 ∧ (∀ field ∈ unit.fields, field.width ≠ 0) ∧
      2 ^ 32 ≤ bits unit.fields := by
  by_cases hgood : 0 < unit.size ∧ unit.size ≤ 8 ∧ ∀ field ∈ unit.fields, field.width ≠ 0
  · obtain ⟨hpos, hle, hw⟩ := hgood
    rw [check_eq hpos hle hw]
    constructor
    · intro h
      refine ⟨hpos, hle, hw, Nat.le_of_not_lt fun hbits => ?_⟩
      rw [if_pos hbits] at h
      split at h <;> cases h
    · rintro ⟨-, -, -, hbits⟩
      rw [if_neg (by omega), if_neg (by omega)]
  · obtain ⟨fault, heq⟩ := check_fault hgood
    rw [heq]
    exact iff_of_false nofun fun ⟨hpos, hle, hw, _⟩ => hgood ⟨hpos, hle, hw⟩

theorem Filled.check {unit : PackedUnit} (h : unit.Filled) : unit.check = .ok () :=
  check_ok_iff.mpr h

theorem Filled.total {unit : PackedUnit} (h : unit.Filled) :
    total 0 unit.fields = UInt32.ofNat (unit.size * 8) := by
  have hle := h.le
  refine UInt32.toNat_inj.mp ?_
  rw [toNat_total (by simp [h.covers]; omega), UInt32.toNat_ofNat', h.covers]
  simp
  omega

theorem length_splitFrom (unit : PackedUnit) (whole : UInt64) (consumed : UInt32)
    (fields : List PackedField) :
    (unit.splitFrom whole consumed fields).length = fields.length := by
  induction fields generalizing consumed with
  | nil => rfl
  | cons field rest ih => simp [splitFrom, ih]

theorem length_split (unit : PackedUnit) (bytes : Bytes) :
    (unit.split bytes).length = unit.fields.length :=
  unit.length_splitFrom _ _ _

@[simp] theorem length_join (unit : PackedUnit) (words : List UInt64) :
    (unit.join words).length = unit.size := by
  simp [join]

theorem fits_splitFrom (unit : PackedUnit) (whole : UInt64) (consumed : UInt32)
    (fields : List PackedField) :
    List.Forall₂ (fun field word => fits field.width word = true) fields
      (unit.splitFrom whole consumed fields) := by
  induction fields generalizing consumed with
  | nil => exact .nil
  | cons field rest ih => exact .cons (fits_and_mask _ _) (ih _)

theorem fits_split (unit : PackedUnit) (bytes : Bytes) :
    List.Forall₂ (fun field word => fits field.width word = true) unit.fields (unit.split bytes) :=
  unit.fits_splitFrom _ _ _

-- ---------------------------------------------------------------------------
-- Apart and together
-- ---------------------------------------------------------------------------

/-- A bit that one of the fields from `consumed` bits on reads and puts back. -/
def Reached (unit : PackedUnit) (i : Nat) : UInt32 → List PackedField → Prop
  | _, [] => False
  | consumed, field :: rest =>
    let low := (unit.shift consumed field.width).toNat % 64
    low ≤ i ∧ i < low + span field.width ∨ unit.Reached i (consumed + field.width) rest

theorem bit_joinFrom_splitFrom (unit : PackedUnit) (whole : UInt64) (consumed : UInt32)
    {fields : List PackedField} (hw : ∀ field ∈ fields, field.width ≠ 0) (hi : i < 64) :
    bit (unit.joinFrom consumed fields (unit.splitFrom whole consumed fields)) i = true ↔
      unit.Reached i consumed fields ∧ bit whole i = true := by
  induction fields generalizing consumed with
  | nil => simp [joinFrom, Reached]
  | cons field rest ih =>
    obtain ⟨hw₀, hw⟩ := List.forall_mem_cons.mp hw
    simp only [splitFrom, joinFrom, Reached, bit_or, bit_shiftLeft, bit_shiftRight, bit_and,
      bit_mask hw₀, Bool.or_eq_true, Bool.and_eq_true, decide_eq_true_eq, ih _ hw]
    generalize (unit.shift consumed field.width).toNat % 64 = low
    constructor
    · rintro (⟨⟨hlow, -⟩, ⟨hbit, hspan⟩, -⟩ | ⟨hr, hbit⟩)
      · rw [Nat.add_sub_cancel' hlow] at hbit
        exact ⟨.inl ⟨hlow, by omega⟩, hbit⟩
      · exact ⟨.inr hr, hbit⟩
    · rintro ⟨⟨hlow, hspan⟩ | hr, hbit⟩
      · rw [Nat.add_sub_cancel' hlow]
        exact .inl ⟨⟨hlow, hi⟩, ⟨hbit, by omega⟩, by omega⟩
      · exact .inr ⟨hr, hbit⟩

/-- With the lowest bits first, the fields leave no bit out between where they
start and where they end: a bit beyond a field is beyond the start of the next. -/
theorem reached_lowFirst {unit : PackedUnit} {fields : List PackedField}
    (ho : unit.order = .lowFirst) (hi : i < 64)
    (hstart : consumed.toNat % 64 ≤ i) (hne : fields ≠ [] ∨ 0 < consumed.toNat % 64)
    (hend : (total consumed fields).toNat % 64 = 0 ∨ i < (total consumed fields).toNat % 64)
    (hw : ∀ field ∈ fields, field.width ≠ 0) : unit.Reached i consumed fields := by
  induction fields generalizing consumed with
  | nil =>
    simp only [total, List.foldl_nil, ne_eq, not_true, false_or] at hend hne
    omega
  | cons field rest ih =>
    obtain ⟨hw₀, hw⟩ := List.forall_mem_cons.mp hw
    have hpos := toNat_ne_zero hw₀
    have hnext : (consumed + field.width).toNat % 64 =
        (consumed.toNat + field.width.toNat) % 64 := by
      rw [UInt32.toNat_add]
      omega
    simp only [Reached, shift, ho]
    by_cases hin : i < consumed.toNat % 64 + span field.width
    · exact .inl ⟨hstart, hin⟩
    · rw [span] at hin
      exact .inr (ih (by omega) (.inr (by omega)) hend hw)

/-- With the highest bits first, the same going down from the top of the unit. -/
theorem reached_highFirst {unit : PackedUnit} {fields : List PackedField}
    (ho : unit.order = .highFirst)
    (hend : total consumed fields = UInt32.ofNat (unit.size * 8)) (hi : i < 64)
    (hstart : (UInt32.ofNat (unit.size * 8) - consumed).toNat % 64 = 0 ∧ fields ≠ [] ∨
      i < (UInt32.ofNat (unit.size * 8) - consumed).toNat % 64)
    (hw : ∀ field ∈ fields, field.width ≠ 0) : unit.Reached i consumed fields := by
  induction fields generalizing consumed with
  | nil =>
    simp only [total, List.foldl_nil] at hend
    simp [hend] at hstart
  | cons field rest ih =>
    obtain ⟨hw₀, hw⟩ := List.forall_mem_cons.mp hw
    have hpos := toNat_ne_zero hw₀
    have hshift : UInt32.ofNat (unit.size * 8) - (consumed + field.width) =
        UInt32.ofNat (unit.size * 8) - consumed - field.width := by
      grind
    simp only [Reached, shift, ho]
    generalize hleft : UInt32.ofNat (unit.size * 8) - consumed = left at hstart hshift ⊢
    have hnext : (left - field.width).toNat % 64 =
        (2 ^ 32 + left.toNat - field.width.toNat) % 64 := by
      have := field.width.toNat_lt
      rw [UInt32.toNat_sub]
      omega
    by_cases hin : (left - field.width).toNat % 64 ≤ i ∧
        i < (left - field.width).toNat % 64 + span field.width
    · exact .inl hin
    · refine .inr (ih hend (.inr ?_) hw)
      have := field.width.toNat_lt
      rw [hshift]
      rw [span] at hin
      omega

/-- The bytes of a unit are those that its words put together make. -/
theorem join_split {unit : PackedUnit} (h : unit.check = .ok ()) {bytes : Bytes}
    (hb : bytes.length = unit.size) : unit.join (unit.split bytes) = bytes := by
  obtain ⟨hpos, hle, hw, hbits⟩ := check_ok_iff.mp h
  have htotal := (check_ok_iff.mp h).total
  have hne : unit.fields ≠ [] := by
    intro h
    rw [h, bits_nil] at hbits
    omega
  have hlt : unit.byteOrder.decode bytes < 2 ^ (8 * unit.size) := by
    have := unit.byteOrder.decode_lt bytes
    rwa [hb, show 256 = 2 ^ 8 from rfl, Nat.pow_eq, ← Nat.pow_mul] at this
  have hwhole : (UInt64.ofNat (unit.byteOrder.decode bytes)).toNat =
      unit.byteOrder.decode bytes := by
    rw [UInt64.toNat_ofNat']
    exact Nat.mod_eq_of_lt (Nat.lt_of_lt_of_le hlt (Nat.pow_le_pow_right (by omega) (by omega)))
  have hsame : unit.joinFrom 0 unit.fields (unit.split bytes) =
      UInt64.ofNat (unit.byteOrder.decode bytes) := by
    rw [eq_iff_bit]
    intro i hi
    rw [Bool.eq_iff_iff, split, unit.bit_joinFrom_splitFrom _ _ hw hi, and_iff_right_iff_imp]
    intro hbit
    have hlow : i < 8 * unit.size := by
      by_contra hge
      have := Nat.testBit_lt_two_pow
        (Nat.lt_of_lt_of_le hlt (Nat.pow_le_pow_right (by omega) (Nat.le_of_not_lt hge)))
      rw [← hwhole] at this
      rw [bit, BitVec.getLsbD, UInt64.toNat_toBitVec, this] at hbit
      cases hbit
    have hsize : (UInt32.ofNat (unit.size * 8)).toNat = unit.size * 8 := by
      rw [UInt32.toNat_ofNat']
      omega
    cases ho : unit.order with
    | lowFirst =>
      refine reached_lowFirst ho hi (by simp) (.inl hne) ?_ hw
      rw [htotal, hsize]
      omega
    | highFirst =>
      refine reached_highFirst ho htotal hi ?_ hw
      rw [UInt32.sub_zero, hsize]
      by_cases h8 : unit.size = 8
      · exact .inl ⟨by omega, hne⟩
      · exact .inr (by omega)
  rw [join, hsame, hwhole, ← hb, unit.byteOrder.encode_decode]

theorem toNat_shift {unit : PackedUnit} (hsize : unit.size ≤ 8)
    (hle : consumed.toNat + width.toNat ≤ unit.size * 8) :
    (unit.shift consumed width).toNat = match unit.order with
      | .highFirst => unit.size * 8 - consumed.toNat - width.toNat
      | .lowFirst => consumed.toNat := by
  cases ho : unit.order with
  | lowFirst => simp only [shift, ho]
  | highFirst =>
    simp only [shift, ho, UInt32.toNat_sub, UInt32.toNat_ofNat']
    omega

theorem shift_lt {unit : PackedUnit} (hsize : unit.size ≤ 8) (hw : width ≠ 0)
    (hle : consumed.toNat + width.toNat ≤ unit.size * 8) :
    (unit.shift consumed width).toNat < 64 := by
  have hpos := toNat_ne_zero hw
  rw [toNat_shift hsize hle]
  cases unit.order with
  | lowFirst => show consumed.toNat < 64; omega
  | highFirst => show unit.size * 8 - consumed.toNat - width.toNat < 64; omega

/-- The first of some fields that lie within the unit, and those after it. -/
theorem within_cons {unit : PackedUnit} (hsize : unit.size ≤ 8) (hw : field.width ≠ 0)
    (hle : consumed.toNat + bits (field :: rest) ≤ unit.size * 8) :
    consumed.toNat + field.width.toNat ≤ unit.size * 8 ∧
      (unit.shift consumed field.width).toNat < 64 ∧
      (consumed + field.width).toNat = consumed.toNat + field.width.toNat ∧
      (consumed + field.width).toNat + bits rest ≤ unit.size * 8 := by
  rw [bits_cons] at hle
  have hfits : consumed.toNat + field.width.toNat ≤ unit.size * 8 := by omega
  have hnext : (consumed + field.width).toNat = consumed.toNat + field.width.toNat :=
    toNat_add (by omega)
  exact ⟨hfits, shift_lt hsize hw hfits, hnext, by omega⟩

/-- A bit that lies with the fields from `consumed` bits on. -/
def Ahead (unit : PackedUnit) (consumed : UInt32) (i : Nat) : Prop :=
  match unit.order with
  | .lowFirst => consumed.toNat ≤ i ∧ i < unit.size * 8
  | .highFirst => i + consumed.toNat < unit.size * 8

/-- A field that lies within the unit has bits of its own, apart from those of the
fields after it. -/
theorem ahead_field {unit : PackedUnit} (hsize : unit.size ≤ 8) (consumed : UInt32) (hw : width ≠ 0)
    (hle : consumed.toNat + width.toNat ≤ unit.size * 8) :
    (unit.shift consumed width).toNat % 64 + width.toNat ≤ 64 ∧
    (∀ i, (unit.shift consumed width).toNat % 64 ≤ i ∧
        i < (unit.shift consumed width).toNat % 64 + width.toNat →
      unit.Ahead consumed i ∧ ¬unit.Ahead (consumed + width) i) ∧
    ∀ i, unit.Ahead (consumed + width) i → unit.Ahead consumed i := by
  have hpos := toNat_ne_zero hw
  have hnext : (consumed + width).toNat = consumed.toNat + width.toNat := toNat_add (by omega)
  have hlow := toNat_shift hsize hle
  cases ho : unit.order with
  | lowFirst =>
    simp only [ho] at hlow
    simp only [Ahead, ho, hnext, hlow]
    exact ⟨by omega, by omega, by omega⟩
  | highFirst =>
    simp only [ho] at hlow
    simp only [Ahead, ho, hnext, hlow]
    exact ⟨by omega, by omega, by omega⟩

theorem ahead_of_bit_joinFrom {unit : PackedUnit} (hsize : unit.size ≤ 8)
    {fields : List PackedField} (words : List UInt64) (hw : ∀ field ∈ fields, field.width ≠ 0)
    (hle : consumed.toNat + bits fields ≤ unit.size * 8)
    (hbit : bit (unit.joinFrom consumed fields words) i = true) : unit.Ahead consumed i := by
  induction fields generalizing consumed words with
  | nil => simp [joinFrom] at hbit
  | cons field rest ih =>
    obtain ⟨hw₀, hw⟩ := List.forall_mem_cons.mp hw
    obtain ⟨hfits, -, -, hle⟩ := within_cons hsize hw₀ hle
    obtain ⟨-, hown, hnext⟩ := ahead_field hsize consumed hw₀ hfits
    cases words with
    | nil => simp [joinFrom] at hbit
    | cons word words =>
      simp only [joinFrom, bit_or, bit_shiftLeft, bit_and, bit_mask hw₀,
        span_of_le hw₀ (by omega), Bool.or_eq_true, Bool.and_eq_true, decide_eq_true_eq] at hbit
      obtain ⟨hlow, -, hspan⟩ | hrest := hbit
      · exact (hown i ⟨hlow.1, by omega⟩).1
      · exact hnext i (ih words hw hle hrest)

theorem splitFrom_eq {unit : PackedUnit} (hsize : unit.size ≤ 8) {fields : List PackedField}
    (hw : ∀ field ∈ fields, field.width ≠ 0) (hle : consumed.toNat + bits fields ≤ unit.size * 8)
    (hf : List.Forall₂ (fun field word => fits field.width word = true) fields words)
    (hsame : ∀ i < 64, unit.Ahead consumed i →
      bit whole i = bit (unit.joinFrom consumed fields words) i) :
    unit.splitFrom whole consumed fields = words := by
  induction hf generalizing consumed with
  | nil => rfl
  | @cons field word rest words hword _ ih =>
    obtain ⟨hw₀, hw⟩ := List.forall_mem_cons.mp hw
    obtain ⟨hfits, -, -, hle⟩ := within_cons hsize hw₀ hle
    obtain ⟨hin, hown, hnext⟩ := ahead_field hsize consumed hw₀ hfits
    have hspan := span_of_le hw₀ (by omega)
    rw [splitFrom]
    generalize hshift : unit.shift consumed field.width = low at hin hown hsame ⊢
    have hjoin (i : Nat) (hi : i < 64) :
        bit (unit.joinFrom consumed (field :: rest) (word :: words)) i =
          (decide (low.toNat % 64 ≤ i) && bit word (i - low.toNat % 64) ||
            bit (unit.joinFrom (consumed + field.width) rest words) i) := by
      rw [joinFrom, fits_iff_and_mask.mp hword, bit_or, bit_shiftLeft, hshift]
      simp [hi]
    congr 1
    · rw [eq_iff_bit]
      intro i hi
      rw [bit_and, bit_shiftRight, bit_mask hw₀, hspan]
      by_cases hi' : i < field.width.toNat
      · obtain ⟨hahead, hbeyond⟩ := hown (low.toNat % 64 + i) ⟨by omega, by omega⟩
        have hrest := mt (ahead_of_bit_joinFrom hsize words hw hle) hbeyond
        rw [hsame _ (by omega) hahead, hjoin _ (by omega)]
        simp [hi', hrest]
      · have hout := mt (lt_of_fits hw₀ hword (i := i)) (hspan ▸ hi')
        simp [hi', hout]
    · refine ih hw hle fun i hi hahead => ?_
      rw [hsame i hi (hnext i hahead), hjoin i hi, Bool.or_eq_right_iff_imp, Bool.and_eq_true,
        decide_eq_true_eq]
      rintro ⟨hlow, hbit⟩
      have hlt := lt_of_fits hw₀ hword hbit
      exact absurd hahead (hown i ⟨hlow, by omega⟩).2

/-- The words of a unit are those that it was made of. -/
theorem split_join {unit : PackedUnit} (h : unit.check = .ok ())
    (hf : List.Forall₂ (fun field word => fits field.width word = true) unit.fields words) :
    unit.split (unit.join words) = words := by
  obtain ⟨-, hle, hw, hbits⟩ := check_ok_iff.mp h
  refine splitFrom_eq hle hw (by simp [hbits]) hf fun i hi hahead => ?_
  have hlow : i < 8 * unit.size := by
    unfold Ahead at hahead
    split at hahead <;> omega
  rw [join, unit.byteOrder.decode_encode, show 256 = 2 ^ 8 from rfl, Nat.pow_eq, ← Nat.pow_mul, bit,
    BitVec.getLsbD, UInt64.toNat_toBitVec, UInt64.toNat_ofNat', Nat.testBit_mod_two_pow,
    Nat.testBit_mod_two_pow, bit, BitVec.getLsbD, UInt64.toNat_toBitVec]
  simp [hi, hlow]

end PackedUnit

end Mapsmith
