import Mathlib.Algebra.Order.BigOperators.Group.List
import Mathlib.Algebra.Order.Group.Nat
import Mapsmith.Proofs.Schema.PackedUnit

/-!
# Units that their fields fill

`split_join_inverse`: a unit that its fields fill is the same thing as the words in it.
Taking it apart and putting it together are inverse to each other, in either order of its
fields.
-/

namespace Mapsmith

namespace PackedUnit

/-- One word for each field, and none with a bit beyond its width. -/
def Holds (unit : PackedUnit) (words : List UInt64) : Prop :=
  List.Forall₂ (fun field word => word.toNat < 2 ^ field.width.toNat) unit.fields words

theorem Filled.width_le {unit : PackedUnit} (h : unit.Filled) (hf : field ∈ unit.fields) :
    field.width.toNat ≤ 64 := by
  have hle := h.le
  have hsum : field.width.toNat ≤ bits unit.fields :=
    List.le_sum_of_mem (List.mem_map_of_mem hf)
  rw [h.covers] at hsum
  omega

theorem fits_iff_lt (h : width ≠ 0) (hle : width.toNat ≤ 64) :
    fits width word = true ↔ word.toNat < 2 ^ width.toNat := by
  refine ⟨toNat_lt_two_pow_of_fits h, fun hlt => fits_iff_and_mask.mpr
    (eq_iff_bit.mpr fun i _ => ?_)⟩
  rw [bit_and, bit_mask h, span_of_le h hle, Bool.and_eq_left_iff_imp, decide_eq_true_eq]
  intro hbit
  rw [bit, BitVec.getLsbD, UInt64.toNat_toBitVec] at hbit
  by_contra hge
  have hout := Nat.testBit_lt_two_pow
    (Nat.lt_of_lt_of_le hlt (Nat.pow_le_pow_right (by omega) (Nat.le_of_not_lt hge)))
  rw [hout] at hbit
  cases hbit

theorem Filled.holds_iff {unit : PackedUnit} (h : unit.Filled) :
    unit.Holds words ↔
      List.Forall₂ (fun field word => fits field.width word = true) unit.fields words := by
  rw [Holds, List.forall₂_iff_zip, List.forall₂_iff_zip]
  refine and_congr_right' (forall₃_congr fun field word hm => ?_)
  have hf := (List.of_mem_zip hm).1
  exact (fits_iff_lt (h.widths field hf) (h.width_le hf)).symm

/-- Taking a unit apart and putting it together are inverse to each other, between the runs of
as many bytes as it has and the words that its fields hold. -/
theorem split_join_inverse {unit : PackedUnit} (h : unit.Filled) :
    (∀ bytes : Bytes, bytes.length = unit.size →
        unit.Holds (unit.split bytes) ∧ unit.join (unit.split bytes) = bytes) ∧
      ∀ words, unit.Holds words →
        (unit.join words).length = unit.size ∧ unit.split (unit.join words) = words := by
  refine ⟨fun bytes hb => ⟨?_, join_split h.check hb⟩, fun words hw => ⟨unit.length_join words, ?_⟩⟩
  · exact h.holds_iff.mpr (unit.fits_split bytes)
  · exact split_join h.check (h.holds_iff.mp hw)

/-- Eight bytes, the highest bits first, with a field of one bit at either end. -/
def bothEnds : PackedUnit :=
  ⟨8, .highFirst, [⟨"first", 1, none⟩, ⟨"middle", 62, none⟩, ⟨"last", 1, none⟩]⟩

theorem bothEnds_inverse :
    bothEnds.Filled ∧
      bothEnds.join (bothEnds.split [0x81, 0, 0, 0, 0xFF, 0, 0, 0x42]) =
        [0x81, 0, 0, 0, 0xFF, 0, 0, 0x42] ∧
      bothEnds.Holds [1, 0x3FFFFFFFFFFFFFFF, 0] ∧
      bothEnds.split (bothEnds.join [1, 0x3FFFFFFFFFFFFFFF, 0]) = [1, 0x3FFFFFFFFFFFFFFF, 0] := by
  have hfilled : bothEnds.Filled := ⟨by decide, by decide, by decide, rfl⟩
  have hholds : bothEnds.Holds [1, 0x3FFFFFFFFFFFFFFF, 0] := by simp [Holds, bothEnds]
  obtain ⟨hbytes, hwords⟩ := split_join_inverse hfilled
  exact ⟨hfilled, (hbytes _ rfl).2, hholds, (hwords _ hholds).2⟩

end PackedUnit

end Mapsmith
