import Mapsmith.Proofs.Schema.Guarded
import Mapsmith.Proofs.Schema.PackedCover

/-!
# What the check of a unit is worth

`check_ok_iff_filled`: a unit passes its check exactly if its fields fill it. Taking it
apart and putting it together shift each field by a count of the bits before it; in a unit
that passes no field has more than 64 bits, none is shifted by 64 or more, and no sum or
difference of these counts leaves its word, in either order of the fields.

That any other unit is reported as invalid is not so: by `check_halted_iff` the check halts
where the bits of the fields are too many for a word of 32 bits.
-/

namespace Mapsmith

namespace PackedUnit

/-- Each of the fields from `consumed` bits on has 1 to 64 bits, and is shifted by at most 63. -/
def InRange (unit : PackedUnit) : UInt32 → List PackedField → Prop
  | _, [] => True
  | consumed, field :: rest =>
    (1 ≤ field.width.toNat ∧ field.width.toNat ≤ 64 ∧
      (unit.shift consumed field.width).toNat ≤ 63) ∧
      unit.InRange (consumed + field.width) rest

variable {unit : PackedUnit} {fields : List PackedField}

theorem inRange_of_le (hsize : unit.size ≤ 8) (hw : ∀ field ∈ fields, field.width ≠ 0)
    (hle : consumed.toNat + bits fields ≤ unit.size * 8) : unit.InRange consumed fields := by
  induction fields generalizing consumed with
  | nil => trivial
  | cons field rest ih =>
    obtain ⟨hfield, hrest⟩ := List.forall_mem_cons.mp hw
    obtain ⟨hfits, hshift, -, hnext⟩ := within_cons hsize hfield hle
    have hpos := toNat_ne_zero hfield
    exact ⟨⟨by omega, by omega, by omega⟩, ih hrest hnext⟩

/-- A unit passes its check exactly if it has 1 to 8 bytes, no field of no width, and as many bits
as its fields have together. Then every field has 1 to 64 bits and is shifted by at most 63, and the
unit is taken apart and put together without a shift, a sum or a difference out of its range,
whichever field comes first. -/
theorem check_ok_iff_filled (unit : PackedUnit) :
    (unit.check = .ok () ↔ unit.Filled) ∧ (unit.check = .ok () → ∀ order,
      let unit := { unit with order := order }
      unit.InRange 0 unit.fields ∧ ∀ whole words,
        (Guarded.splitFrom unit whole 0 unit.fields : Guarded Unit (List UInt64)) =
            pure (unit.splitFrom whole 0 unit.fields) ∧
          (Guarded.joinFrom unit 0 unit.fields words : Guarded Unit UInt64) =
            pure (unit.joinFrom 0 unit.fields words)) := by
  refine ⟨check_ok_iff, fun hcheck order => ?_⟩
  have h := check_ok_iff.mp hcheck
  have hstart : (0 : UInt32).toNat + bits unit.fields ≤ unit.size * 8 := by simp [h.covers]
  refine ⟨inRange_of_le h.le h.widths hstart, fun whole words => ⟨?_, ?_⟩⟩
  · refine Guarded.splitFrom_eq ?_ whole ?_ ?_
    exacts [h.le, h.widths, hstart]
  · refine Guarded.joinFrom_eq ?_ ?_ ?_ words
    exacts [h.le, h.widths, hstart]

theorem check_ok_iff_filled_bothEnds :
    bothEnds.check = .ok () ∧ bothEnds.Filled ∧ bothEnds.InRange 0 bothEnds.fields ∧
      { bothEnds with order := .lowFirst }.InRange 0 bothEnds.fields := by
  have hcheck : bothEnds.check = .ok () := rfl
  obtain ⟨hiff, hrange⟩ := check_ok_iff_filled bothEnds
  exact ⟨hcheck, hiff.mp hcheck, (hrange hcheck .highFirst).1, (hrange hcheck .lowFirst).1⟩

end PackedUnit

end Mapsmith
