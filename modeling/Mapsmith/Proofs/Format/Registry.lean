import Mapsmith.Format.Registry
import Mapsmith.Proofs.Format.Objects
import Mapsmith.Proofs.Format.Triggers

/-!
# Formats by name

`encode_of_decode_selecting`: object data and triggers are the formats with selections in them.
What holds of their schemas is stated here of the formats that are found by name.
-/

namespace Mapsmith.Format

/-- The formats that have selections in them. -/
def selecting : List Format :=
  [.unitObjects, .itemObjects, .destructableObjects, .buffObjects, .doodadObjects, .abilityObjects,
    .upgradeObjects, .triggers]

theorem retakes_of_selecting (hf : format ∈ selecting) (options : CodecOptions) :
    format.schema.Retakes options := by
  simp only [selecting, List.mem_cons, List.not_mem_nil, or_false] at hf
  obtain rfl | rfl | rfl | rfl | rfl | rfl | rfl | rfl := hf
  · exact Objects.retakes .plain options
  · exact Objects.retakes .plain options
  · exact Objects.retakes .plain options
  · exact Objects.retakes .plain options
  · exact Objects.retakes .withVariations options
  · exact Objects.retakes .withVariations options
  · exact Objects.retakes .withVariations options
  · exact Triggers.retakes options

/-- A file of one changed unit, of which a number is changed under its own identifier. -/
def ownParent : Bytes :=
  [1, 0, 0, 0, 1, 0, 0, 0, 104, 102, 111, 111, 0, 0, 0, 0, 1, 0, 0, 0, 117, 104, 112, 109, 0,
    0, 0, 0, 7, 0, 0, 0, 104, 102, 111, 111, 0, 0, 0, 0]

/-- Object data and triggers are encoded as the bytes that they were decoded from, with any
limits and whatever the table of functions. -/
theorem encode_of_decode_selecting (hf : format ∈ selecting) (ht : options.allowTrailing = false)
    (h : format.decode options bytes = .ok document) : format.encode options document = .ok bytes :=
  (retakes_of_selecting hf options).encode ht h

theorem encode_of_decode_ownParent : ∃ document,
    unitObjects.decode {} ownParent = .ok document ∧
      unitObjects.encode {} document = .ok ownParent := by
  obtain ⟨document, h⟩ : ∃ document, unitObjects.decode {} ownParent = .ok document := ⟨_, rfl⟩
  exact ⟨document, h, encode_of_decode_selecting (by decide) rfl h⟩

end Mapsmith.Format
