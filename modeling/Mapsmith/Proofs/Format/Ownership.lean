import Mapsmith.Proofs.Format.OtherLayout
import Mapsmith.Proofs.Schema.Visits

/-!
# Modifications and their objects

`owned_of_accepted`: a modification is in sight of the object around it, one record outward,
and of no other one. So the identifier that it names is one of that object, in whatever is
encoded and in whatever is decoded: the encoder looks again at all that was decoded, and takes
it.
-/

namespace Mapsmith

/-- The array under a name holds records only, each of which has the property. -/
def Document.Each (document : Document) (name : String) (P : Document → Prop) : Prop :=
  ∃ items, document.get? name = some (.array items) ∧
  ∀ item ∈ items, ∃ inner, item = .struct inner ∧ P inner

/-- What is one record outward from the fields of a record is the record around it. -/
theorem Scope.resolve_outward {scope : Scope} {outer inner : Document} :
    ((scope.child outer).child inner).resolve ⟨1, [name]⟩ = .ok value ↔
      outer.get? name = some value := by
  have hfind : ((scope.child outer).child inner).find? ⟨1, [name]⟩ = outer.get? name := rfl
  rw [resolve, hfind]
  cases outer.get? name <;> simp

theorem Value.eq_int_of_beq {value : Value} (h : value == .int n) : value = .int n := by
  cases value with
  | int m => exact (int_beq_iff.mp h).symm
  | _ => cases h

theorem Value.eq_of_beq_of_asId? {value other : Value} (h : other == value)
    (hid : value.asId? = some code) :
    other = value := by
  cases value with
  | id => cases other <;> first | exact (id_beq_iff.mp h).symm | cases h
  | bytes => cases other <;> first | exact (bytes_beq_iff.mp h).symm | cases h
  | _ => cases hid

theorem Visit.Accepted.each {codec : Codec} {levels : Nat} {path : FieldPath} {scope : Scope}
    {struct : Document} {field : String} {fields inner : List (String × FieldType)}
    {P : Document → Prop}
    (h : Accepted codec ⟨levels, path, .record name fields, .struct struct, scope⟩)
    (hf : (field, .array length (.record element inner)) ∈ fields)
    (hP : ∀ levels path item, Accepted codec
      ⟨levels, path, .record element inner, .struct item, scope.child struct⟩ → P item) :
    struct.Each field P := by
  obtain ⟨fewer, value, hvalue, h⟩ := h.field hf rfl
  obtain ⟨items, rfl, hitems⟩ := h.items
  refine ⟨items, hvalue, fun item hitem => ?_⟩
  obtain ⟨i, h⟩ := hitems item hitem
  obtain ⟨struct, rfl, -⟩ := h.record
  exact ⟨struct, rfl, hP _ _ _ h⟩

namespace Objects

open Fields

/-- A modification names no object, or the one that it is in. -/
def OwnedBy (object modification : Document) : Prop :=
  ∃ parent, modification.get? "parent_object_id" = some parent ∧
    (parent = .int 0 ∨ ∃ name ∈ objectIds, object.get? name = some parent)

/-- All modifications of all objects in both tables are owned by their object. -/
def Owned (document : Document) : Prop :=
  ∀ name ∈ tableNames, ∃ table, document.get? name = some (.struct table) ∧
    table.Each "objects" fun object => object.Each "modifications" (OwnedBy object)

section

variable {codec : Codec} {scope : Scope} {object struct : Document}

/-- What is written for the object that a modification names is zero or in sight. -/
theorem resolve_of_parentObjectId
    (h : Visit.Accepted codec ⟨levels, path, parentObjectId, value, scope⟩) :
    value = .int 0 ∨ ∃ name ∈ objectIds, scope.resolve ⟨1, [name]⟩ = .ok value := by
  obtain ⟨written, h⟩ := h
  obtain ⟨ctx, hctx, -⟩ :=
    FieldType.exists_writeContext codec (FieldType.constantBytes codec) levels
  rw [Visit.write, hctx, parentObjectId, WriteContext.write] at h
  obtain ⟨type, hfirst, h⟩ := WriteContext.first_of_writeFirst h
  rw [← hctx] at h
  obtain rfl | rfl := List.mem_pair.mp hfirst.mem
  · rw [hctx, WriteContext.write] at h
    split at h
    · exact .inl (Value.eq_int_of_beq ‹_›)
    · cases h
  · obtain ⟨code, hcode, -⟩ := writeAt_someParent_ok h
    rw [hctx, WriteContext.write] at h
    split at h
    · rename_i hholds
      obtain ⟨name, hname, found, hfound, heq⟩ := namesEnclosingObject_iff.mp hholds
      obtain rfl := Value.eq_of_beq_of_asId? heq hcode
      exact .inr ⟨name, hname, hfound⟩
    · cases h

theorem ownedBy_of_accepted (h : Visit.Accepted codec
      ⟨levels, path, modification layout, .struct struct,
        scope.child object⟩) : OwnedBy object struct := by
  have hmem : ("parent_object_id", parentObjectId) ∈ [("modification_id", .id),
      ("variable_type", enumeration integer
        [("INT", 0), ("REAL", 1), ("UNREAL", 2), ("STRING", 3)])] ++
      variationFields layout ++
      [("value", modificationValue), ("parent_object_id", parentObjectId)] := by simp
  obtain ⟨_, parent, hparent, h⟩ := h.field hmem rfl
  refine ⟨parent, hparent, (resolve_of_parentObjectId h).imp_right ?_⟩
  rintro ⟨name, hname, hresolve⟩
  exact ⟨name, hname, Scope.resolve_outward.mp hresolve⟩

theorem each_of_accepted
    (h : Visit.Accepted codec ⟨levels, path, table layout, .struct struct, scope⟩) :
    struct.Each "objects" fun object => object.Each "modifications" (OwnedBy object) := by
  refine h.each (.tail _ (.head _)) fun _ _ object hobject => ?_
  exact hobject.each (.tail _ (.tail _ (.tail _ (.head _)))) fun _ _ _ => ownedBy_of_accepted

end

theorem owned_of_encode (h : (schema layout).encode options document = .ok written) :
    Owned document := by
  intro name hname
  have hmem : (name, table layout) ∈ (schema layout).fields := by
    obtain rfl | rfl := List.mem_pair.mp hname <;> simp [schema]
  obtain ⟨value, part, hvalue, hpart⟩ := Codec.writeFields_required h hmem rfl
  have haccepted : Visit.Accepted ((schema layout).codec options) ⟨_, _, table layout, value, _⟩ :=
    ⟨part, hpart⟩
  obtain ⟨struct, rfl, -⟩ := haccepted.record
  exact ⟨struct, hvalue, each_of_accepted haccepted⟩

/-- What a layout decodes or encodes has no modification that names another object than the
one around it. -/
theorem owned_of_accepted (h : (∃ bytes, (schema layout).decode options bytes = .ok document) ∨
    ∃ written, (schema layout).encode options document = .ok written) : Owned document := by
  obtain ⟨bytes, h⟩ | ⟨written, h⟩ := h
  · obtain ⟨taken, _, -, -, hencode⟩ := (retakes layout options).encode_taken h
    exact owned_of_encode hencode
  · exact owned_of_encode h

/-- A changed object whose modification names its new identifier. -/
theorem owned_of_accepted_newId : ∃ document,
    (schema .plain).decode {}
    [2, 0, 0, 0, 0, 0, 0, 0, 1, 0, 0, 0, 104, 102, 111, 111, 104, 48, 48, 48, 1, 0, 0, 0,
      117, 104, 112, 109, 0, 0, 0, 0, 5, 0, 0, 0, 104, 48, 48, 48] = .ok document ∧
        Owned document := by
  have h :
      (schema .plain).decode {}
      [2, 0, 0, 0, 0, 0, 0, 0, 1, 0, 0, 0, 104, 102, 111, 111, 104, 48, 48, 48, 1,
      0, 0, 0, 117, 104, 112, 109, 0, 0, 0, 0, 5, 0, 0, 0, 104, 48, 48, 48] = .ok _ := rfl
  exact ⟨_, h, owned_of_accepted (.inl ⟨_, h⟩)⟩

end Objects

end Mapsmith
