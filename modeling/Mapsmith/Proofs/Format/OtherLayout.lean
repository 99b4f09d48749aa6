import Mapsmith.Proofs.Format.Objects
import Mapsmith.Proofs.Schema.SideBySide

/-!
# Object data in the other layout

`encode_other_layout`: the two layouts differ in the modifications only. One of the layout with
variations has a field that the plain layout does not know, and that cannot be left out, so no
modification is written in both. Object data without any read alike in both layouts.
-/

namespace Mapsmith.Objects

open Fields
open FieldType (ReadsAs)

def ObjectLayout.other : ObjectLayout → ObjectLayout
  | .plain => .withVariations
  | .withVariations => .plain

/-- What a table holds of each object. -/
def object (layout : ObjectLayout) : FieldType :=
  .record "ObjectDefinition"
    [("original_object_id", .id),
      ("new_object_id", .id),
      ("modifications_count", integer),
      ("modifications", counted "modifications_count" (modification layout))]

def Unmodified (object : Value) : Prop := object.itemsAt "modifications" = []

def tableNames : List String := ["original_objects_table", "custom_objects_table"]

/-- Some object in one of the two tables has a modification. -/
def Modified (document : Document) : Prop :=
  ∃ name ∈ tableNames, ∃ table, document.get? name = some table ∧
    ∃ object ∈ table.itemsAt "objects", ¬Unmodified object

-- ---------------------------------------------------------------------------
-- With a modification
-- ---------------------------------------------------------------------------

/-- A variation is unknown in the one layout and required in the other. -/
theorem not_writes_modification (h : (modification .withVariations).Writes value) :
    ¬(modification .plain).Writes value := by
  intro hplain
  obtain ⟨document, hdocument, hfields⟩ := h.of_record
  obtain ⟨_, hsame, hplain⟩ := hplain.of_record
  obtain rfl := Option.some.inj (hdocument.symm.trans hsame)
  cases hvariation : document.get? "variation" with
  | some found =>
    have hmem := hplain.known "variation" (Document.mem_names_iff.mpr ⟨found, hvariation⟩)
    simp [variationFields] at hmem
  | none =>
    have hmem : ("variation", integer) ∈ [("modification_id", .id),
        ("variable_type", enumeration integer
          [("INT", 0), ("REAL", 1), ("UNREAL", 2), ("STRING", 3)])] ++
        variationFields .withVariations ++
        [("value", modificationValue), ("parent_object_id", parentObjectId)] := by
      simp [variationFields]
    obtain ⟨_, _, _, _, hmissing⟩ := hfields.absent _ hmem hvariation
    cases hmissing

theorem not_writes_other_modification (h : (modification layout).Writes value) :
    ¬(modification layout.other).Writes value := by
  cases layout with
  | plain => exact fun hother => not_writes_modification hother h
  | withVariations => exact not_writes_modification h

theorem unmodified_of_writes (h : (object layout).Writes value)
    (h' : (object layout.other).Writes value) :
    Unmodified value := by
  have hmem (layout : ObjectLayout) :
      ("modifications", counted "modifications_count" (modification layout)) ∈
      [("original_object_id", .id), ("new_object_id", .id), ("modifications_count", integer),
        ("modifications", counted "modifications_count" (modification layout))] := by simp
  refine List.eq_nil_iff_forall_not_mem.mpr fun item hitem => ?_
  exact not_writes_other_modification (h.itemsAt (hmem layout) item hitem)
    (h'.itemsAt (hmem _) item hitem)

theorem unmodified_of_writes_table (h : (table layout).Writes value)
    (h' : (table layout.other).Writes value)
    (hmem : item ∈ value.itemsAt "objects") : Unmodified item := by
  have hfield (layout : ObjectLayout) : ("objects", counted "objects_count" (object layout)) ∈
      [("objects_count", integer), ("objects", counted "objects_count" (object layout))] := by simp
  exact unmodified_of_writes (h.itemsAt (hfield layout) item hmem) (h'.itemsAt (hfield _) item hmem)

theorem writes_table (hname : name ∈ tableNames)
    (hvalue : document.get? name = some value) (h : encode layout document = .ok written) :
    (table layout).Writes value := by
  refine (Schema.writesFields_of_encode h).present (name, table layout) ?_ value hvalue
  obtain rfl | rfl := List.mem_pair.mp hname <;> simp [schema]

theorem not_modified_of_encode (h : encode layout document = .ok written)
    (h' : encode layout.other document = .ok others) : ¬Modified document := by
  rintro ⟨name, hname, value, hvalue, item, hitem, hmodified⟩
  exact hmodified (unmodified_of_writes_table (writes_table hname hvalue h)
    (writes_table hname hvalue h') hitem)

-- ---------------------------------------------------------------------------
-- Without a modification
-- ---------------------------------------------------------------------------

theorem readsAs_object (layout other : ObjectLayout) :
    ReadsAs Unmodified (object layout) (object other) := by
  have hnever : ReadsAs (fun _ => False) (modification layout) (modification other) :=
    fun _ _ _ _ _ _ h => h.elim
  have hcount : Length.field (.ofText "modifications_count") ≠ .remaining := nofun
  refine (hnever.itemsAt [("original_object_id", .id), ("new_object_id", .id),
    ("modifications_count", integer)] [] hcount (by simp)).mono fun value hvalue item hitem => ?_
  rw [hvalue] at hitem
  cases hitem

theorem readsAs_table (layout other : ObjectLayout) :
    ReadsAs (fun value => ∀ item ∈ value.itemsAt "objects", Unmodified item) (table layout)
      (table other) := by
  have hcount : Length.field (.ofText "objects_count") ≠ .remaining := nofun
  exact (readsAs_object layout other).itemsAt [("objects_count", integer)] [] hcount (by simp)

theorem decode_of_unmodified (other : ObjectLayout) (hunmodified : ¬Modified document)
    (h : (schema layout).decode {} bytes = .ok document) :
    (schema other).decode {} bytes = .ok document := by
  let P : String → Value → Prop := fun name value => name ∈ tableNames →
    ∀ object ∈ value.itemsAt "objects", Unmodified object
  have htable (name : String) (hname : name ∈ tableNames) :
      ReadsAs (P name) (table layout) (table other) :=
    (readsAs_table layout other).mono fun _ hvalue => hvalue hname
  have hfields : List.Forall₂ (fun field other => field.1 = other.1 ∧
      ReadsAs (P field.1) field.2 other.2) (schema layout).fields (schema other).fields :=
    .cons ⟨rfl, .refl _ _⟩ (.cons ⟨rfl, htable "original_objects_table" (by simp [tableNames])⟩
      (.cons ⟨rfl, htable "custom_objects_table" (by simp [tableNames])⟩ .nil))
  have hvalues (name : String) (value : Value) (hvalue : document.get? name = some value) :
      P name value := by
    intro hname item hitem
    exact not_not.mp fun hmodified => hunmodified
      ⟨name, hname, value, hvalue, item, hitem, hmodified⟩
  have hdefinitions : (schema layout).definitions = (schema other).definitions := rfl
  exact Schema.decode_of_readsAs hdefinitions (names_nodup layout) hfields hvalues h

-- ---------------------------------------------------------------------------
-- What was found in one layout
-- ---------------------------------------------------------------------------

/-- A document is not saved in the layout that it was not found in, if it has a modification.
If it has none, it was found in the layout with variations, and both layouts save it alike. -/
theorem encode_other_layout (h : decode bytes = .ok (layout, document)) :
    (Modified document → ∃ fault, encode layout.other document = .error fault) ∧
      (¬Modified document → layout = .withVariations ∧
        encode layout.other document = .ok bytes) := by
  have hdecode : (schema layout).decode {} bytes = .ok document := by
    obtain ⟨rfl, hdecode⟩ | ⟨rfl, -, hdecode⟩ := decode_ok.mp h <;> exact hdecode
  refine ⟨fun hmodified => ?_, fun hunmodified => ?_⟩
  · cases hother : encode layout.other document with
    | error fault => exact ⟨fault, rfl⟩
    | ok others =>
      exact absurd hmodified
        (not_modified_of_encode ((retakes layout {}).encode rfl hdecode) hother)
  · have hlayout : layout = .withVariations := by
      obtain ⟨rfl, -⟩ | ⟨rfl, hnot, -⟩ := decode_ok.mp h
      · rfl
      · exact absurd (decode_of_unmodified .withVariations hunmodified hdecode) (hnot document)
    exact ⟨hlayout, (retakes layout.other {}).encode rfl
      (decode_of_unmodified _ hunmodified hdecode)⟩

/-- A file with a changed text is found in the plain layout and saved in no other. One with an
unchanged object is found in the layout with variations, and the plain layout saves it as well. -/
theorem captain_other_layout :
    (∃ fault, encode .withVariations (oneText "Captain") = .error fault) ∧ ∃ document,
      decode [2, 0, 0, 0, 0, 0, 0, 0, 1, 0, 0, 0, 104, 102, 111, 111, 104, 48, 48, 48, 0, 0, 0, 0] =
          .ok (.withVariations, document) ∧
        encode .plain document =
          .ok [2, 0, 0, 0, 0, 0, 0, 0, 1, 0, 0, 0, 104, 102, 111, 111, 104, 48, 48, 48, 0, 0, 0,
            0] := by
  have hplain :
      decode [2, 0, 0, 0, 0, 0, 0, 0, 1, 0, 0, 0, 104, 102, 111, 111, 104, 48, 48, 48, 1, 0,
        0, 0, 117,
      110, 97, 109, 3, 0, 0, 0, 67, 97, 112, 116, 97, 105, 110, 0, 0, 0, 0, 0] =
        .ok (.plain, oneText "Captain") :=
    rfl
  have hmodified : Modified (oneText "Captain") :=
    ⟨_, List.mem_cons_of_mem _ List.mem_cons_self, _, rfl, _, List.mem_cons_self, nofun⟩
  have hvariations :
      decode [2, 0, 0, 0, 0, 0, 0, 0, 1, 0, 0, 0, 104, 102, 111, 111, 104, 48, 48, 48, 0, 0, 0, 0] =
      .ok (.withVariations, ⟨[("version", .int 2),
        ("original_objects_table", .struct ⟨[("objects_count", .int 0), ("objects", .array [])]⟩),
        ("custom_objects_table", .struct ⟨[("objects_count", .int 1), ("objects", .array
          [.struct ⟨[("original_object_id", .id ⟨0x68, 0x66, 0x6f, 0x6f⟩),
            ("new_object_id", .id ⟨0x68, 0x30, 0x30, 0x30⟩), ("modifications_count", .int 0),
            ("modifications", .array [])]⟩])]⟩)]⟩) := rfl
  refine ⟨(encode_other_layout hplain).1 hmodified, _, hvariations,
    ((encode_other_layout hvariations).2 ?_).2⟩
  rintro ⟨name, hname, table, htable, object, hobject, hmodifications⟩
  simp only [tableNames, List.mem_cons, List.not_mem_nil, or_false] at hname
  obtain rfl | rfl := hname
  · cases htable
    cases hobject
  · cases htable
    cases hobject with
    | head => exact hmodifications rfl
    | tail _ hnone => cases hnone

end Mapsmith.Objects
