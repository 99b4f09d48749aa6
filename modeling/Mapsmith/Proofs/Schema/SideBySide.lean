import Mapsmith.Proofs.Schema.Running

/-!
# Types side by side

`Schema.decode_of_readsAs`: two types that differ may still take some values alike. What was
read as the one is read as the other, from the same bytes, if all that they differ in is not
there: the items of an array that is empty. And what is written as both has nothing in it that
only one of them takes.
-/

namespace Mapsmith

def Value.items (value : Value) : List Value := value.asArray?.getD []

/-- The items of the array under a name in a record, if there is one. -/
def Value.itemsAt (value : Value) (name : String) : List Value :=
  ((value.asStruct?.bind (·.get? name)).map items).getD []

-- ---------------------------------------------------------------------------
-- Reading
-- ---------------------------------------------------------------------------

namespace Decoder

variable {read read' : Decoder Value}

theorem mem_of_readTimes (h : readTimes read n index before start = .ok items stop)
    (hmem : item ∈ before) : item ∈ items := by
  induction n generalizing index before start with
  | zero =>
    obtain ⟨rfl, -⟩ := pure_run.mp h
    exact List.mem_reverse.mpr hmem
  | succ n ih =>
    obtain ⟨_, _, -, hrest⟩ := bind_run.mp h
    exact ih hrest (List.mem_cons_of_mem _ hmem)

theorem readTimes_imp (hread : ∀ item ∈ items, ∀ start stop, read start = .ok item stop →
    read' start = .ok item stop) (h : readTimes read n index before start = .ok items stop) :
    readTimes read' n index before start = .ok items stop := by
  induction n generalizing index before start with
  | zero => exact h
  | succ n ih =>
    obtain ⟨item, middle, hitem, hrest⟩ := bind_run.mp h
    obtain ⟨next, hnext, rfl⟩ := within_run.mp hitem
    have hmem : item ∈ items := mem_of_readTimes hrest List.mem_cons_self
    exact bind_run.mpr ⟨item, _, within_run.mpr ⟨next, hread item hmem _ _ hnext, rfl⟩, ih hrest⟩

variable {read : ValueReader} {scope : Document → Scope} {fields others : List (String × FieldType)}

theorem before_of_readFields {before : Document} (hn : (before.names ++ fields.map Prod.fst).Nodup)
    (h : readFields read scope fields before start = .ok final stop) : before.Before final := by
  induction fields generalizing before start with
  | nil =>
    obtain ⟨rfl, -⟩ := pure_run.mp h
    exact .refl _
  | cons field fields ih =>
    obtain ⟨value, _, -, hrest⟩ := bind_run.mp h
    obtain ⟨hnew, hn⟩ := Document.nodup_step value hn
    exact (Document.before_insert hnew value).trans (ih hn hrest)

theorem readFields_imp {before final : Document} (hn : (before.names ++ fields.map Prod.fst).Nodup)
    (hread : List.Forall₂ (fun field other => field.1 = other.1 ∧
      ∀ value, final.get? field.1 = some value →
      ∀ scope start stop, read field.2 scope start = .ok value stop →
        read other.2 scope start = .ok value stop)
      fields others)
    (h : readFields read scope fields before start = .ok final stop) :
    readFields read scope others before start = .ok final stop := by
  induction hread generalizing before start with
  | nil => exact h
  | @cons field other fields others hfield _ ih =>
    obtain ⟨name, type⟩ := field
    obtain ⟨_, type'⟩ := other
    obtain ⟨rfl, hfield⟩ := hfield
    obtain ⟨value, _, hvalue, hrest⟩ := bind_run.mp h
    obtain ⟨next, hnext, rfl⟩ := within_run.mp hvalue
    obtain ⟨hnew, hn⟩ := Document.nodup_step value hn
    have hget : final.get? name = some value := by
      refine (before_of_readFields hn hrest).get? ?_
      rw [Document.get?_insert, if_pos rfl]
    exact bind_run.mpr ⟨value, _, within_run.mpr ⟨next, hfield value hget _ _ _ hnext, rfl⟩,
      ih hn hrest⟩

end Decoder

namespace FieldType

/-- What is read as the one type and has the property is read as the other type too. -/
def ReadsAs (P : Value → Prop) (type other : FieldType) : Prop :=
  ∀ codec levels scope start value stop, P value →
    readAt codec levels type scope start = .ok value stop →
    readAt codec levels other scope start = .ok value stop

theorem ReadsAs.refl (P : Value → Prop) (type : FieldType) : ReadsAs P type type :=
  fun _ _ _ _ _ _ _ h => h

theorem ReadsAs.mono {P Q : Value → Prop} (h : ReadsAs Q type other)
    (himp : ∀ value, P value → Q value) :
    ReadsAs P type other :=
  fun codec levels scope start value stop hp => h codec levels scope start value stop
    (himp value hp)

theorem ReadsAs.array (hlength : length ≠ .remaining) (h : ReadsAs P element other) :
    ReadsAs (fun value => ∀ item ∈ value.items, P item) (.array length element)
      (.array length other) := by
  intro codec levels scope start value stop hitems hrun
  have helement := h codec levels scope
  obtain ⟨ctx, hctx, -⟩ := exists_readContext codec levels
  rw [hctx] at hrun helement ⊢
  obtain ⟨n, items, hasks, htimes, rfl⟩ := (ReadContext.read_array_run hlength).mp hrun
  refine (ReadContext.read_array_run hlength).mpr ⟨n, items, hasks, ?_, rfl⟩
  exact Decoder.readTimes_imp
    (fun item hmem start stop => helement start item stop (hitems item hmem)) htimes

theorem ReadsAs.record {fields others : List (String × FieldType)} {P : String → Value → Prop}
    (hn : (fields.map Prod.fst).Nodup)
    (h : List.Forall₂ (fun field other => field.1 = other.1 ∧
      ReadsAs (P field.1) field.2 other.2) fields others) :
    ReadsAs (fun value => ∀ document, value = .struct document →
        ∀ name found, document.get? name = some found → P name found)
      (.record name fields) (.record name' others) := by
  intro codec levels scope start value stop hfields hrun
  obtain ⟨ctx, hctx, rfl, hdeeper⟩ := exists_readContext codec levels
  rw [hctx, ReadContext.read, ReadContext.descend_run] at hrun ⊢
  obtain ⟨read, hread, hrun⟩ := hrun
  obtain ⟨document, hdocument, rfl⟩ := Decoder.map_run.mp hrun
  obtain ⟨n, -, rfl⟩ := hdeeper read hread
  refine ⟨_, hread, Decoder.map_run.mpr
    ⟨document, Decoder.readFields_imp
      (by simpa [Document.empty, Document.names] using hn) ?_ hdocument, rfl⟩⟩
  exact h.imp fun field other hfield => ⟨hfield.1, fun value hvalue scope start stop =>
    hfield.2 _ _ scope start value stop (hfields document rfl _ _ hvalue)⟩

/-- Records that differ in the items of one array. -/
theorem ReadsAs.itemsAt {P : Value → Prop} (before after : List (String × FieldType))
    (hlength : length ≠ .remaining)
    (hn : ((before ++ (field, .array length element) :: after).map Prod.fst).Nodup)
    (h : ReadsAs P element other) :
    ReadsAs (fun value => ∀ item ∈ value.itemsAt field, P item)
      (.record name (before ++ (field, .array length element) :: after))
      (.record name' (before ++ (field, .array length other) :: after)) := by
  let Q : String → Value → Prop := fun name value => name = field → ∀ item ∈ value.items, P item
  let Reads : String × FieldType → String × FieldType → Prop := fun field other =>
    field.1 = other.1 ∧ ReadsAs (Q field.1) field.2 other.2
  have hrefl (fields : List (String × FieldType)) : List.Forall₂ Reads fields fields :=
    List.forall₂_same.mpr fun _ _ => ⟨rfl, .refl _ _⟩
  have harray : ReadsAs (Q field) (.array length element) (.array length other) :=
    (h.array hlength).mono fun _ hitems => hitems rfl
  have hfields : List.Forall₂ Reads (before ++ (field, .array length element) :: after)
      (before ++ (field, .array length other) :: after) :=
    List.rel_append (hrefl before) (.cons ⟨rfl, harray⟩ (hrefl after))
  refine (ReadsAs.record hn hfields).mono fun value hitems document hdocument found value hfound
    hname => ?_
  subst hdocument hname
  simpa [Value.itemsAt, Value.asStruct?, hfound] using hitems

end FieldType

/-- What decodes by one schema decodes by another, if each of its fields is read as the field
of the other schema. -/
theorem Schema.decode_of_readsAs {schema other : Schema} {P : String → Value → Prop}
    (hd : schema.definitions = other.definitions) (hn : (schema.fields.map Prod.fst).Nodup)
    (h : List.Forall₂ (fun field other => field.1 = other.1 ∧
      FieldType.ReadsAs (P field.1) field.2 other.2)
      schema.fields other.fields)
    (hfields : ∀ name value, document.get? name = some value → P name value)
    (hdecode : schema.decode options bytes = .ok document) :
    other.decode options bytes = .ok document := by
  have hcodec : schema.codec options = other.codec options := congrArg (Codec.mk options) hd
  obtain ⟨stop, hrun, hrest⟩ := decode_ok.mp hdecode
  refine decode_ok.mpr ⟨stop, ?_, hrest⟩
  rw [decoder, hcodec] at hrun
  refine Decoder.readFields_imp (by simpa [Document.empty, Document.names] using hn) ?_ hrun
  exact h.imp fun field other hfield => ⟨hfield.1, fun value hvalue scope start stop =>
    hfield.2 _ _ scope start value stop (hfields _ _ hvalue)⟩

-- ---------------------------------------------------------------------------
-- Writing
-- ---------------------------------------------------------------------------

namespace FieldType

/-- The value is written as the type somewhere. -/
def Writes (type : FieldType) (value : Value) : Prop :=
  ∃ (codec : Codec) (constantBytes : FieldType → Value →
    Option Bytes) (levels : Nat) (path : FieldPath)
      (scope : Scope) (written : Bytes),
      writeAt codec constantBytes levels path type value scope = .ok written

/-- The document is written as a record of the fields somewhere. -/
structure WritesFields (fields : List (String × FieldType)) (document : Document) : Prop where
  known : ∀ name ∈ document.names, name ∈ fields.map Prod.fst
  present : ∀ field ∈ fields, ∀ value, document.get? field.1 = some value → field.2.Writes value
  absent : ∀ field ∈ fields, document.get? field.1 = none →
    ∃ write path scope written, Codec.writeMissing write path scope field.2 = .ok written

theorem WritesFields.of_writeFields {codec : Codec}
    {constantBytes : FieldType → Value → Option Bytes}
    {levels : Nat} {fields : List (String × FieldType)} {scope : Scope}
    (h : Codec.writeFields (writeAt codec constantBytes levels) path scope fields = .ok written) :
    WritesFields fields scope.current := by
  obtain ⟨hknown, parts, hparts, -⟩ := Codec.writeFields_ok.mp h
  have hwritten : ∀ field ∈ fields, ∃ part,
      Codec.WritesField (writeAt codec constantBytes levels) path scope field part := by
    intro field hf
    obtain ⟨i, hi, rfl⟩ := List.getElem_of_mem hf
    exact ⟨_, hparts.get hi (hparts.length_eq ▸ hi)⟩
  refine ⟨hknown, fun field hf value hvalue => ?_, fun field hf hnone => ?_⟩
  · obtain ⟨part, hpart⟩ := hwritten field hf
    rw [Codec.WritesField, hvalue] at hpart
    exact ⟨_, _, _, _, _, _, hpart⟩
  · obtain ⟨part, hpart⟩ := hwritten field hf
    rw [Codec.WritesField, hnone] at hpart
    exact ⟨_, _, _, _, hpart⟩

theorem Writes.of_record (h : (FieldType.record name fields).Writes value) :
    ∃ document, value.asStruct? = some document ∧ WritesFields fields document := by
  obtain ⟨_, _, _, _, _, _, h⟩ := h
  obtain ⟨_, document, hdocument, hfields⟩ := writeAt_record_ok h
  exact ⟨document, hdocument, WritesFields.of_writeFields hfields⟩

theorem Writes.of_array (h : (FieldType.array length element).Writes value) :
    ∀ item ∈ value.items, element.Writes item := by
  obtain ⟨codec, constantBytes, levels, path, scope, written, h⟩ := h
  obtain ⟨ctx, hctx, -⟩ := exists_writeContext codec constantBytes levels
  rw [hctx, WriteContext.write] at h
  simp only [bind_ok, Codec.expect_ok, Codec.writeItems_ok, Codec.writesFrom_iff] at h
  obtain ⟨items, hitems, _, -, parts, hparts, -⟩ := h
  intro item hmem
  rw [Value.items, hitems] at hmem
  obtain ⟨i, hi, rfl⟩ := List.getElem_of_mem hmem
  have hi' : i < items.zipIdx.length := by simpa using hi
  obtain ⟨part, hitem⟩ :
      ∃ part, ctx.write (path.push (.index (0 + i))) element items[i] scope = .ok part := by
    have hitem := hparts.get hi' (hparts.length_eq ▸ hi')
    simp only [List.get_eq_getElem, List.getElem_zipIdx] at hitem
    exact ⟨_, hitem⟩
  exact ⟨codec, constantBytes, levels, path.push (.index (0 + i)), scope, part, hctx ▸ hitem⟩

theorem Writes.itemsAt {fields : List (String × FieldType)}
    (h : (FieldType.record name fields).Writes value)
    (hf : (field, .array length element) ∈ fields) :
    ∀ item ∈ value.itemsAt field, element.Writes item := by
  obtain ⟨document, hdocument, hfields⟩ := h.of_record
  intro item hmem
  rw [Value.itemsAt, hdocument, Option.bind_some] at hmem
  cases hfound : document.get? field with
  | none => simp [hfound] at hmem
  | some found =>
    rw [hfound, Option.map_some, Option.getD_some] at hmem
    exact (hfields.present _ hf found hfound).of_array item hmem

end FieldType

theorem Schema.writesFields_of_encode {schema : Schema}
    (h : schema.encode options document = .ok written) :
    FieldType.WritesFields schema.fields document :=
  FieldType.WritesFields.of_writeFields h

end Mapsmith
