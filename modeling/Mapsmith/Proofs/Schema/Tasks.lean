import Mapsmith.Proofs.Schema.Meaning

/-!
# The ways of the codecs through a document

`Task.Written.part`, `Task.Lies.part`: both codecs go from a value to its parts, and on the way
they decide: which case of a switch it is, how many items a length asks for, which branch a
condition takes. A task is one call on this way, found from the document by the numbers of the
parts, and its decision is what the codec computes there. The encoder computes it from the
fields of the document it is given, the decoder from those it has read so far. Where a value is
written, each of its parts is written as some of its bytes, and where it lies, each of its
parts lies among its cells.
-/

namespace Mapsmith

/-- One call of a codec: a type, the fields in sight, and the value that is written
or read. -/
structure Task where
  type : FieldType
  scope : Scope
  value : Value

/-- Where encoding and decoding go on in different ways. -/
structure Side where
  /-- The value at the inner type of a constant, from the expected one and the one
  at hand. -/
  constant : Value → Value → Value
  /-- The raw value of an enumerated one. -/
  raw : List (String × Value) → Value → Value
  /-- What is in sight of a record at its field of that number. -/
  shown : Document → Nat → Document

namespace Side

/-- The encoder writes its own copy of a constant and of a known raw value, and sees
the whole record. -/
def encoder : Side where
  constant expected _ := expected
  raw := Codec.rawValue
  shown document _ := document

/-- The decoder has read the value, and sees the fields before it. -/
def decoder : Side where
  constant _ value := value
  raw
    | _, .enum _ raw => raw
    | _, value => value
  shown document i := ⟨document.entries.take i⟩

def field? (side : Side) (fields : List (String × FieldType)) (scope : Document → Scope)
    (document : Document) (i : Nat) : Option Task := do
  let field ← fields[i]?
  let value ← document.held? field
  return ⟨field.2, scope (side.shown document i), value⟩

end Side

/-- What a codec decides about a value before it goes on. -/
inductive Decision where
  /-- The case of a switch by its number, or none for the default. -/
  | case (number : Option Nat)
  /-- The number of items, or none if it is not limited. -/
  | count (items : Option Nat)
  | branch (truth : Bool)
  deriving DecidableEq

namespace Task

/-- The decision that the type makes in the scope, if it makes one. -/
def decision (task : Task) : Except CodecError (Option Decision) :=
  match task.type with
  | .switch on cases _ => do
    let discriminant ← answered (task.scope.resolve on)
    return some (.case (cases.findIdx? fun case => case.1.matches discriminant))
  | .bytes length | .array length _ => do
    return some (.count (← length.count FieldPath.root task.scope))
  | .conditional condition _ _ => return some (.branch (← answered (condition task.scope)))
  | _ => return none

/-- The task for the part of that number; the number counts only where there are
several parts. -/
def part? (side : Side) (definitions : Nat → FieldType) (task : Task) (i : Nat) : Option Task :=
  match task.type with
  | .const inner expected => some ⟨inner, task.scope, side.constant expected task.value⟩
  | .enum repr variants => some ⟨repr, task.scope, side.raw variants task.value⟩
  | .record _ fields => do
    let document ← task.value.asStruct?
    side.field? fields task.scope.child document i
  | .array _ element | .greedy element => do
    let item ← (← task.value.asArray?)[i]?
    return ⟨element, task.scope, item⟩
  | .sequence types => do
    let type ← types[i]?
    let item ← (← task.value.asArray?)[i]?
    return ⟨type, task.scope, item⟩
  | .switch on cases default =>
    match task.scope.resolve on with
    | .ok discriminant =>
      (FieldType.pick? cases default discriminant).map fun type => ⟨type, task.scope, task.value⟩
    | .error _ => none
  | .conditional condition yes no =>
    match condition task.scope with
    | .ok truth => some ⟨if truth then yes else no, task.scope, task.value⟩
    | .error _ => none
  | .checked _ _ inner | .padded _ inner => some ⟨inner, task.scope, task.value⟩
  | .lazy slot => some ⟨definitions slot, task.scope, task.value⟩
  | _ => none

end Task

/-- The task at a position: the number of a field, and of a part for each step from
there. -/
def Schema.task? (schema : Schema) (side : Side) (options : CodecOptions) (document : Document) :
    List Nat → Option Task
  | [] => none
  | i :: position => do
    position.foldlM (Task.part? side schema.definitions)
      (← side.field? schema.fields (Scope.root · options) document i)

-- ---------------------------------------------------------------------------
-- The tasks of the encoder
-- ---------------------------------------------------------------------------

namespace Task

/-- The encoder writes the value there, as some of the bytes. -/
def Written (codec : Codec) (bytes : Bytes) (task : Task) : Prop :=
  ∃ levels path written, written <:+: bytes ∧
    FieldType.writeAt codec (FieldType.constantBytes codec) levels path task.type task.value
      task.scope = .ok written

/-- The decoder reads the value there, from what is left of the bytes at some place. -/
def Read (codec : Codec) (bytes : Bytes) (task : Task) : Prop :=
  ∃ levels start stop, start.rest <:+ bytes ∧
    FieldType.readAt codec levels task.type task.scope start = .ok task.value stop

end Task

variable {codec : Codec} {sight : Sight}

open Codec

theorem Codec.WritesFrom.item {write : FieldPath → Value → Except CodecError Bytes}
    {items : List Value} {item : Value} {i : Nat} (hw : WritesFrom write path index items written)
    (hi : items[i]? = some item) :
    ∃ part, part <:+: written ∧ write (path.push (.index (index + i))) item = .ok part := by
  induction items generalizing index i written with
  | nil => cases hi
  | cons first items ih =>
    obtain ⟨part, rest, hpart, hrest, rfl⟩ := hw
    cases i with
    | zero =>
      cases hi
      exact ⟨part, (List.prefix_append _ _).isInfix, hpart⟩
    | succ i =>
      obtain ⟨other, hinfix, hother⟩ := ih hrest hi
      rw [Nat.add_right_comm] at hother
      exact ⟨other, hinfix.trans (List.suffix_append _ _).isInfix, hother⟩

theorem WriteContext.writeSequence_item {ctx : WriteContext} {i : Nat}
    (hw : ctx.writeSequence path index types items scope = .ok written)
    (ht : types[i]? = some type) (hi : items[i]? = some item) :
    ∃ part, part <:+: written ∧
      ctx.write (path.push (.index (index + i))) type item scope = .ok part := by
  induction types generalizing index i items written with
  | nil => cases ht
  | cons first types ih =>
    cases items with
    | nil => cases hi
    | cons other items =>
      simp only [writeSequence, bind_ok, pure_ok] at hw
      obtain ⟨part, hpart, rest, hrest, rfl⟩ := hw
      cases i with
      | zero =>
        cases ht
        cases hi
        exact ⟨part, (List.prefix_append _ _).isInfix, hpart⟩
      | succ i =>
        obtain ⟨other, hinfix, hother⟩ := ih hrest ht hi
        rw [Nat.add_right_comm] at hother
        exact ⟨other, hinfix.trans (List.suffix_append _ _).isInfix, hother⟩

theorem Codec.writeFields_field {scope : Scope} {fields : List (String × FieldType)} {i : Nat}
    (hs : ∀ field ∈ fields, ∃ seen,
      Site.Everywhere codec.definitions (Site.Settled codec sight) ⟨seen, field.2⟩)
    (hw : writeFields (FieldType.writeAt codec (FieldType.constantBytes codec) levels) path scope
      fields = .ok written) (hf : fields[i]? = some field)
    (hv : scope.current.held? field = some value) :
    ∃ path part, part <:+: written ∧
      FieldType.writeAt codec (FieldType.constantBytes codec) levels path field.2 value scope =
        .ok part := by
  obtain ⟨-, parts, hparts, rfl⟩ := writeFields_ok.mp hw
  obtain ⟨hi, rfl⟩ := List.getElem?_eq_some_iff.mp hf
  have hi' := hparts.length_eq ▸ hi
  obtain ⟨seen, hsite⟩ := hs _ (List.getElem_mem hi)
  refine ⟨_, parts[i], ?_, (hparts.get hi hi').held hsite hv⟩
  exact List.infix_of_mem_flatten (List.getElem_mem hi')

theorem Task.Written.part {task next : Task} (h : task.Written codec bytes)
    (hs : Site.Everywhere codec.definitions (Site.Settled codec sight) ⟨seen, task.type⟩)
    (hp : task.part? .encoder codec.definitions i = some next) : next.Written codec bytes := by
  obtain ⟨type, scope, value⟩ := task
  obtain ⟨levels, path, written, hinfix, hw⟩ := h
  obtain ⟨deeper, hctx, hdeeper⟩ :=
    FieldType.exists_writeAt codec (FieldType.constantBytes codec) levels
  rw [hctx] at hw
  -- The part is written in the same record, unless it is a field or behind a lazy one.
  have here {path : FieldPath} {next : Task} {part : Bytes} (hpart : part <:+: written)
      (hw : WriteContext.write ⟨codec, FieldType.constantBytes codec, deeper⟩ path next.type
        next.value next.scope = .ok part) : next.Written codec bytes :=
    ⟨levels, path, part, hpart.trans hinfix, hctx ▸ hw⟩
  cases type with
  | const inner expected =>
    cases hp
    rw [WriteContext.write] at hw
    split at hw
    · exact here List.infix_rfl hw
    · cases hw
  | enum repr variants =>
    cases hp
    rw [WriteContext.write] at hw
    exact here List.infix_rfl hw
  | record name fields =>
    simp only [WriteContext.write, bind_ok, expect_ok, WriteContext.descend_ok] at hw
    obtain ⟨document, hd, write, hwrite, hw⟩ := hw
    obtain ⟨fewer, rfl⟩ := hdeeper write hwrite
    simp only [part?, hd, Side.field?, Option.bind_eq_bind, Option.bind_some,
      Option.bind_eq_some_iff, Option.pure_def, Option.some.injEq] at hp
    obtain ⟨field, hf, held, hv, rfl⟩ := hp
    have hsites : ∀ field ∈ fields, ∃ seen,
        Site.Everywhere codec.definitions (Site.Settled codec sight) ⟨seen, field.2⟩ := by
      intro field hf
      exact hs.field hf
    obtain ⟨path, part, hpart, hw⟩ := writeFields_field hsites hw hf hv
    exact ⟨fewer, path, part, hpart.trans hinfix, hw⟩
  | array length element =>
    simp only [WriteContext.write, bind_ok, expect_ok, writeItems_ok] at hw
    obtain ⟨items, hitems, _, _, hw⟩ := hw
    simp only [part?, hitems, Option.bind_eq_bind, Option.bind_some, Option.bind_eq_some_iff,
      Option.pure_def, Option.some.injEq] at hp
    obtain ⟨item, hi, rfl⟩ := hp
    obtain ⟨part, hpart, hw⟩ := hw.item hi
    exact here hpart hw
  | greedy element => exact hs.here.recovers.recoverable.elim
  | sequence types =>
    obtain ⟨items, hitems, -, hw⟩ := WriteContext.write_sequence_ok.mp hw
    simp only [part?, hitems, Option.bind_eq_bind, Option.bind_some, Option.bind_eq_some_iff,
      Option.pure_def, Option.some.injEq] at hp
    obtain ⟨type, ht, item, hi, rfl⟩ := hp
    obtain ⟨part, hpart, hw⟩ := WriteContext.writeSequence_item hw ht hi
    exact here hpart hw
  | switch on cases default =>
    obtain ⟨discriminant, type, hdisc, hpick, hw⟩ := WriteContext.write_switch_ok.mp hw
    simp only [part?, hdisc, hpick, Option.map_some, Option.some.injEq] at hp
    subst hp
    exact here List.infix_rfl hw
  | conditional condition yes no =>
    simp only [WriteContext.write, bind_ok, answered_ok] at hw
    obtain ⟨truth, htruth, hw⟩ := hw
    simp only [part?, htruth, Option.some.injEq] at hp
    subst hp
    have hbranch : WriteContext.write ⟨codec, FieldType.constantBytes codec, deeper⟩ path
        (if truth then yes else no) value scope = .ok written := by
      cases truth <;> exact hw
    exact here List.infix_rfl hbranch
  | checked relation holds inner =>
    cases hp
    rw [WriteContext.write] at hw
    split at hw
    · exact here List.infix_rfl hw
    · cases hw
  | padded size inner =>
    cases hp
    simp only [WriteContext.write, bind_ok, fillBlock_ok] at hw
    obtain ⟨content, hcontent, -, rfl⟩ := hw
    exact here (List.prefix_append _ _).isInfix hcontent
  | lazy slot =>
    cases hp
    rw [WriteContext.write, WriteContext.descend_ok] at hw
    obtain ⟨write, hwrite, hw⟩ := hw
    obtain ⟨fewer, rfl⟩ := hdeeper write hwrite
    exact ⟨fewer, path, written, hinfix, hw⟩
  | _ => cases hp

-- ---------------------------------------------------------------------------
-- The tasks of the decoder
-- ---------------------------------------------------------------------------

/-- The value of the task lies in the cells. -/
def Task.Lies (codec : Codec) (task : Task) (left : Nat) (cells : Cells) : Prop :=
  ∃ levels, FieldType.LiesAt codec levels task.type task.scope left task.value cells

/-- Some cells in a row, of which the last ones are followed by so many others. -/
def Cells.Holds (lies : Nat → Cells → Prop) (left : Nat) (cells : Cells) : Prop :=
  ∃ before inner after : Cells, cells = before ++ inner ++ after ∧
    lies (left + after.length) inner

theorem Cells.Holds.here {lies : Nat → Cells → Prop} {cells : Cells} (h : lies left cells) :
    cells.Holds lies left :=
  ⟨[], cells, [], by simp, h⟩

theorem Cells.Holds.before {lies : Nat → Cells → Prop} {cells : Cells} (first : Cells)
    (h : cells.Holds lies left) : (first ++ cells).Holds lies left := by
  obtain ⟨before, inner, after, rfl, hlies⟩ := h
  exact ⟨first ++ before, inner, after, by simp, hlies⟩

theorem ItemsLie.item {item : ValueLayout} {items : List Value} {i : Nat}
    (h : ItemsLie item left items cells) (hi : items[i]? = some value) :
    cells.Holds (fun left cells => item left value cells) left := by
  induction h generalizing i with
  | nil => cases hi
  | @cons first cells items rest hfirst _ ih =>
    cases i with
    | zero =>
      cases hi
      exact ⟨[], cells, rest, by simp, hfirst⟩
    | succ i => exact (ih hi).before cells

theorem FieldType.SequenceLies.item {below : Option Layout} {types : List FieldType}
    {items : List Value} {i : Nat} (h : SequenceLies codec below types scope left items cells)
    (ht : types[i]? = some type) (hi : items[i]? = some value) :
    cells.Holds (fun left cells => Lies codec below type scope left value cells) left := by
  induction types generalizing i items cells with
  | nil => cases ht
  | cons first types ih =>
    obtain ⟨found, rest, cells, others, rfl, rfl, hfound, hrest⟩ := h
    cases i with
    | zero =>
      cases ht
      cases hi
      exact ⟨[], cells, others, by simp, hfound⟩
    | succ i => exact (ih hrest ht hi).before cells

theorem FieldsLie.field {layout : Layout} {scope : Document → Scope}
    {fields : List (String × FieldType)} {field : String × FieldType} {i : Nat}
    (document : Document)
    (h : FieldsLie layout scope fields document left final cells)
    (hn : (document.names ++ fields.map Prod.fst).Nodup) (hf : fields[i]? = some field)
    (hv : final.get? field.1 = some value) :
    cells.Holds (fun left cells => layout field.2
      (scope ⟨final.entries.take (document.size + i)⟩) left value cells) left := by
  induction h generalizing i with
  | nil => cases hf
  | @cons name type fields document left first cells final rest hfirst hlie ih =>
    obtain ⟨hnew, hn⟩ := Document.nodup_step first hn
    have hinserted := (FieldsLie.names _ hlie hn).1
    cases i with
    | zero =>
      cases hf
      have hget : final.get? name = some first :=
        hinserted.get? (by rw [Document.get?_insert, if_pos rfl])
      cases hget.symm.trans hv
      obtain ⟨others, hothers⟩ := (Document.before_insert hnew _).trans hinserted
      have htake : ⟨final.entries.take (document.size + 0)⟩ = document := by
        cases document
        rw [← hothers, Nat.add_zero, Document.size, List.take_left]
      refine ⟨[], cells, rest, by simp, ?_⟩
      rw [htake]
      exact hfirst
    | succ i =>
      have hsize : (document.insert name first).size + i = document.size + (i + 1) := by
        rw [Document.insert_of_notMem hnew, Document.size, Document.size]
        simp
        omega
      exact (hsize ▸ ih hn hf hv).before cells

theorem FieldType.exists_liesAt (codec : Codec) (levels : Nat) :
    ∃ deeper, LiesAt codec levels = Lies codec deeper ∧
      ∀ layout ∈ deeper, ∃ fewer, layout = LiesAt codec fewer := by
  cases levels with
  | zero => exact ⟨none, rfl, nofun⟩
  | succ levels => exact ⟨some _, rfl, by rintro _ ⟨⟩; exact ⟨levels, rfl⟩⟩

theorem Task.Lies.part {task next : Task} (h : task.Lies codec left cells)
    (hs : Site.Everywhere codec.definitions Site.Recovers ⟨seen, task.type⟩)
    (hp : task.part? .decoder codec.definitions i = some next) :
    cells.Holds (next.Lies codec) left := by
  obtain ⟨type, scope, value⟩ := task
  obtain ⟨levels, hlies⟩ := h
  obtain ⟨deeper, hlayout, hdeeper⟩ := FieldType.exists_liesAt codec levels
  rw [hlayout] at hlies
  -- The part lies in the same record, unless it is a field or behind a lazy one.
  have here {next : Task} (h : cells.Holds (fun left cells => FieldType.Lies codec deeper next.type
      next.scope left next.value cells) left) : cells.Holds (next.Lies codec) left := by
    obtain ⟨before, inner, after, heq, h⟩ := h
    exact ⟨before, inner, after, heq, levels, hlayout ▸ h⟩
  cases type with
  | const inner expected =>
    cases hp
    exact here (.here hlies.1)
  | enum repr variants =>
    cases hp
    obtain ⟨raw, hraw, rfl⟩ := hlies
    exact here (.here hraw)
  | record name fields =>
    obtain ⟨layout, hl, document, hfields, rfl⟩ := hlies
    obtain ⟨fewer, rfl⟩ := hdeeper layout hl
    simp only [part?, Value.asStruct?, Side.field?, Option.bind_eq_bind, Option.bind_some,
      Option.bind_eq_some_iff, Option.pure_def, Option.some.injEq] at hp
    obtain ⟨field, hf, held, hv, rfl⟩ := hp
    have hnames := hfields.names_eq hs.here.names
    rw [Document.held?_of_names hnames (List.mem_of_getElem? hf)] at hv
    obtain ⟨before, inner, after, heq, h⟩ := hfields.field .empty hs.here.names hf hv
    rw [show Document.empty.size + i = i from Nat.zero_add i] at h
    exact ⟨before, inner, after, heq, fewer, h⟩
  | array length element =>
    obtain ⟨items, rfl, hitems⟩ := hlies
    simp only [part?, Value.asArray?, Option.bind_eq_bind, Option.bind_some,
      Option.bind_eq_some_iff, Option.pure_def, Option.some.injEq] at hp
    obtain ⟨item, hi, rfl⟩ := hp
    obtain ⟨-, hlie⟩ :=
      hitems.resolve_right fun h => Length.not_asks_none hs.here.recoverable h.1
    exact here (hlie.item hi)
  | greedy element => exact hs.here.recoverable.elim
  | sequence types =>
    obtain ⟨items, rfl, hlie⟩ := hlies
    simp only [part?, Value.asArray?, Option.bind_eq_bind, Option.bind_some,
      Option.bind_eq_some_iff, Option.pure_def, Option.some.injEq] at hp
    obtain ⟨type, ht, item, hi, rfl⟩ := hp
    exact here (hlie.item ht hi)
  | switch on cases default =>
    obtain ⟨discriminant, type, hdisc, hpick, hlies⟩ := FieldType.switch_lies_iff.mp hlies
    simp only [part?, hdisc, hpick, Option.map_some, Option.some.injEq] at hp
    subst hp
    exact here (.here hlies)
  | conditional condition yes no =>
    obtain ⟨htruth, hlies⟩ | ⟨htruth, hlies⟩ := hlies
    all_goals
      simp only [part?, htruth, Option.some.injEq] at hp
      subst hp
      exact here (.here hlies)
  | checked relation holds inner =>
    cases hp
    exact here (.here hlies.1)
  | padded size inner =>
    cases hp
    obtain ⟨content, hle, hlies, rfl⟩ := hlies
    refine here ⟨[], content, .gap (size - content.length), rfl, ?_⟩
    simpa [Cells.gap] using hlies
  | lazy slot =>
    cases hp
    obtain ⟨layout, hl, hlies⟩ := hlies
    obtain ⟨fewer, rfl⟩ := hdeeper layout hl
    exact .here ⟨fewer, hlies⟩
  | _ => cases hp

/-- The value of the task lies in some of the bytes, whatever comes after these. -/
def Task.LiesIn (codec : Codec) (bytes : Bytes) (task : Task) : Prop :=
  ∃ (cells : Cells) (before taken after : Bytes), bytes = before ++ taken ++ after ∧
    cells.Match taken ∧ task.Lies codec after.length cells

theorem Task.LiesIn.of_holds {task : Task} (before : Bytes) {taken after : Bytes}
    (hbytes : bytes = before ++ taken ++ after) (hmatch : Cells.Match cells taken)
    (h : cells.Holds (task.Lies codec) after.length) : task.LiesIn codec bytes := by
  obtain ⟨first, inner, last, rfl, hlies⟩ := h
  obtain ⟨_, takenLast, rfl, hmatch, hlast⟩ := Cells.match_append.mp hmatch
  obtain ⟨takenFirst, taken, rfl, -, hinner⟩ := Cells.match_append.mp hmatch
  refine ⟨inner, before ++ takenFirst, taken, takenLast ++ after, by simp [hbytes], hinner, ?_⟩
  rwa [List.length_append, Nat.add_comm, ← hlast.length]

theorem Task.LiesIn.read {task : Task} (h : task.LiesIn codec bytes)
    (hs : Site.Everywhere codec.definitions Site.NoSelection ⟨seen, task.type⟩) :
    task.Read codec bytes := by
  obtain ⟨cells, before, taken, after, rfl, hmatch, levels, hlies⟩ := h
  have htakes : Place.Takes ⟨before.length, taken ++ after, .root⟩ taken
      ⟨before.length + taken.length, after, .root⟩ := ⟨rfl, rfl, rfl⟩
  refine ⟨levels, _, _, ?_, (FieldType.readAt_readsLayout codec levels _ _ _ hs _ _ _).mpr
    ⟨taken, cells, htakes, hmatch, hlies⟩⟩
  rw [List.append_assoc]
  exact List.suffix_append _ _

end Mapsmith
