import Mapsmith.Proofs.Schema.Shown
import Mapsmith.Proofs.Schema.Running

/-!
# The decoder stays in its input

`Schema.decode_in_bounds`: decoding by checked operations is decoding: no slice, difference,
index or shift is out of range, and the position stays in the input. What is kept along the way
is that a place is one of the input, that the position does not go back where a value is read,
and that the path is only added to where one is refused. One lemma for each part of the decoder
keeps this, so that it holds for every type.

Only the constants that are shown in an error stand apart. The encoder that shows one fills the
blocks in it, however long they are, and shows a constant in it that does not match in the same
way, from the first level on. So a constant that leads back to itself through a lazy field is
shown without end, whatever limit there is on the depth of records.

The stack is not modelled, so nothing is said of how deep the records of a schema may be before
it runs out.
-/

namespace Mapsmith

/-- The place is one of the input. -/
structure Place.In (input : Bytes) (place : Place) : Prop where
  offset_le : place.offset ≤ input.length
  rest_eq : place.rest = input.drop place.offset

def Place.cursor (place : Place) : Cursor := ⟨place.offset, place.path⟩

/-- From `start` both runs come to the same end, which is in the input. With a value they
have not gone back, and without one the path leads on from that of `start`. -/
inductive Parallels (endless : Prop) (input : Bytes) (start : Place) :
    EStateM.Result Halt Cursor α → EStateM.Result CodecError Place α → Prop
  | ok {a stop} : stop.In input → start.offset ≤ stop.offset → stop.path = start.path →
      Parallels endless input start (.ok a stop.cursor) (.ok a stop)
  | error {error stop} : stop.In input → start.path.segments <:+ stop.path.segments →
      Parallels endless input start (.error (.failed error) stop.cursor) (.error error stop)
  | exhausted {stop : Cursor} {y} : endless → stop.position ≤ input.length →
      Parallels endless input start (.error .exhausted stop) y

/-- The checked operations do what the decoder does, from every place of the input. -/
def Guards (endless : Prop) (input : Bytes) (guarded : GuardedDecoder α)
    (decoder : Decoder α) : Prop :=
  ∀ start : Place, start.In input →
  Parallels endless input start (guarded start.cursor) (decoder start)

variable {endless : Prop} {input : Bytes}

/-- Runs from a place further on are runs from the one before. -/
theorem Parallels.after {start middle : Place} {x : EStateM.Result Halt Cursor α}
    {y : EStateM.Result CodecError Place α} (h : Parallels endless input middle x y)
    (hle : start.offset ≤ middle.offset) (hpath : middle.path = start.path) :
    Parallels endless input start x y := by
  cases h with
  | ok hin hle' hpath' => exact .ok hin (Nat.le_trans hle hle') (hpath'.trans hpath)
  | error hin hpath' => exact .error hin (hpath ▸ hpath')
  | exhausted hend hle => exact .exhausted hend hle

-- ---------------------------------------------------------------------------
-- Places
-- ---------------------------------------------------------------------------

theorem Place.start_in (input : Bytes) : (Place.start input).In input := ⟨Nat.zero_le _, rfl⟩

namespace Place.In

variable {start stop : Place}

theorem length_rest (h : start.In input) : start.rest.length = input.length - start.offset := by
  rw [h.rest_eq, List.length_drop]

theorem advance (h : start.In input) (hn : start.offset + n ≤ input.length) :
    (start.advance n).In input := by
  refine ⟨hn, ?_⟩
  show start.rest.drop n = input.drop (start.offset + n)
  rw [h.rest_eq, List.drop_drop]

theorem withPath (h : start.In input) (path : FieldPath) : Place.In input { start with path } :=
  ⟨h.offset_le, h.rest_eq⟩

theorem offset_add_le (h : start.In input) (hn : ¬(start.rest.take n).length < n) :
    start.offset + n ≤ input.length := by
  have hle := h.offset_le
  rw [List.length_take, h.length_rest] at hn
  omega

end Place.In

-- ---------------------------------------------------------------------------
-- Operations within their domain
-- ---------------------------------------------------------------------------

namespace GuardedDecoder

theorem moveTo_of_le (h : n ≤ input.length) :
    moveTo input n = modify fun cursor => { cursor with position := n } := by
  simp [moveTo, Guarded.require, h]

theorem ensure_cursor {start : Place} (hs : start.In input) :
    ensure input n start.cursor =
      if (start.rest.take n).length < n then
        .error (.failed (.endOfInput start.path.toText start.offset)) start.cursor
      else .ok () start.cursor := by
  have hshort : input.length - start.offset < n ↔ (start.rest.take n).length < n := by
    rw [List.length_take, hs.length_rest]
    omega
  show (if input.length - start.offset < n then _ else pure () : GuardedDecoder Unit)
      start.cursor = _
  simp only [hshort]
  split <;> rfl

end GuardedDecoder

-- ---------------------------------------------------------------------------
-- Steps
-- ---------------------------------------------------------------------------

namespace Guards

theorem pure (a : α) : Guards endless input (pure a) (pure a : Decoder α) :=
  fun _ hs => .ok hs (Nat.le_refl _) rfl

theorem fail (error : String → CodecError) :
    Guards endless input (GuardedDecoder.fail error) (Decoder.fail error : Decoder α) :=
  fun _ hs => .error hs List.suffix_rfl

theorem lift (x : Except CodecError α) :
    Guards endless input (Guarded.lift x) (Decoder.lift x) := by
  cases x with
  | ok a => exact .pure a
  | error fault => exact fun _ hs => .error hs List.suffix_rfl

theorem count (length : Length) (scope : Scope) :
    Guards endless input (GuardedDecoder.count length scope) (Decoder.count length scope) :=
  fun start hs => lift (length.count start.path scope) start hs

section

variable {guarded : GuardedDecoder α} {decoder : Decoder α}

/-- What follows need only do what the decoder does with the values that it gives. -/
theorem bind_of {next : α → GuardedDecoder β} {next' : α → Decoder β}
    (h : Guards endless input guarded decoder)
    (hn : ∀ a, (∃ start stop, decoder start = .ok a stop) →
      Guards endless input (next a) (next' a)) :
    Guards endless input (guarded >>= next) (decoder >>= next') := by
  intro start hs
  show Parallels endless input start (EStateM.bind guarded next start.cursor)
      (EStateM.bind decoder next' start)
  rw [EStateM.bind, EStateM.bind]
  generalize hx : guarded start.cursor = x
  generalize hy : decoder start = y
  have hfirst := h start hs
  rw [hx, hy] at hfirst
  cases hfirst with
  | error hin hpath => exact .error hin hpath
  | exhausted hend hle => exact .exhausted hend hle
  | @ok a middle hin hle hpath =>
    exact (hn a ⟨start, middle, hy⟩ middle hin).after hle hpath

theorem bind {next : α → GuardedDecoder β} {next' : α → Decoder β}
    (h : Guards endless input guarded decoder)
    (hn : ∀ a, Guards endless input (next a) (next' a)) :
    Guards endless input (guarded >>= next) (decoder >>= next') :=
  h.bind_of fun a _ => hn a

theorem map (h : Guards endless input guarded decoder) (f : α → β) :
    Guards endless input (do return f (← guarded)) (do return f (← decoder)) :=
  h.bind fun a => .pure (f a)

theorem within (h : Guards endless input guarded decoder) (segment : Segment) :
    Guards endless input (GuardedDecoder.within segment guarded)
      (Decoder.within segment decoder) := by
  intro start hs
  let inner : Place := { start with path := start.path.push segment }
  have hinner : Parallels endless input inner (guarded inner.cursor) (decoder inner) :=
    h inner (hs.withPath _)
  have hguarded : GuardedDecoder.within segment guarded start.cursor =
      match guarded inner.cursor with
      | .ok a stop => .ok a { stop with path := stop.path.pop }
      | .error halt stop => .error halt stop := by
    show EStateM.bind guarded _ inner.cursor = _
    rw [EStateM.bind]
    cases guarded inner.cursor <;> rfl
  rw [hguarded, Decoder.within_apply]
  generalize guarded inner.cursor = x at hinner ⊢
  generalize decoder inner = y at hinner ⊢
  cases hinner with
  | @ok a stop hin hle hpath =>
    have hpop : stop.path.pop = start.path := hpath ▸ rfl
    exact @Parallels.ok _ _ _ _ a { stop with path := stop.path.pop } (hin.withPath _) hle hpop
  | error hin hpath => exact .error hin ((List.suffix_cons _ _).trans hpath)
  | exhausted hend hle => exact .exhausted hend hle

end

theorem ensure (n : Nat) :
    Guards endless input (GuardedDecoder.ensure input n) (Decoder.ensure n) := by
  intro start hs
  rw [GuardedDecoder.ensure_cursor hs, Decoder.ensure]
  split
  · exact .error hs List.suffix_rfl
  · exact .ok hs (Nat.le_refl _) rfl

theorem take (n : Nat) : Guards endless input (GuardedDecoder.take input n) (Decoder.take n) := by
  intro start hs
  show Parallels endless input start (EStateM.bind (GuardedDecoder.ensure input n) _ start.cursor) _
  rw [EStateM.bind, GuardedDecoder.ensure_cursor hs, Decoder.take]
  by_cases hshort : (start.rest.take n).length < n
  · rw [if_pos hshort, if_pos hshort]
    exact .error hs List.suffix_rfl
  · rw [if_neg hshort, if_neg hshort]
    have hle := hs.offset_add_le hshort
    show Parallels endless input start ((do
      GuardedDecoder.moveTo input (start.offset + n)
      Guarded.slice input start.offset (start.offset + n)) start.cursor) _
    rw [GuardedDecoder.moveTo_of_le hle, Guarded.slice_of_le (Nat.le_add_right _ _) hle, hs.rest_eq,
      Nat.add_sub_cancel_left]
    exact .ok (hs.advance hle) (Nat.le_add_right _ _) rfl

theorem takeRemaining : Guards endless input
    (do GuardedDecoder.take input (← GuardedDecoder.remaining input))
    (do Decoder.take (← get).rest.length) := by
  intro start hs
  have htake := @take endless input start.rest.length start hs
  rw [hs.length_rest] at htake
  show Parallels endless input start
      (GuardedDecoder.take input (input.length - start.offset) start.cursor)
    (Decoder.take start.rest.length start)
  rw [hs.length_rest]
  exact htake

theorem readInt (kind : IntKind) (order : ByteOrder) :
    Guards endless input (GuardedDecoder.readInt input kind order) (Decoder.readInt kind order) :=
  (take kind.size).map (kind.decode order)

theorem readText : Guards endless input (GuardedDecoder.readText input) Decoder.readText := by
  intro start hs
  have hoffset := hs.offset_le
  have hslice :
      (Guarded.slice input (min start.offset input.length) input.length : GuardedDecoder Bytes) =
      Pure.pure start.rest := by
    rw [Nat.min_eq_left hoffset, Guarded.slice_of_le hoffset (Nat.le_refl _), hs.rest_eq,
      List.take_of_length_le (by simp)]
  let content := start.rest.takeWhile (· != 0)
  -- The same text, without the bytes before the place.
  have hguarded : GuardedDecoder.readText input start.cursor = (if start.rest.contains 0 then do
      GuardedDecoder.moveTo input (start.offset + (content.length + 1))
      GuardedDecoder.textOf content
    else GuardedDecoder.fail (.endOfInput · input.length) :
      GuardedDecoder String) start.cursor := by
    show (Guarded.slice input (min start.offset input.length) input.length >>= _) start.cursor = _
    rw [hslice]
    rfl
  rw [hguarded, Decoder.readText]
  cases hdrop : start.rest.drop content.length with
  | nil =>
    have hmem : start.rest.contains 0 = false := by
      rw [List.contains_eq_mem, decide_eq_false_iff_not]
      intro hmem
      obtain ⟨before, after, hrest, hnot⟩ := List.eq_append_cons_of_mem hmem
      obtain ⟨hcontent, b, hafter⟩ := Decoder.takeWhile_ne_zero_iff.mpr ⟨hnot, hrest⟩
      rw [← hcontent, hdrop] at hafter
      cases hafter
    have hend : start.offset + start.rest.length = input.length := by
      rw [hs.length_rest]
      omega
    rw [hmem, hend]
    exact .error hs List.suffix_rfl
  | cons b after =>
    obtain ⟨-, hrest⟩ : 0 ∉ content ∧ start.rest = content ++ 0 :: after :=
      Decoder.takeWhile_ne_zero_iff.mp ⟨rfl, b, hdrop⟩
    have hmem : start.rest.contains 0 = true := by
      rw [hrest]
      simp
    have hle : start.offset + (content.length + 1) ≤ input.length := by
      have hlength := congrArg List.length hrest
      rw [hs.length_rest, List.length_append, List.length_cons] at hlength
      omega
    rw [hmem, if_pos rfl, GuardedDecoder.moveTo_of_le hle]
    show Parallels endless input start
      (GuardedDecoder.textOf content (start.advance (content.length + 1)).cursor) _
    rw [GuardedDecoder.textOf]
    cases Bytes.utf8? content with
    | some text => exact .ok (hs.advance hle) (Nat.le_add_right _ _) rfl
    | none => exact .error (hs.advance hle) List.suffix_rfl

/-- Four bytes were taken, so each index up to three is one of them. -/
theorem readId (value : FourCC → Value) :
    Guards endless input (GuardedDecoder.readId input value) (do
      match FourCC.ofBytes? (← Decoder.take 4) with
      | some code => return value code
      | none => Decoder.failAtEnd) := by
  refine (take 4).bind_of fun bytes hbytes => ?_
  obtain ⟨start, stop, hrun⟩ := hbytes
  obtain ⟨_, _, _, _, hlength, _⟩ := (Decoder.reads_take 4 start bytes stop).mp hrun
  match bytes, hlength with
  | [a, b, c, d], _ => exact .pure _

theorem readTimes {guarded : GuardedDecoder Value} {decoder : Decoder Value}
    (h : Guards endless input guarded decoder) (n index : Nat) (items : List Value) :
    Guards endless input (GuardedDecoder.readTimes guarded n index items)
      (Decoder.readTimes decoder n index items) := by
  induction n generalizing index items with
  | zero => exact .pure _
  | succ n ih => exact (h.within _).bind fun item => ih _ _

theorem readFields {guarded : GuardedReader} {decoder : ValueReader} {scope : Document → Scope}
    {fields : List (String × FieldType)} (h : ∀ field ∈ fields, ∀ document,
      Guards endless input (guarded field.2 (scope document)) (decoder field.2 (scope document)))
    (document : Document) :
    Guards endless input (GuardedDecoder.readFields guarded scope fields document)
      (Decoder.readFields decoder scope fields document) := by
  induction fields generalizing document with
  | nil => exact .pure _
  | cons field fields ih =>
    obtain ⟨hfield, hfields⟩ := List.forall_mem_cons.mp h
    exact ((hfield document).within _).bind fun value => ih hfields _

theorem readBool (kind : IntKind) (order : ByteOrder) (no yes : Int) :
    Guards endless input (GuardedDecoder.readBool input kind order no yes)
      (Decoder.readBool kind order no yes) := by
  refine (readInt kind order).bind fun found => ?_
  split
  · exact .pure _
  split
  · exact .pure _
  · exact .fail _

section

variable {guarded : GuardedDecoder Value} {decoder : Decoder Value}

theorem readBlock (h : Guards endless input guarded decoder) (size : Nat) :
    Guards endless input (GuardedDecoder.readBlock input size guarded)
      (Decoder.readBlock size decoder) := by
  intro start hs
  have hread := h start hs
  show Parallels endless input start
      (EStateM.bind (GuardedDecoder.ensure input size) _ start.cursor) _
  rw [EStateM.bind, GuardedDecoder.ensure_cursor hs, Decoder.readBlock, Decoder.ensure]
  by_cases hshort : (start.rest.take size).length < size
  · rw [if_pos hshort, if_pos hshort]
    exact .error hs List.suffix_rfl
  · rw [if_neg hshort, if_neg hshort]
    have hle := hs.offset_add_le hshort
    show Parallels endless input start (EStateM.bind guarded _ start.cursor) _
    rw [EStateM.bind]
    generalize guarded start.cursor = x at hread ⊢
    dsimp only
    generalize decoder start = y at hread ⊢
    cases hread with
    | error hin hpath => exact .error hin hpath
    | exhausted hend hle => exact .exhausted hend hle
    | @ok value stop hin hforward hpath =>
      show Parallels endless input start ((do
        let used ← Guarded.subtract stop.offset start.offset
        if size < used then GuardedDecoder.fail (.validation · (.overrun used size))
        else
          GuardedDecoder.moveTo input (start.offset + size)
          return value : GuardedDecoder Value) stop.cursor)
        (if size < stop.offset - start.offset then
          Decoder.fail (.validation · (.overrun (stop.offset - start.offset) size)) stop
        else .ok value { start.advance size with path := stop.path })
      rw [Guarded.subtract_of_le hforward, GuardedDecoder.moveTo_of_le hle, pure_bind]
      split
      · exact .error hin (hpath ▸ List.suffix_rfl)
      · exact .ok ((hs.advance hle).withPath stop.path) (Nat.le_add_right _ _) hpath

theorem found_eq {start stop : Place} (hs : start.In input) (hin : stop.In input) :
    GuardedDecoder.found input start.offset stop.cursor =
      .ok
        (if start.offset < stop.offset then start.rest.take (stop.offset - start.offset)
          else start.rest)
        stop.cursor := by
  have hle := hs.offset_le
  show (if start.offset < max stop.offset start.offset then
      Guarded.slice input start.offset (max stop.offset start.offset)
    else Guarded.slice input (min start.offset input.length) input.length) stop.cursor = _
  by_cases hforward : start.offset < stop.offset
  · rw [Nat.max_eq_left (Nat.le_of_lt hforward), if_pos hforward, if_pos hforward,
      Guarded.slice_of_le (Nat.le_of_lt hforward) hin.offset_le, hs.rest_eq]
    rfl
  · have htake : (input.drop start.offset).take (input.length - start.offset) =
        input.drop start.offset :=
      List.take_of_length_le (List.length_drop ▸ Nat.le_refl _)
    rw [Nat.max_eq_right (Nat.le_of_not_lt hforward), if_neg (Nat.lt_irrefl _), if_neg hforward,
      Nat.min_eq_left hle, Guarded.slice_of_le hle (Nat.le_refl _), htake, hs.rest_eq]
    rfl

theorem readConst (h : Guards endless input guarded decoder) (expected : Value)
    {shown : Except Halt Bytes} {expectedBytes : Unit → Option Bytes}
    (hshown : (∃ content, shown = .ok content ∧ expectedBytes () = some content) ∨
      endless ∧ shown = .error .exhausted) :
    Guards endless input (GuardedDecoder.readConst input expected shown guarded)
      (Decoder.readConst expected expectedBytes decoder) := by
  intro start hs
  have hread := h start hs
  have hmismatch {stop : Place} (hin : stop.In input)
      (hpath : start.path.segments <:+ stop.path.segments) :
      Parallels endless input start ((do
          let actual ← GuardedDecoder.found input start.offset
          let expectedBytes ← Guarded.outcome shown
          GuardedDecoder.fail (.formatMismatch · expectedBytes actual) :
          GuardedDecoder Value) stop.cursor)
        (Decoder.fail (Codec.otherConstant · (expectedBytes ()) (some
          (if start.offset < stop.offset then start.rest.take (stop.offset - start.offset)
            else start.rest))) stop) := by
    show Parallels endless input start
        (EStateM.bind (GuardedDecoder.found input start.offset) _ stop.cursor) _
    rw [EStateM.bind, found_eq hs hin]
    obtain ⟨content, hshown, hexpected⟩ | ⟨hend, hshown⟩ := hshown
    · rw [hshown, hexpected]
      exact .error hin hpath
    · rw [hshown]
      exact .exhausted hend hin.offset_le
  rw [GuardedDecoder.readConst, Decoder.readConst]
  generalize guarded start.cursor = x at hread ⊢
  generalize decoder start = y at hread ⊢
  cases hread with
  | @ok found stop hin hle hpath =>
    dsimp only
    split
    · exact .ok hin hle hpath
    · exact hmismatch hin (hpath ▸ List.suffix_rfl)
  | @error fault stop hin hpath =>
    cases fault with
    | endOfInput => exact hmismatch hin hpath
    | _ => exact .error hin hpath
  | exhausted hend hle => exact .exhausted hend hle

/-- Each item but the last takes bytes, so the loop ends within its bound. -/
theorem readGreedy_of (h : Guards endless input guarded decoder) {start : Place}
    (hs : start.In input) (bound : Bytes) (hbound : start.rest.length ≤ bound.length)
    (index : Nat) (items : List Value) :
    Parallels endless input start
    (GuardedDecoder.readGreedy input guarded bound.length index items start.cursor)
      (Decoder.readGreedy decoder bound index items start) := by
  induction bound generalizing start index items with
  | nil =>
    have hend : input.length - start.offset = 0 := by
      rw [← hs.length_rest]
      exact Nat.le_zero.mp hbound
    show Parallels endless input start ((do
      Guarded.require (input.length - start.offset = 0)
      return items.reverse : GuardedDecoder (List Value)) start.cursor) (.ok items.reverse start)
    rw [hend]
    exact .ok hs (Nat.le_refl _) rfl
  | cons b bound ih =>
    show Parallels endless input start
      ((if input.length - start.offset = 0 then Pure.pure items.reverse
        else _ : GuardedDecoder (List Value)) start.cursor) _
    by_cases hrest : start.rest = []
    · have hend : input.length - start.offset = 0 := by
        rw [← hs.length_rest, hrest, List.length_nil]
      rw [if_pos hend, Decoder.readGreedy]
      simp only [hrest]
      exact .ok hs (Nat.le_refl _) rfl
    · have hmore : input.length - start.offset ≠ 0 := by
        rw [← hs.length_rest]
        exact fun h => hrest (List.length_eq_zero_iff.mp h)
      rw [if_neg hmore, Decoder.readGreedy_cons _ _ _ _ _ _ hrest]
      have hitem := h.within (.index index) start hs
      show Parallels endless input start
        (EStateM.bind (GuardedDecoder.within (.index index) guarded) _ start.cursor) _
      rw [EStateM.bind]
      generalize GuardedDecoder.within (.index index) guarded start.cursor = x at hitem ⊢
      generalize Decoder.within (.index index) decoder start = y at hitem ⊢
      cases hitem with
      | error hin hpath => exact .error hin hpath
      | exhausted hend hle => exact .exhausted hend hle
      | @ok item next hin hle hpath =>
        show Parallels endless input start
          ((if next.offset = start.offset then Pure.pure (item :: items).reverse
            else GuardedDecoder.readGreedy input guarded bound.length (index + 1) (item :: items) :
            GuardedDecoder (List Value)) next.cursor)
          (if next.offset = start.offset then .ok (item :: items).reverse next
            else Decoder.readGreedy decoder bound (index + 1) (item :: items) next)
        split
        · exact .ok hin hle hpath
        · have hbound' : next.rest.length ≤ bound.length := by
            rw [hs.length_rest, List.length_cons] at hbound
            rw [hin.length_rest]
            omega
          exact (ih hin hbound' _ _).after hle hpath

theorem readGreedy (h : Guards endless input guarded decoder) :
    Guards endless input
      (do GuardedDecoder.readGreedy input guarded (← GuardedDecoder.remaining input) 0 [])
      (do Decoder.readGreedy decoder (← get).rest 0 []) := by
  intro start hs
  show Parallels endless input start
    (GuardedDecoder.readGreedy input guarded (input.length - start.offset) 0 [] start.cursor)
    (Decoder.readGreedy decoder start.rest 0 [] start)
  rw [← hs.length_rest]
  exact readGreedy_of h hs start.rest (Nat.le_refl _) 0 []

end

-- ---------------------------------------------------------------------------
-- Packed units and flags
-- ---------------------------------------------------------------------------

theorem readPacked {unit : PackedUnit} (h : PackedUnit.bits unit.fields < 2 ^ 32) :
    Guards endless input (GuardedDecoder.readPacked input unit) (Decoder.readPacked unit) := by
  rw [GuardedDecoder.readPacked, Guarded.check_eq h]
  refine (lift unit.check).bind_of fun _ hchecked => (take unit.size).bind_of fun bytes htaken => ?_
  obtain ⟨_, _, hrun⟩ := hchecked
  have hcheck := (Decoder.lift_run.mp hrun).1
  obtain ⟨hpos, hsize, hw, hbits⟩ := PackedUnit.check_ok_iff.mp hcheck
  obtain ⟨start, stop, hrun⟩ := htaken
  obtain ⟨_, _, _, _, hlength, _⟩ := (Decoder.reads_take unit.size start bytes stop).mp hrun
  have hword : (Guarded.readWord unit.byteOrder bytes unit.size : GuardedDecoder UInt64) =
      Pure.pure (UInt64.ofNat (unit.byteOrder.decode bytes)) := by
    rw [Guarded.readWord, List.take_of_length_le (Nat.le_of_eq hlength)]
    simp [Guarded.require, hpos, hsize, hlength]
  rw [hword, pure_bind, Guarded.splitFrom_eq hsize _ hw (by simp [hbits]), pure_bind]
  exact .pure _

theorem ofInt_decode {kind : IntKind} (hb : bytes.length = kind.size) (order : ByteOrder) :
    UInt64.ofInt (kind.decode order bytes) &&& PackedUnit.mask (UInt32.ofNat kind.width) =
      UInt64.ofNat (order.decode bytes) := by
  have hlt := order.decode_lt bytes
  rw [hb] at hlt
  apply UInt64.toNat_inj.mp
  rw [UInt64.toNat_and, Guarded.toNat_mask, Nat.and_two_pow_sub_one_eq_mod, UInt64.ofInt,
    UInt64.toNat_ofNat', UInt64.toNat_ofNat']
  cases kind <;> simp [IntKind.decode, IntKind.width, IntKind.size, IntKind.isSigned] at hlt ⊢ <;>
    (try split) <;> omega

theorem readFlags (set : FlagSet) : Guards endless input (GuardedDecoder.readFlags input set)
    (do return set.valueOf (UInt64.ofNat (set.order.decode (← Decoder.take set.kind.size)))) := by
  refine (take set.kind.size).bind_of fun bytes htaken => ?_
  obtain ⟨start, stop, hrun⟩ := htaken
  obtain ⟨_, _, _, _, hlength, _⟩ := (Decoder.reads_take set.kind.size start bytes stop).mp hrun
  rw [Guarded.mask_eq (Guarded.width_le _), pure_bind, ofInt_decode hlength]
  exact .pure _

-- ---------------------------------------------------------------------------
-- Types
-- ---------------------------------------------------------------------------

section

variable {guarded : GuardedReadContext} {ctx : ReadContext} {scope : Scope}

theorem readSequence {types : List FieldType}
    (h : ∀ type ∈ types, Guards endless input (guarded.read type scope) (ctx.read type scope))
    (index : Nat) :
    Guards endless input (guarded.readSequence index types scope)
      (ctx.readSequence index types scope) := by
  induction types generalizing index with
  | nil => exact .pure _
  | cons type types ih =>
    obtain ⟨htype, htypes⟩ := List.forall_mem_cons.mp h
    exact (htype.within _).bind fun item => (ih htypes (index + 1)).map _

theorem readSwitch {cases : List (Key × FieldType)} {default : Option FieldType}
    (hc : ∀ case ∈ cases, Guards endless input (guarded.read case.2 scope) (ctx.read case.2 scope))
    (hd : ∀ type ∈ default, Guards endless input (guarded.read type scope) (ctx.read type scope))
    (discriminant : Value) :
    Guards endless input
      (match guarded.readCase discriminant cases scope with
        | some run => run
        | none => guarded.readDefault discriminant default scope)
      (match ctx.readCase discriminant cases scope with
        | some decoder => decoder
        | none => ctx.readDefault discriminant default scope) := by
  induction cases with
  | nil =>
    cases default with
    | none => exact fail (.unknownVariant · discriminant.toText)
    | some type => exact hd type rfl
  | cons case cases ih =>
    obtain ⟨key, type⟩ := case
    obtain ⟨hcase, hcases⟩ := List.forall_mem_cons.mp hc
    by_cases hkey : key.matches discriminant
    · simpa only [GuardedReadContext.readCase, ReadContext.readCase, if_pos hkey] using hcase
    · simpa only [GuardedReadContext.readCase, ReadContext.readCase, if_neg hkey] using ih hcases

/-- Each alternative begins at the place where the selection does. -/
theorem readFirst (hinput : guarded.input = input) {types : List FieldType}
    (h : ∀ type ∈ types, Guards endless input (guarded.read type scope) (ctx.read type scope))
    (last : Option CodecError) :
    Guards endless input (guarded.readFirst last types scope) (ctx.readFirst last types scope) := by
  induction types generalizing last with
  | nil => exact fun _ hs => .error hs List.suffix_rfl
  | cons type types ih =>
    obtain ⟨htype, htypes⟩ := List.forall_mem_cons.mp h
    intro start hs
    have hread := htype start hs
    rw [GuardedReadContext.readFirst, ReadContext.readFirst]
    dsimp only
    generalize guarded.read type scope start.cursor = x at hread ⊢
    generalize ctx.read type scope start = y at hread ⊢
    cases hread with
    | ok hin hle hpath => exact .ok hin hle hpath
    | @error fault stop hin hpath =>
      have hback : (GuardedDecoder.rewind guarded.input start.cursor >>= fun _ =>
          guarded.readFirst (some fault) types scope) stop.cursor =
            guarded.readFirst (some fault) types scope start.cursor := by
        have hmove : GuardedDecoder.moveTo input start.cursor.position =
            modify fun cursor => { cursor with position := start.cursor.position } :=
          GuardedDecoder.moveTo_of_le hs.offset_le
        rw [hinput, GuardedDecoder.rewind, hmove]
        show guarded.readFirst (some fault) types scope
          ⟨start.offset, stop.path.truncate start.path.depth⟩ = _
        rw [FieldPath.truncate_of_suffix hpath]
        rfl
      dsimp only
      rw [hback]
      split
      · exact .error hin hpath
      · exact ih htypes (some fault) start hs
    | exhausted hend hle => exact .exhausted hend hle

end

end Guards

/-- The operations that read a value are defined there, and those that show a constant. -/
structure Site.Defined (definitions : Nat → FieldType) (site : Site) : Prop where
  counts : site.CountsBits
  fills : ∀ inner value, site.type = .const inner value →
    Site.Everywhere definitions Site.Fills ⟨site.seen, inner⟩

/-- A site that is read. Where showing constants may not be `endless`, it does not go on
for long. -/
structure Site.Read (definitions : Nat → FieldType) (endless : Prop) (shows : Nat) (site : Site) :
    Prop where
  defined : site.Defined definitions
  shows : ¬endless → site.Shows definitions shows

def GuardsTypes (definitions : Nat → FieldType) (endless : Prop) (shows : Nat) (input : Bytes)
    (guarded : GuardedReader) (read : ValueReader) : Prop :=
  ∀ seen type, Site.Everywhere definitions (Site.Read definitions endless shows) ⟨seen, type⟩ →
    ∀ scope, Guards endless input (guarded type scope) (read type scope)

theorem ReadContext.read_guards {codec : Codec} {deeper : Option GuardedReader}
    {deeper' : Option ValueReader} (hroom : ¬endless → shows ≤ FieldType.reportLimit)
    (hdeeper : Option.Rel (GuardsTypes codec.definitions endless shows input) deeper deeper') :
    GuardsTypes codec.definitions endless shows input
      (GuardedReadContext.read ⟨codec, input, FieldType.shownGuarded codec shows, deeper⟩)
      (read ⟨codec, deeper'⟩) := by
  intro seen type hs scope
  have hdescend {α : Type} {f : GuardedReader → GuardedDecoder α} {f' : ValueReader → Decoder α}
      (hf : ∀ guarded read, GuardsTypes codec.definitions endless shows input guarded read →
        Guards endless input (f guarded) (f' read)) :
      Guards endless input
        (GuardedReadContext.descend ⟨codec, input, FieldType.shownGuarded codec shows, deeper⟩ f)
        (descend ⟨codec, deeper'⟩ f') := by
    cases hdeeper with
    | none =>
      exact Guards.fail (.overflow · (codec.options.maxDepth + 1) codec.options.maxDepth)
    | some hread => exact hf _ _ hread
  induction type using FieldType.induction with
  | int kind order => exact (Guards.readInt kind order).map _
  | float order => exact (Guards.take 4).map _
  | text => exact Guards.readText.map _
  | id => exact Guards.readId _
  | reversedId => exact Guards.readId _
  | bytes length =>
    refine (Guards.count length scope).bind fun n => ?_
    cases n with
    | some n => exact (Guards.take n).map _
    | none => exact Guards.takeRemaining.map _
  | const inner expected ih =>
    have hwrites : Site.Everywhere codec.definitions Site.Writes ⟨seen, inner⟩ := fun part hp =>
      ⟨(hs.part .const part hp).defined.counts, hs.here.defined.fills inner expected rfl part hp⟩
    exact (ih (hs.part .const)).readConst expected
      (FieldType.shownGuarded_eq hwrites hs.here.shows hroom expected)
  | bool kind order no yes => exact Guards.readBool kind order no yes
  | enum repr variants ih => exact (ih (hs.part .enum)).map _
  | flags set => exact Guards.readFlags set
  | record name fields =>
    refine hdescend fun guarded read hread => .map (.readFields (fun field hf document => ?_) _) _
    obtain ⟨_, hfield⟩ := hs.field hf
    exact hread _ _ hfield _
  | array length element ih =>
    refine (Guards.count length scope).bind fun n => ?_
    cases n with
    | some n => exact ((ih (hs.part .element)).readTimes n 0 []).map _
    | none => exact (ih (hs.part .element)).readGreedy.map _
  | greedy element ih => exact (ih (hs.part .greedy)).readGreedy.map _
  | sequence types ih =>
    exact (Guards.readSequence (fun type ht => ih type ht (hs.part (.item ht))) 0).map _
  | switch on cases default ihc ihd =>
    exact (Guards.lift (answered (scope.resolve on))).bind (Guards.readSwitch
      (fun case hc => ihc case hc (hs.part (.case hc))) fun type ht => ihd type ht
      (hs.part (.default ht)))
  | conditional condition yes no ihy ihn =>
    refine (Guards.lift (answered (condition scope))).bind fun truth => ?_
    cases truth with
    | true => exact ihy (hs.part .yes)
    | false => exact ihn (hs.part .no)
  | select alternatives ih =>
    exact @Guards.readFirst endless input ⟨codec, input, FieldType.shownGuarded codec shows, deeper⟩
      ⟨codec, deeper'⟩ scope rfl alternatives
        (fun type ht => ih type ht (hs.part (.alternative ht))) none
  | checked relation holds inner ih =>
    refine (ih (hs.part .checked)).bind fun value => ?_
    split
    · exact .pure _
    · exact .fail _
  | padded size inner ih => exact (ih (hs.part .padded)).readBlock size
  | packed unit => exact Guards.readPacked (hs.here.defined.counts unit rfl)
  | lazy slot => exact hdescend fun guarded read hread => hread _ _ (hs.part .lazy) _

theorem FieldType.readAt_guards (codec : Codec) (hroom : ¬endless → shows ≤ reportLimit)
    (input : Bytes) (levels : Nat) :
    GuardsTypes codec.definitions endless shows input
      (readGuarded codec input (shownGuarded codec shows) levels) (readAt codec levels) := by
  induction levels with
  | zero => exact ReadContext.read_guards hroom .none
  | succ levels ih => exact ReadContext.read_guards hroom (.some ih)

/-- A run ends in the input, and with a value it has not gone back. No operation has stopped it. -/
inductive Cursor.Stays (input : Bytes) (start : Cursor) : EStateM.Result Halt Cursor α → Prop
  | ok {a} {stop : Cursor} : start.position ≤ stop.position → stop.position ≤ input.length →
      Stays input start (.ok a stop)
  | halted {halt} {stop : Cursor} : halt ≠ .outOfRange → stop.position ≤ input.length →
      Stays input start (.error halt stop)

theorem Guards.stays {guarded : GuardedDecoder α} {decoder : Decoder α}
    (h : Guards endless input guarded decoder) {start : Cursor}
    (hs : start.position ≤ input.length) :
    start.Stays input (guarded start) := by
  have hends := h ⟨start.position, input.drop start.position, start.path⟩ ⟨hs, rfl⟩
  have hstart : Place.cursor ⟨start.position, input.drop start.position, start.path⟩ = start := rfl
  rw [hstart] at hends
  generalize guarded start = x at hends ⊢
  generalize decoder _ = y at hends
  cases hends with
  | ok hin hle _ => exact .ok hle hin.offset_le
  | error hin _ => exact .halted nofun hin.offset_le
  | exhausted _ hle => exact .halted nofun hle

namespace Schema

theorem decodeGuarded_eq {schema : Schema}
    (hs : schema.Everywhere (Site.Read schema.definitions endless shows))
    (hroom : ¬endless → shows ≤ FieldType.reportLimit) (options : CodecOptions) (bytes : Bytes) :
    schema.decodeGuarded shows options bytes = (schema.decode options bytes).mapError .failed ∨
      endless ∧ schema.decodeGuarded shows options bytes = .error .exhausted := by
  have hfields : Guards endless bytes
      (GuardedDecoder.readFields (FieldType.readGuarded (schema.codec options) bytes
        (FieldType.shownGuarded (schema.codec options) shows) options.maxDepth)
        (Scope.root · options) schema.fields .empty)
      (Decoder.readFields (FieldType.readAt (schema.codec options) options.maxDepth)
        (Scope.root · options) schema.fields .empty) := by
    refine Guards.readFields (fun field hf document => ?_) _
    obtain ⟨seen, hfield⟩ := hs.field hf
    exact FieldType.readAt_guards
      (schema.codec options) hroom bytes options.maxDepth seen field.2 hfield _
  have hends := hfields (.start bytes) (Place.start_in bytes)
  have hstart : (Place.start bytes).cursor = ⟨0, .root⟩ := rfl
  rw [hstart] at hends
  rw [decodeGuarded, decode]
  dsimp only
  generalize GuardedDecoder.readFields _ _ _ _ _ = x at hends ⊢
  generalize Decoder.readFields _ _ _ _ _ = y at hends ⊢
  cases hends with
  | error => exact .inl rfl
  | exhausted hend => exact .inr ⟨hend, rfl⟩
  | @ok document stop hin =>
    left
    show (if bytes.length - stop.offset = 0 ∨ options.allowTrailing then Except.ok document
      else .error (Halt.failed (.trailingData stop.offset (bytes.length - stop.offset)))) = _
    rw [← hin.length_rest]
    dsimp only
    cases stop.rest with
    | nil => rfl
    | cons b rest =>
      by_cases htrailing : options.allowTrailing <;> simp only [htrailing] <;> rfl

/-- No operation is out of range: decoding by checked operations is decoding, but for constants
that are shown within each other without end. Where these are at most so many, the run ends with
the document or the error. Each value on the way is read in the input, and forwards. -/
theorem decode_in_bounds {schema : Schema}
    (hs : schema.Everywhere (Site.Defined schema.definitions))
    (shows : Nat) (options : CodecOptions) (bytes : Bytes) :
    (schema.decodeGuarded shows options bytes = (schema.decode options bytes).mapError .failed ∨
        schema.decodeGuarded shows options bytes = .error .exhausted) ∧
      (shows ≤ FieldType.reportLimit → schema.Everywhere (Site.Shows schema.definitions shows) →
        schema.decodeGuarded shows options bytes = (schema.decode options bytes).mapError .failed) ∧
      ∀ levels seen type scope (start : Cursor),
        Site.Everywhere schema.definitions (Site.Defined schema.definitions) ⟨seen, type⟩ →
          start.position ≤ bytes.length → start.Stays bytes
            (FieldType.readGuarded (schema.codec options) bytes
              (FieldType.shownGuarded (schema.codec options) shows) levels type scope start) := by
  have hread {site : Site} (h : site.Defined schema.definitions) :
      site.Read schema.definitions True shows :=
    ⟨h, fun hend => absurd trivial hend⟩
  refine ⟨?_, fun hroom hshows => ?_, fun levels seen type scope start htype hstart => ?_⟩
  · have hsites : schema.Everywhere (Site.Read schema.definitions True shows) :=
      fun before field after heq => (hs before field after heq).mono fun _ => hread
    exact (decodeGuarded_eq hsites (fun hend => absurd trivial hend) options bytes).imp_right
      And.right
  · have hsites : schema.Everywhere (Site.Read schema.definitions False shows) :=
      fun before field after heq part hp =>
        ⟨hs before field after heq part hp, fun _ => hshows before field after heq part hp⟩
    exact (decodeGuarded_eq hsites (fun _ => hroom) options bytes).resolve_right fun h => h.1
  · have hguards :=
      FieldType.readAt_guards (schema.codec options)
      (fun hend => absurd trivial hend) bytes levels seen type
      (htype.mono fun _ => hread) scope
    exact hguards.stays hstart

end Schema

-- ---------------------------------------------------------------------------
-- Layers
-- ---------------------------------------------------------------------------

theorem Site.shows_of_ne {site : Site} (h : ∀ inner value, site.type ≠ .const inner value) :
    site.Shows definitions shows := by
  cases shows with
  | zero => exact h
  | succ shows => exact fun inner value heq => absurd heq (h inner value)

/-- Only constants and packed units ask for anything. -/
theorem Site.read_of_ne {site : Site} (hc : site.CountsBits)
    (hne : ∀ inner value, site.type ≠ .const inner value) :
    site.Read definitions endless shows :=
  ⟨⟨hc, fun inner value heq => absurd heq (hne inner value)⟩, fun _ => site.shows_of_ne hne⟩

theorem Site.read_magic (definitions : Nat → FieldType) (seen : List (List String))
    (content : Bytes) :
    Site.Inside definitions (Site.Read definitions False 1) ⟨seen, .magic content⟩ := by
  have hinner {P : Site → Prop} (h : P ⟨seen, .bytes (.fixed content.length)⟩) :
      Site.Everywhere definitions P ⟨seen, .bytes (.fixed content.length)⟩ :=
    .intro h fun _ hp => nomatch hp
  refine .intro ⟨⟨nofun, ?_⟩, fun _ => ?_⟩ ?_
  · rintro _ _ ⟨⟩
    exact hinner nofun
  · rintro _ _ ⟨⟩
    exact hinner nofun
  · rintro _ ⟨⟩ -
    exact .intro (read_of_ne nofun nofun) fun _ hp => nomatch hp

/-- Layers with a mark and two numbers, one below the other, and two bytes below the last. -/
def layers : Schema where
  name := "Layers"
  fields := [("mark", .magic [0x53]), ("top", .lazy 0)]
  definitions := fun _ => .record "Layer" [("mark", .magic [0x4C]),
    ("numbers", .packed ⟨1, .lowFirst, [⟨"low", 4, none⟩, ⟨"high", 4, none⟩]⟩),
    ("below", .select [.lazy 0, .padded 2 (.bytes .remaining)])]

theorem layers_read : layers.Everywhere (Site.Read layers.definitions False 1) := by
  have hselect (seen : List (List String)) : Site.Inside layers.definitions
      (Site.Read layers.definitions False 1)
        ⟨seen, .select [.lazy 0, .padded 2 (.bytes .remaining)]⟩ := by
    refine .intro (Site.read_of_ne nofun nofun) fun other hpart _ => ?_
    cases hpart with
    | alternative ht =>
      obtain _ | ⟨_, _ | ⟨_, ⟨⟩⟩⟩ := ht
      · exact Site.inside_lazy (Site.read_of_ne nofun nofun)
      · refine .intro (Site.read_of_ne nofun nofun) ?_
        rintro _ ⟨⟩ -
        exact .intro (Site.read_of_ne nofun nofun) fun _ hp => nomatch hp
  have hlayer (slot : Nat) (seen : List (List String)) : Site.Inside layers.definitions
      (Site.Read layers.definitions False 1) ⟨seen, layers.definitions slot⟩ := by
    refine Site.inside_record (Site.read_of_ne nofun nofun)
      ⟨Site.read_magic _ _ _, ?_, hselect _, trivial⟩
    refine .intro (Site.read_of_ne ?_ nofun) fun _ hp => nomatch hp
    rintro _ ⟨⟩
    decide
  intro before field after heq
  have hf : field ∈ layers.fields := heq ▸ by simp
  refine Site.Inside.everywhere hlayer ?_
  obtain _ | ⟨_, _ | ⟨_, ⟨⟩⟩⟩ := hf
  · exact Site.read_magic _ _ _
  · exact Site.inside_lazy (Site.read_of_ne nofun nofun)

theorem layers_in_bounds :
    layers.Everywhere (Site.Defined layers.definitions) ∧
      layers.Everywhere (Site.Shows layers.definitions 1) ∧
      layers.decodeGuarded 1 {} [0x53, 0x4C, 0x21, 7, 8] =
        .ok ⟨[("mark", .bytes [0x53]), ("top", .struct ⟨[("mark", .bytes [0x4C]),
          ("numbers", .struct ⟨[("low", .int 1), ("high", .int 2)]⟩),
            ("below", .bytes [7, 8])]⟩)]⟩ ∧
      Cursor.Stays [0x53, 0x4C, 0x21, 7, 8] ⟨1, .root⟩
        (FieldType.readGuarded (layers.codec {}) [0x53, 0x4C, 0x21, 7, 8]
          (FieldType.shownGuarded (layers.codec {}) 1) 4 (.lazy 0)
          (.root .empty {}) ⟨1, .root⟩) := by
  have hdefined : layers.Everywhere (Site.Defined layers.definitions) :=
    fun before field after heq => (layers_read before field after heq).mono fun _ h => h.defined
  have hshows : layers.Everywhere (Site.Shows layers.definitions 1) :=
    fun before field after heq => (layers_read before field after heq).mono fun _ h => h.shows id
  obtain ⟨-, hdecode, hstays⟩ := Schema.decode_in_bounds hdefined 1 {} [0x53, 0x4C, 0x21, 7, 8]
  obtain ⟨seen, htop⟩ := hdefined.field (List.mem_cons_of_mem _ List.mem_cons_self)
  exact ⟨hdefined, hshows, (hdecode (by decide) hshows).trans rfl,
    hstays 4 seen (.lazy 0) _ _ htop (by decide)⟩

-- ---------------------------------------------------------------------------
-- Constants that cannot be shown
-- ---------------------------------------------------------------------------

/-- A constant that holds itself, and that does not match in itself. -/
def loop : Schema where
  name := "Loop"
  fields := [("loop", .lazy 0)]
  definitions := fun _ => .const (.sequence [.int .u8 .little, .lazy 0]) (.array [.int 1, .int 5])

/-- A constant in a block with more zeros than there can be. -/
def overlong : Schema where
  name := "Overlong"
  fields := [("block", .const (.padded 0x8000000000000001 (.int .u8 .little)) (.int 1))]

/-- To show it, it has to be shown again. -/
theorem shownGuardedAt_loop (shows : Nat) :
    FieldType.shownGuardedAt (loop.codec {}) shows (.sequence [.int .u8 .little, .lazy 0])
      (.array [.int 1, .int 5]) = .error .exhausted := by
  induction shows with
  | zero => rfl
  | succ shows ih =>
    generalize hshown : FieldType.shownGuardedAt (loop.codec {}) shows = shown at ih
    have hconst (levels : Nat) (path : FieldPath) (scope : Scope) (before : Bytes) :
        FieldType.writeGuarded (loop.codec {}) shown (levels + 1) path (loop.definitions 0)
        (.int 5) scope before = .error .exhausted before := by
      show EStateM.bind (Guarded.outcome (shown (.sequence [.int .u8 .little, .lazy 0])
        (.array [.int 1, .int 5]))) _ before = _
      rw [ih]
      rfl
    have hwrite (levels : Nat) : FieldType.writeGuarded (loop.codec {}) shown (levels + 2) .root
        (.sequence [.int .u8 .little, .lazy 0]) (.array [.int 1, .int 5]) (.root .empty {}) [] =
          .error .exhausted [1] := by
      show EStateM.bind (FieldType.writeGuarded (loop.codec {}) shown (levels + 1)
          (.push .root (.index 1))
        (loop.definitions 0) (.int 5) (.root .empty {})) (fun _ => pure ()) [1] = _
      rw [EStateM.bind, hconst]
    have hdepth : (loop.codec {}).options.maxDepth = 254 + 2 := rfl
    have hscope : (loop.codec {}).options = {} := rfl
    rw [FieldType.shownGuardedAt, hshown]
    dsimp only
    rw [hdepth, hscope, hwrite]

theorem decodeGuarded_loop (shows : Nat) : loop.decodeGuarded shows {} [] = .error .exhausted := by
  have hshown : FieldType.shownGuarded (loop.codec {}) shows _ _ = _ := shownGuardedAt_loop _
  rw [Schema.decodeGuarded]
  generalize FieldType.shownGuarded (loop.codec {}) shows = shown at hshown ⊢
  have hconst (levels : Nat) (path : FieldPath) (scope : Scope) :
      FieldType.readGuarded (loop.codec {}) [] shown (levels + 1) (loop.definitions 0) scope
        ⟨0, path⟩ = .error .exhausted ⟨0, path.push (.index 0)⟩ := by
    show EStateM.bind (Guarded.outcome (shown (.sequence [.int .u8 .little, .lazy 0])
      (.array [.int 1, .int 5]))) _ (Cursor.mk 0 (path.push (.index 0))) = _
    rw [hshown]
    rfl
  have hfields (levels : Nat) : GuardedDecoder.readFields
      (FieldType.readGuarded (loop.codec {}) [] shown (levels + 2))
      (Scope.root · {}) loop.fields .empty
        ⟨0, .root⟩ = .error .exhausted ⟨0, ⟨[.index 0, .name "loop"]⟩⟩ := by
    show EStateM.bind (EStateM.bind (FieldType.readGuarded (loop.codec {}) [] shown (levels + 1)
      (loop.definitions 0) (.root .empty {})) _) _ (Cursor.mk 0 (.push .root (.name "loop"))) = _
    rw [EStateM.bind, EStateM.bind, hconst]
    rfl
  have hdepth : CodecOptions.maxDepth {} = 254 + 2 := rfl
  rw [hdepth]
  dsimp only
  rw [hfields]

theorem decodeGuarded_overlong (shows : Nat) :
    overlong.decodeGuarded (shows + 1) {} [] = .error .outOfRange := by
  have hroom : min (shows + 1) FieldType.reportLimit =
      min shows (FieldType.reportLimit - 1) + 1 := by
    rw [FieldType.reportLimit]
    omega
  rw [Schema.decodeGuarded, FieldType.shownGuarded, hroom]
  rfl

/-- However many constants may be shown within each other, it is not enough for one that holds
itself, and the zeros after one in an overlong block are too many. -/
theorem loop_and_overlong_halt :
    (∀ shows, loop.decodeGuarded shows {} [] = .error .exhausted) ∧
      ∀ shows, overlong.decodeGuarded (shows + 1) {} [] = .error .outOfRange :=
  ⟨decodeGuarded_loop, decodeGuarded_overlong⟩

end Mapsmith
