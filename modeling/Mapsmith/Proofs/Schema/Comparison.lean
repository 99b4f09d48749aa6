import Mapsmith.Proofs.Schema.Running

/-!
# Two runs

`Schema.follows_decoder`: a schema is run twice, the second time under looser options, or on an
input that goes on after the first one ends. The second run does what the first one does, as
far as that goes: the first may give up at a limit or at the end of its input.
-/

namespace Mapsmith

-- ---------------------------------------------------------------------------
-- What may differ
-- ---------------------------------------------------------------------------

/-- No limit is lower in the other options, and what the tables have they have too. -/
structure CodecOptions.LoosensTo (options looser : CodecOptions) : Prop where
  maxElements : options.maxElements ≤ looser.maxElements
  maxDepth : options.maxDepth ≤ looser.maxDepth
  allowTrailing : options.allowTrailing = true → looser.allowTrailing = true
  lookups : ∀ table key n, options.lookups.count? table key = some n →
    looser.lookups.count? table key = some n

theorem CodecOptions.LoosensTo.refl (options : CodecOptions) : options.LoosensTo options :=
  ⟨Nat.le_refl _, Nat.le_refl _, id, fun _ _ _ => id⟩

/-- The same fields in sight, under other options. -/
def Scope.under (scope : Scope) (options : CodecOptions) : Scope :=
  { scope with options := options }

/-- A computed length asks for the same under both options. -/
def Length.Indifferent (options options' : CodecOptions) : Length → Prop
  | .computed count => ∀ scope : Scope, scope.options = options →
    count (scope.under options') = count scope
  | _ => True

/-- What the functions of the type itself answer is the same under both options. -/
def FieldType.Indifferent (options options' : CodecOptions) : FieldType → Prop
  | .bytes length | .array length _ => length.Indifferent options options'
  | .conditional condition _ _ => ∀ scope : Scope, scope.options = options →
    condition (scope.under options') = condition scope
  | .checked _ holds _ => ∀ value, ∀ scope : Scope, scope.options = options →
    holds value (scope.under options') = holds value scope
  | _ => True

/-- The type does not take what is left of the input, however much that is. -/
def FieldType.Delimited : FieldType → Prop
  | .bytes length | .array length _ => length ≠ .remaining
  | .greedy _ => False
  | _ => True

namespace CodecError

/-- A limit was reached, or the tables lack an entry. -/
def IsLimit : CodecError → Prop
  | overflow .. | missingLookup .. => True
  | _ => False

/-- The input ended, or a constant did not hold its bytes. -/
def IsEnd : CodecError → Prop
  | endOfInput .. | formatMismatch .. => True
  | _ => False

end CodecError

/-- What the second of two runs has over the first: looser options, and more bytes at the
end of the input. -/
structure Comparison where
  options : CodecOptions
  looser : CodecOptions
  loosens : options.LoosensTo looser
  more : Bytes
  /-- A constant need not be one that can be shown where the first input ends in it. -/
  mayHalt : Prop

def Comparison.loosened {options looser : CodecOptions} (h : options.LoosensTo looser) :
    Comparison where
  options := options
  looser := looser
  loosens := h
  more := []
  mayHalt := False

def Place.withMore (place : Place) (more : Bytes) : Place :=
  { place with rest := place.rest ++ more }

@[simp] theorem Place.withMore_nil (place : Place) : place.withMore [] = place := by
  simp [withMore]

namespace Comparison

/-- The errors by which the first run may fail where the second one does not. -/
def Excuses (c : Comparison) (error : CodecError) : Prop :=
  c.options ≠ c.looser ∧ error.IsLimit ∨ c.more ≠ [] ∧ (error.IsEnd ∨ c.mayHalt ∧ error = .halted)

/-- A site where the two runs may be compared. -/
structure Covers (c : Comparison) (codec : Codec) (site : Site) : Prop where
  noSelection : site.NoSelection
  indifferent : site.type.Indifferent c.options c.looser
  delimited : c.more ≠ [] → site.type.Delimited
  shows : c.more ≠ [] → c.mayHalt ∨ site.Showable codec

/-- The second result is the first one, unless that is an error. -/
inductive Agree (c : Comparison) {α : Type} : Except CodecError α → Except CodecError α → Prop
  | ok {a} : Agree c (.ok a) (.ok a)
  | excused {error result} : c.Excuses error → Agree c (.error error) result
  | failed {error error'} : Agree c (.error error) (.error error')

inductive Stops (c : Comparison) {α : Type} :
    EStateM.Result CodecError Place α → EStateM.Result CodecError Place α → Prop
  | ok {a stop} : Stops c (.ok a stop) (.ok a (stop.withMore c.more))
  | excused {error stop result} : c.Excuses error → Stops c (.error error stop) result
  | failed {error stop error' stop'} : Stops c (.error error stop) (.error error' stop')

/-- The second decoder does at a place of its input what the first one does there. -/
def Follows (c : Comparison) {α : Type} (decoder decoder' : Decoder α) : Prop :=
  ∀ start, c.Stops (decoder start) (decoder' (start.withMore c.more))

variable {c : Comparison}

-- ---------------------------------------------------------------------------
-- Results
-- ---------------------------------------------------------------------------

theorem Agree.refl (x : Except CodecError α) : c.Agree x x := by
  cases x with
  | ok => exact .ok
  | error => exact .failed

theorem Agree.bind {x x' : Except CodecError α} {next next' : α → Except CodecError β}
    (h : c.Agree x x')
    (h' : ∀ a, c.Agree (next a) (next' a)) : c.Agree (x >>= next) (x' >>= next') := by
  cases h with
  | ok => exact h' _
  | excused he => exact .excused he
  | failed => exact .failed

theorem Agree.mapM {f f' : α → Except CodecError β} {items : List α}
    (h : ∀ item ∈ items, c.Agree (f item) (f' item)) : c.Agree (items.mapM f) (items.mapM f') := by
  induction items with
  | nil => exact .ok
  | cons item items ih =>
    obtain ⟨hitem, hitems⟩ := List.forall_mem_cons.mp h
    rw [List.mapM_cons, List.mapM_cons]
    exact hitem.bind fun b => (ih hitems).bind fun rest => .ok

theorem Agree.ok_of_ok {x x' : Except CodecError α} (h : c.Agree x x') (hx : x = .ok a) :
    x' = .ok a := by
  subst hx
  cases h
  rfl

theorem Agree.ok_or_excused {x x' : Except CodecError α} (h : c.Agree x x') (hx : x' = .ok a) :
    x = .ok a ∨ ∃ error, x = .error error ∧ c.Excuses error := by
  subst hx
  cases h with
  | ok => exact .inl rfl
  | excused he => exact .inr ⟨_, rfl, he⟩

/-- An end of the input is excused if it is not that of the second run. -/
theorem Stops.atEnd {result : EStateM.Result CodecError Place α} (he : error.IsEnd)
    (h : c.more = [] → result = .error error stop) : c.Stops (.error error stop) result := by
  by_cases hmore : c.more = []
  · rw [h hmore]
    exact .failed
  · exact .excused (.inr ⟨hmore, .inl he⟩)

-- ---------------------------------------------------------------------------
-- Decoders
-- ---------------------------------------------------------------------------

section

open Decoder

variable {decoder decoder' : Decoder α} {read read' : Decoder Value}

theorem follows_pure (a : α) : c.Follows (pure a) (pure a) := fun _ => .ok

theorem follows_fail (error error' : String → CodecError) :
    c.Follows (fail error : Decoder α) (fail error') := fun _ => .failed

theorem Stops.bind {start : Place} {next next' : α → Decoder β}
    (h : c.Stops (decoder start) (decoder' (start.withMore c.more)))
    (h' : ∀ a stop, decoder start = .ok a stop →
      c.Stops (next a stop) (next' a (stop.withMore c.more))) :
    c.Stops ((decoder >>= next) start) ((decoder' >>= next') (start.withMore c.more)) := by
  show c.Stops (EStateM.bind decoder next start) (EStateM.bind decoder' next' _)
  rw [EStateM.bind, EStateM.bind]
  generalize decoder start = result, decoder' (start.withMore c.more) = result' at h h'
  cases h with
  | ok => exact h' _ _ rfl
  | excused he => exact .excused he
  | failed => exact .failed

theorem Follows.bind {next next' : α → Decoder β} (h : c.Follows decoder decoder')
    (h' : ∀ a, c.Follows (next a) (next' a)) : c.Follows (decoder >>= next) (decoder' >>= next') :=
  fun start => (h start).bind fun a stop _ => h' a stop

theorem Follows.ok (h : c.Follows decoder decoder') {start stop : Place}
    (hrun : decoder start = .ok a stop) :
    decoder' (start.withMore c.more) = .ok a (stop.withMore c.more) := by
  have hstops := h start
  rw [hrun] at hstops
  generalize decoder' (start.withMore c.more) = result at hstops
  cases hstops
  rfl

theorem Follows.ok_or_excused (h : c.Follows decoder decoder') {start stop' : Place}
    (hrun : decoder' (start.withMore c.more) = .ok a stop') :
    (∃ stop, decoder start = .ok a stop ∧ stop' = stop.withMore c.more) ∨
      ∃ error stop, decoder start = .error error stop ∧ c.Excuses error := by
  have hstops := h start
  rw [hrun] at hstops
  generalize decoder start = result at hstops
  cases hstops with
  | ok => exact .inl ⟨_, rfl, rfl⟩
  | excused he => exact .inr ⟨_, _, rfl, he⟩

theorem Follows.map (h : c.Follows decoder decoder') (f : α → β) :
    c.Follows (do return f (← decoder)) (do return f (← decoder')) :=
      h.bind fun a => follows_pure (f a)

theorem follows_lift {x x' : Except CodecError α} (h : c.Agree x x') :
    c.Follows (lift x) (lift x') := by
  intro start
  cases h with
  | ok => exact .ok
  | excused he => exact .excused he
  | failed => exact .failed

theorem follows_modify {f : Place → Place}
    (h : ∀ place, (f place).withMore c.more = f (place.withMore c.more)) :
    c.Follows (modify f : Decoder PUnit) (modify f) := by
  intro start
  have hstop : c.Stops (.ok () (f start)) (.ok () ((f start).withMore c.more)) := .ok
  rw [h] at hstop
  exact hstop

theorem Follows.within (h : c.Follows decoder decoder') (segment : Segment) :
    c.Follows (Decoder.within segment decoder) (Decoder.within segment decoder') :=
  (follows_modify fun _ => rfl).bind fun _ => h.bind fun a =>
    (follows_modify fun _ => rfl).bind fun _ => follows_pure a

theorem advance_withMore {place : Place} (h : n ≤ place.rest.length) :
    (place.withMore c.more).advance n = (place.advance n).withMore c.more := by
  simp [Place.withMore, Place.advance, List.drop_append_of_le_length h]

theorem follows_take (n : Nat) : c.Follows (take n) (take n) := by
  intro start
  by_cases hn : n ≤ start.rest.length
  · have htaken : ((start.rest ++ c.more).take n).length = n ∧ (start.rest.take n).length = n := by
      rw [List.length_take, List.length_take, List.length_append]
      omega
    have hfirst : take n start = .ok (start.rest.take n) (start.advance n) := by
      rw [take, if_neg (by omega)]
    have hsecond : take n (start.withMore c.more) =
        .ok (start.rest.take n) ((start.advance n).withMore c.more) := by
      rw [take, if_neg (by simp only [Place.withMore]; omega), advance_withMore hn]
      simp [Place.withMore, List.take_append_of_le_length hn]
    rw [hfirst, hsecond]
    exact .ok
  · have hfirst : take n start = .error (.endOfInput start.path.toText start.offset) start := by
      rw [take, if_pos (by rw [List.length_take]; omega)]
      rfl
    rw [hfirst]
    refine .atEnd trivial fun hmore => ?_
    rw [hmore, Place.withMore_nil]
    exact hfirst

theorem follows_readInt (kind : IntKind) (order : ByteOrder) :
    c.Follows (readInt kind order) (readInt kind order) := (follows_take kind.size).map _

theorem follows_readText : c.Follows readText readText := by
  intro start
  obtain ⟨content, hcontent⟩ : ∃ content, start.rest.takeWhile (· != 0) = content := ⟨_, rfl⟩
  cases hdrop : start.rest.drop content.length with
  | nil =>
    have hfirst : readText start =
        .error (.endOfInput start.path.toText (start.offset + start.rest.length)) start := by
      simp only [readText, hcontent, hdrop]
    rw [hfirst]
    refine .atEnd trivial fun hmore => ?_
    rw [hmore, Place.withMore_nil]
    exact hfirst
  | cons b rest =>
    obtain ⟨hzero, hrest⟩ := takeWhile_ne_zero_iff.mp ⟨hcontent, b, hdrop⟩
    have hrest' : (start.withMore c.more).rest = content ++ 0 :: (rest ++ c.more) := by
      simp [Place.withMore, hrest]
    obtain ⟨hcontent', b', hdrop'⟩ := takeWhile_ne_zero_iff.mpr ⟨hzero, hrest'⟩
    have hlength : content.length + 1 ≤ start.rest.length := by simp [hrest]
    simp only [readText, hcontent, hdrop, hcontent', hdrop', advance_withMore hlength]
    cases Bytes.utf8? content with
    | some => exact .ok
    | none => exact .failed

theorem Follows.times (h : c.Follows read read') (n index : Nat) (before : List Value) :
    c.Follows (readTimes read n index before) (readTimes read' n index before) := by
  induction n generalizing index before with
  | zero => exact follows_pure _
  | succ n ih => exact (h.within _).bind fun item => ih (index + 1) (item :: before)

/-- Items up to the end of the input are the same only if that is the same. -/
theorem Follows.greedy (h : c.Follows read read') (hmore : c.more = []) (bound : Bytes)
    (index : Nat) (before : List Value) :
    c.Follows (readGreedy read bound index before) (readGreedy read' bound index before) := by
  induction bound generalizing index before with
  | nil => exact follows_pure _
  | cons b bound ih =>
    intro start
    have hitem := h.within (.index index) start
    rw [hmore, Place.withMore_nil] at hitem ⊢
    by_cases hrest : start.rest = []
    · simp only [readGreedy, hrest]
      have hstop :
          c.Stops (.ok before.reverse start) (.ok before.reverse (start.withMore c.more)) := .ok
      rwa [hmore, Place.withMore_nil] at hstop
    · rw [readGreedy_cons _ _ _ _ _ _ hrest, readGreedy_cons _ _ _ _ _ _ hrest]
      generalize Decoder.within (.index index) read start = result,
        Decoder.within (.index index) read' start = result' at hitem
      cases hitem with
      | @ok item next =>
        rw [hmore, Place.withMore_nil]
        by_cases hoffset : next.offset = start.offset
        · simp only [hoffset, if_true]
          have hstop : c.Stops (.ok (item :: before).reverse next)
              (.ok (item :: before).reverse (next.withMore c.more)) := .ok
          rwa [hmore, Place.withMore_nil] at hstop
        · simp only [hoffset, if_false]
          have hnext := ih (index + 1) (item :: before) next
          rwa [hmore, Place.withMore_nil] at hnext
      | excused he => exact .excused he
      | failed => exact .failed

theorem Follows.greedyItems (h : c.Follows read read') (hmore : c.more = []) :
    c.Follows (α := Value) (do return .array (← readGreedy read (← get).rest 0 []))
      (do return .array (← readGreedy read' (← get).rest 0 [])) := by
  intro start
  have hstop := (h.greedy hmore start.rest 0 []).map Value.array start
  rw [hmore, Place.withMore_nil] at hstop ⊢
  exact hstop

theorem Follows.fields {read read' : ValueReader} {scope scope' : Document → Scope}
    {fields : List (String × FieldType)} (h : ∀ field ∈ fields, ∀ document,
      c.Follows (read field.2 (scope document)) (read' field.2 (scope' document)))
      (document : Document) :
    c.Follows (readFields read scope fields document)
      (readFields read' scope' fields document) := by
  induction fields generalizing document with
  | nil => exact follows_pure _
  | cons field fields ih =>
    obtain ⟨hfield, hfields⟩ := List.forall_mem_cons.mp h
    exact ((hfield document).within _).bind fun value => ih hfields _

theorem Follows.const (h : c.Follows read read') (expected : Value)
    (bytes bytes' : Unit → Option Bytes) (hshown : c.more ≠ [] → c.mayHalt ∨ bytes () ≠ none) :
    c.Follows (readConst expected bytes read) (readConst expected bytes' read') := by
  intro start
  have hstop := h start
  simp only [readConst]
  generalize read start = result, read' (start.withMore c.more) = result' at hstop
  cases hstop with
  | @ok found stop =>
    by_cases hfound : found == expected
    · simp only [hfound, if_true]
      exact .ok
    · simp only [hfound]
      exact .failed
  | @excused error stop result' he =>
    cases error with
    | endOfInput =>
      -- A limit is no end of the input, so the second run has more bytes.
      obtain ⟨-, ⟨⟩⟩ | ⟨hmore, -⟩ := he
      refine .excused (.inr ⟨hmore, ?_⟩)
      have hshown := hshown hmore
      cases hbytes : bytes () with
      | some shown => exact .inl trivial
      | none => exact .inr ⟨hshown.resolve_right (absurd hbytes), rfl⟩
    | _ => exact .excused he
  | @failed error stop error' stop' => cases error <;> cases error' <;> exact .failed

theorem Follows.block (h : c.Follows read read') (size : Nat) :
    c.Follows (readBlock size read) (readBlock size read') := by
  intro start
  by_cases hsize : size ≤ start.rest.length
  · have hensure : ensure size start = .ok () start := by
      rw [ensure, if_neg (by rw [List.length_take]; omega)]
    have hensure' : ensure size (start.withMore c.more) = .ok () (start.withMore c.more) := by
      rw [ensure, if_neg (by rw [Place.withMore, List.length_take, List.length_append]; omega)]
    have hstop := h start
    simp only [readBlock, hensure, hensure', advance_withMore hsize]
    generalize read start = result, read' (start.withMore c.more) = result' at hstop
    cases hstop with
    | @ok value stop =>
      by_cases hused : size < stop.offset - start.offset
      · simp only [Place.withMore, hused, if_true]
        exact .failed
      · simp only [Place.withMore, hused, if_false]
        exact .ok
    | excused he => exact .excused he
    | failed => exact .failed
  · have hfirst (read : Decoder Value) : readBlock size read start =
        .error (.endOfInput start.path.toText start.offset) start := by
      have hensure : ensure size start =
          .error (.endOfInput start.path.toText start.offset) start := by
        rw [ensure, if_pos (by rw [List.length_take]; omega)]
        rfl
      simp only [readBlock, hensure]
    rw [hfirst]
    refine .atEnd trivial fun hmore => ?_
    rw [hmore, Place.withMore_nil]
    exact hfirst read'

theorem follows_readBool (kind : IntKind) (order : ByteOrder) (no yes : Int) :
    c.Follows (readBool kind order no yes) (readBool kind order no yes) := by
  refine (follows_readInt kind order).bind fun found => ?_
  split
  · exact follows_pure _
  · split
    · exact follows_pure _
    · exact follows_fail _ _

theorem follows_readPacked (unit : PackedUnit) : c.Follows (readPacked unit) (readPacked unit) :=
  (follows_lift (.refl _)).bind fun _ => (follows_take unit.size).map _

theorem follows_code (f : FourCC → Value) :
    c.Follows (do
      match FourCC.ofBytes? (← take 4) with
      | some code => return f code
      | none => failAtEnd) (do
      match FourCC.ofBytes? (← take 4) with
      | some code => return f code
      | none => failAtEnd) := by
  refine (follows_take 4).bind fun content => ?_
  split
  · exact follows_pure _
  · exact fun _ => .failed

end

-- ---------------------------------------------------------------------------
-- Lengths
-- ---------------------------------------------------------------------------

theorem under_eq {scope : Scope} (hs : scope.options = c.options) (heq : c.options = c.looser) :
    scope.under c.looser = scope := by
  rw [← heq, ← hs]
  rfl

theorem agree_resolve {length : Length} (hl : length.Indifferent c.options c.looser) {scope : Scope}
    (hs : scope.options = c.options) :
    c.Agree (answered (length.resolve scope))
      (answered (length.resolve (scope.under c.looser))) := by
  cases length with
  | fixed | remaining => exact .refl _
  | field | scaled => exact .refl _
  | product => exact .refl _
  | lookup table key =>
    by_cases heq : c.options = c.looser
    · rw [under_eq hs heq]
      exact .refl _
    · rw [Length.resolve, Length.resolve, answered_bind, answered_bind]
      refine Agree.bind (.refl (answered (scope.resolve key))) fun value => ?_
      cases hcount : scope.options.lookups.count? table (Length.keyText value) with
      | some n =>
        have hcount' :
            (scope.under c.looser).options.lookups.count? table (Length.keyText value) = some n :=
          c.loosens.lookups _ _ _ (hs ▸ hcount)
        simp only [hcount, hcount']
        exact .ok
      | none =>
        simp only [hcount]
        exact .excused (.inl ⟨heq, trivial⟩)
  | computed count =>
    have hsame : count (scope.under c.looser) = count scope := hl scope hs
    simp only [Length.resolve, hsame]
    exact .refl _

theorem agree_count {length : Length} (hl : length.Indifferent c.options c.looser) {scope : Scope}
    (hs : scope.options = c.options) (path : FieldPath) :
    c.Agree (length.count path scope) (length.count path (scope.under c.looser)) := by
  refine (agree_resolve hl hs).bind fun asked => ?_
  cases asked with
  | none => exact .ok
  | some requested =>
    have hle := c.loosens.maxElements
    have hlimit : (scope.under c.looser).options.maxElements = c.looser.maxElements := rfl
    simp only [hs, hlimit]
    by_cases hwithin : requested < 0 ∨ c.options.maxElements < requested
    · rw [if_pos hwithin]
      by_cases heq : c.options = c.looser
      · rw [← heq, if_pos hwithin]
        exact .failed
      · exact .excused (.inl ⟨heq, trivial⟩)
    · rw [if_neg hwithin, if_neg (by omega)]
      exact .ok

open Decoder in
/-- What is read by a count is all that is left only if no more bytes follow. -/
theorem follows_count {length : Length} (hl : length.Indifferent c.options c.looser)
    (hd : c.more ≠ [] → length ≠ .remaining) {scope : Scope} (hs : scope.options = c.options)
    {next next' : Option Nat → Decoder β} (hsome : ∀ n, c.Follows (next (some n)) (next' (some n)))
    (hnone : c.more = [] → c.Follows (next none) (next' none)) :
    c.Follows (count length scope >>= next) (count length (scope.under c.looser) >>= next') := by
  intro start
  refine Stops.bind (follows_lift (agree_count hl hs start.path) start) fun n stop hn => ?_
  cases n with
  | some n => exact hsome n stop
  | none =>
    have hasks := (count_run.mp hn).1
    exact hnone (by_contra fun hmore => Length.not_asks_none (hd hmore) hasks) stop

-- ---------------------------------------------------------------------------
-- Types
-- ---------------------------------------------------------------------------

/-- The second reader follows the first one in all types where the runs may be compared. -/
def ReaderFollows (c : Comparison) (codec : Codec) (read read' : ValueReader) : Prop :=
  ∀ seen type scope, Site.Everywhere codec.definitions (c.Covers codec) ⟨seen, type⟩ →
  scope.options = c.options →
    c.Follows (read type scope) (read' type (scope.under c.looser))

/-- What the second run depends on, beside what the first one does. -/
structure Reading (c : Comparison) (ctx ctx' : ReadContext) : Prop where
  definitions : ctx'.codec.definitions = ctx.codec.definitions
  deeper : ∀ read ∈ ctx.deeper, ∃ read' ∈ ctx'.deeper, c.ReaderFollows ctx.codec read read'
  limit : ctx.deeper = none → ctx'.deeper = none ∨ c.options ≠ c.looser

end Comparison

namespace ReadContext

open Decoder Comparison

variable {c : Comparison} {ctx ctx' : ReadContext}

theorem follows_descend (hctx : c.Reading ctx ctx') {f f' : ValueReader → Decoder α}
    (h : ∀ read read', c.ReaderFollows ctx.codec read read' → c.Follows (f read) (f' read')) :
    c.Follows (ctx.descend f) (ctx'.descend f') := by
  intro start
  rw [descend, descend]
  cases hread : ctx.deeper with
  | some read =>
    obtain ⟨read', hread', hfollows⟩ := hctx.deeper read hread
    rw [Option.mem_def.mp hread']
    exact h read read' hfollows start
  | none =>
    obtain hnone | hne := hctx.limit hread
    · rw [hnone]
      exact .failed
    · exact .excused (.inl ⟨hne, trivial⟩)

theorem follows_sequence {types : List FieldType} {scope scope' : Scope}
    (h : ∀ type ∈ types, c.Follows (ctx.read type scope) (ctx'.read type scope')) (index : Nat) :
    c.Follows (ctx.readSequence index types scope) (ctx'.readSequence index types scope') := by
  induction types generalizing index with
  | nil => exact follows_pure _
  | cons type types ih =>
    obtain ⟨htype, htypes⟩ := List.forall_mem_cons.mp h
    rw [readSequence, readSequence]
    exact (htype.within _).bind fun item => (ih htypes _).map _

theorem follows_case {default : Option FieldType} {scope scope' : Scope} (discriminant : Value)
    (hcases : ∀ case ∈ cases, c.Follows (ctx.read case.2 scope) (ctx'.read case.2 scope'))
    (hdefault : ∀ type ∈ default, c.Follows (ctx.read type scope) (ctx'.read type scope')) :
    c.Follows (match ctx.readCase discriminant cases scope with
      | some decoder => decoder
      | none => ctx.readDefault discriminant default scope)
      (match ctx'.readCase discriminant cases scope' with
      | some decoder => decoder
      | none => ctx'.readDefault discriminant default scope') := by
  induction cases with
  | nil =>
    cases default with
    | none =>
      simp only [readCase, readDefault]
      exact follows_fail _ _
    | some type => exact hdefault type rfl
  | cons case cases ih =>
    obtain ⟨key, type⟩ := case
    obtain ⟨hcase, hcases⟩ := List.forall_mem_cons.mp hcases
    by_cases hkey : key.matches discriminant
    · simpa only [readCase, hkey, if_true] using hcase
    · simpa only [readCase, hkey, Bool.false_eq_true, if_false] using ih hcases

theorem follows_read (hctx : c.Reading ctx ctx') (type : FieldType)
    (hs : Site.Everywhere ctx.codec.definitions (c.Covers ctx.codec) ⟨seen, type⟩) {scope : Scope}
    (ho : scope.options = c.options) :
    c.Follows (ctx.read type scope) (ctx'.read type (scope.under c.looser)) := by
  induction type using FieldType.induction with
  | int kind order => exact (follows_readInt kind order).map _
  | float order => exact (follows_take 4).map _
  | text => exact follows_readText.map _
  | id =>
    rw [read, read]
    exact follows_code _
  | reversedId =>
    rw [read, read]
    exact follows_code _
  | bytes length =>
    rw [read, read]
    refine follows_count hs.here.indifferent hs.here.delimited ho (fun n => (follows_take n).map _)
      fun hmore start => ?_
    rw [hmore, Place.withMore_nil]
    have hstop := (follows_take (c := c) start.rest.length).map Value.bytes start
    rwa [hmore, Place.withMore_nil] at hstop
  | const inner value ih =>
    rw [read, read]
    exact (ih (hs.part .const)).const _ _ _ fun hmore =>
      (hs.here.shows hmore).imp_right fun hshows => hshows inner value rfl
  | bool kind order no yes =>
    rw [read, read]
    exact follows_readBool kind order no yes
  | enum repr variants ih =>
    rw [read, read]
    exact (ih (hs.part .enum)).map _
  | flags set => exact (follows_take _).map _
  | record name fields =>
    rw [read, read]
    refine follows_descend hctx fun read read' hread =>
      Follows.map (Follows.fields (fun field hf document => ?_) _) _
    obtain ⟨_, hfield⟩ := hs.field hf
    exact hread _ _ _ hfield ho
  | array length element ih =>
    have helement := ih (hs.part .element)
    rw [read, read]
    exact follows_count hs.here.indifferent hs.here.delimited ho
      (fun n => (helement.times n 0 []).map _)
      helement.greedyItems
  | greedy element ih =>
    have hmore : c.more = [] := by_contra hs.here.delimited
    rw [read, read]
    exact (ih (hs.part .greedy)).greedyItems hmore
  | sequence types ih =>
    rw [read, read]
    exact (follows_sequence (fun type ht => ih type ht (hs.part (.item ht))) 0).map _
  | switch on cases default ihc ihd =>
    rw [read, read]
    refine (follows_lift (.refl _)).bind fun discriminant => follows_case discriminant ?_ ?_
    · exact fun case hc => ihc case hc (hs.part (.case hc))
    · exact fun type ht => ihd type ht (hs.part (.default ht))
  | conditional condition yes no ihy ihn =>
    have hsame : condition (scope.under c.looser) = condition scope := hs.here.indifferent scope ho
    rw [read, read, hsame]
    refine (follows_lift (.refl _)).bind fun truth => ?_
    cases truth with
    | false => exact ihn (hs.part .no)
    | true => exact ihy (hs.part .yes)
  | select alternatives => exact absurd rfl (hs.here.noSelection alternatives)
  | checked relation holds inner ih =>
    rw [read, read]
    refine (ih (hs.part .checked)).bind fun value => ?_
    have hsame : holds value (scope.under c.looser) = holds value scope :=
      hs.here.indifferent value scope ho
    rw [hsame]
    split
    · exact follows_pure _
    · exact follows_fail _ _
  | padded size inner ih =>
    rw [read, read]
    exact (ih (hs.part .padded)).block size
  | packed unit =>
    rw [read, read]
    exact follows_readPacked unit
  | lazy slot =>
    rw [read, read]
    refine follows_descend hctx fun read read' hread => ?_
    rw [hctx.definitions]
    exact hread _ _ _ (hs.part .lazy) ho

end ReadContext

/-- The first run has fewer levels left, as many as its limit is lower. -/
theorem Comparison.levels (c : Comparison) {P : Nat → Nat → Prop} (none : P 0 0)
    (first : c.options ≠ c.looser → ∀ m, P 0 (m + 1)) (both : ∀ n m, P n m → P (n + 1) (m + 1))
    (n m : Nat) (h : n + c.looser.maxDepth = m + c.options.maxDepth) : P n m := by
  have hle := c.loosens.maxDepth
  induction n generalizing m with
  | zero =>
    cases m with
    | zero => exact none
    | succ m =>
      refine first (fun heq => ?_) m
      rw [heq] at h
      omega
  | succ n ih =>
    obtain ⟨m, rfl⟩ : ∃ k, m = k + 1 := ⟨m - 1, by omega⟩
    exact both n m (ih m (by omega))

theorem FieldType.readerFollows_readAt {c : Comparison} (codec codec' : Codec)
    (hd : codec'.definitions = codec.definitions) (n m : Nat)
    (hlevels : n + c.looser.maxDepth = m + c.options.maxDepth) :
    c.ReaderFollows codec (readAt codec n) (readAt codec' m) := by
  have hread {below below' : Option ValueReader}
      (hctx : c.Reading ⟨codec, below⟩ ⟨codec', below'⟩) :
      c.ReaderFollows codec (ReadContext.read ⟨codec, below⟩) (ReadContext.read ⟨codec', below'⟩) :=
    fun _ type _ hs ho => ReadContext.follows_read hctx type hs ho
  refine c.levels (P := fun n m => c.ReaderFollows codec (readAt codec n) (readAt codec' m))
    (hread ⟨hd, nofun, fun _ => .inl rfl⟩) (fun hne m => hread ⟨hd, nofun, fun _ => .inr hne⟩)
    (fun n m ih => hread ⟨hd, ?_, nofun⟩) n m hlevels
  rintro _ ⟨⟩
  exact ⟨_, rfl, ih⟩

namespace Schema

theorem follows_decoder {schema : Schema} {c : Comparison}
    (hs : schema.Everywhere (c.Covers (schema.codec c.options))) :
    c.Follows (schema.decoder c.options) (schema.decoder c.looser) := by
  refine Comparison.Follows.fields (fun field hf document => ?_) _
  obtain ⟨_, hfield⟩ := hs.field hf
  exact FieldType.readerFollows_readAt (schema.codec c.options) (schema.codec c.looser) rfl _ _
    (Nat.add_comm _ _) _ _ (Scope.root document c.options) hfield rfl

theorem covers_loosened {schema : Schema} (hn : schema.Everywhere Site.NoSelection)
    {options looser : CodecOptions}
    (hi : schema.Everywhere fun site => site.type.Indifferent options looser)
    (h : options.LoosensTo looser) (codec : Codec) :
    schema.Everywhere ((Comparison.loosened h).Covers codec) :=
  fun before field after heq part hpart =>
    ⟨hn before field after heq part hpart, hi before field after heq part hpart,
      fun hmore => absurd rfl hmore, fun hmore => absurd rfl hmore⟩

theorem decoder_of_loosens {schema : Schema} (hn : schema.Everywhere Site.NoSelection)
    {options looser : CodecOptions}
    (hi : schema.Everywhere fun site => site.type.Indifferent options looser)
    (h : options.LoosensTo looser) {start stop : Place}
    (hrun : schema.decoder options start = .ok document stop) :
    schema.decoder looser start = .ok document stop := by
  have hok := (follows_decoder (covers_loosened hn hi h _)).ok hrun
  rwa [show (Comparison.loosened h).more = [] from rfl, Place.withMore_nil,
    Place.withMore_nil] at hok

theorem decode_of_error {schema : Schema}
    (h : schema.decoder options (.start bytes) = .error error stop) :
    schema.decode options bytes = .error error := by
  rw [decode, ← decoder, h]

theorem decode_of_trailing {schema : Schema}
    (h : schema.decoder options (.start bytes) = .ok document stop)
    (hrest : stop.rest ≠ []) (ht : options.allowTrailing = false) :
    schema.decode options bytes = .error (.trailingData stop.offset stop.rest.length) := by
  obtain ⟨offset, rest, path⟩ := stop
  obtain ⟨b, rest, rfl⟩ := List.exists_cons_of_ne_nil hrest
  rw [decode, ← decoder, h]
  simp [ht]

end Schema

end Mapsmith
