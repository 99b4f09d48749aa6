import Mapsmith.Proofs.Schema.Layout
import Mapsmith.Proofs.Schema.Site

/-!
# Decoding finds what lies in the bytes

A decoder reads a layout if it gives a value exactly where the value lies, takes
the bytes of its cells, and leaves the path as it was. Each decoder has a lemma
that says which layout it reads, and `Schema.decode_ok_iff` puts them together:
without selections, a document decodes from the bytes if and only if it lies in
cells that match them.
-/

namespace Mapsmith

-- ---------------------------------------------------------------------------
-- Reading
-- ---------------------------------------------------------------------------

/-- From the one place to the other lie just these bytes. -/
structure Place.Takes (start : Place) (taken : Bytes) (stop : Place) : Prop where
  rest : start.rest = taken ++ stop.rest
  offset : stop.offset = start.offset + taken.length
  path : stop.path = start.path

namespace Place

theorem Takes.refl (place : Place) : place.Takes [] place := ⟨rfl, rfl, rfl⟩

theorem Takes.trans {start middle stop : Place} (h : start.Takes taken middle)
    (h' : middle.Takes taken' stop) : start.Takes (taken ++ taken') stop := by
  refine ⟨?_, ?_, h'.path.trans h.path⟩
  · rw [h.rest, h'.rest, List.append_assoc]
  · rw [h'.offset, h.offset, List.length_append, Nat.add_assoc]

theorem Takes.split {start stop : Place} (h : start.Takes (taken ++ taken') stop) :
    ∃ middle, start.Takes taken middle ∧ middle.Takes taken' stop := by
  refine ⟨⟨start.offset + taken.length, taken' ++ stop.rest, start.path⟩, ⟨?_, rfl, rfl⟩, rfl, ?_,
    h.path⟩
  · rw [h.rest, List.append_assoc]
  · rw [h.offset, List.length_append, Nat.add_assoc]

theorem Takes.eq {start stop stop' : Place} (h : start.Takes taken stop)
    (h' : start.Takes taken stop') : stop = stop' := by
  have hrest := List.append_cancel_left (h.rest.symm.trans h'.rest)
  cases stop
  cases stop'
  cases hrest
  cases h.offset.trans h'.offset.symm
  cases h.path.trans h'.path.symm
  rfl

theorem takes_advance {start : Place} {rest : Bytes} (h : start.rest = taken ++ rest) :
    start.Takes taken (start.advance taken.length) := by
  refine ⟨?_, rfl, rfl⟩
  simp [advance, h]

theorem takes_nil {start stop : Place} : start.Takes [] stop ↔ stop = start :=
  ⟨fun h => h.eq (.refl start), fun h => h ▸ .refl start⟩

end Place

namespace Decoder

/-- The decoder gives what lies at a place, and takes the bytes of its cells. -/
def ReadsAt (start : Place) (decoder : Decoder α) (layout : Nat → α → Cells → Prop) : Prop :=
  ∀ a stop, decoder start = .ok a stop ↔ ∃ taken cells, start.Takes taken stop ∧
    cells.Match taken ∧ layout stop.rest.length a cells

/-- The decoder gives what lies at its place, whatever place that is. -/
def Reads (decoder : Decoder α) (layout : Nat → α → Cells → Prop) : Prop :=
  ∀ start, decoder.ReadsAt start layout

theorem Reads.congr {decoder : Decoder α} (h : decoder.Reads layout)
    (heq : ∀ left a cells, layout left a cells ↔ layout' left a cells) : decoder.Reads layout' := by
  intro start a stop
  simp only [h start a stop, heq]

theorem reads_pure (a : α) : Reads (pure a) fun _ b cells => cells = [] ∧ b = a := by
  intro start b stop
  constructor
  · rintro ⟨⟩
    exact ⟨[], [], .refl start, by simp, rfl, rfl⟩
  · rintro ⟨taken, _, htakes, hmatch, rfl, rfl⟩
    cases Cells.match_nil.mp hmatch
    cases Place.takes_nil.mp htakes
    rfl

theorem reads_lift (x : Except CodecError α) : Reads (lift x) fun _ b cells => cells = [] ∧
    x = .ok b := by
  intro start b stop
  cases x with
  | ok a =>
    refine (reads_pure a start b stop).trans ?_
    simp [eq_comm]
  | error e =>
    refine iff_of_false nofun ?_
    rintro ⟨_, _, _, _, _, h⟩
    cases h

theorem reads_fail (error : String → CodecError) :
    Reads (α := α) (fail error) fun _ _ _ => False := by
  intro start b stop
  refine iff_of_false nofun ?_
  rintro ⟨_, _, _, _, h⟩
  exact h

theorem Reads.bind {decoder : Decoder α} {next : α → Decoder β}
    {layout' : α → Nat → β → Cells → Prop} (h : decoder.Reads layout)
    (h' : ∀ a, (next a).Reads (layout' a)) : Reads (decoder >>= next) fun left b cells =>
      ∃ a first second, layout (left + second.length) a first ∧ layout' a left b second ∧
        cells = first ++ second := by
  intro start b stop
  constructor
  · intro hb
    cases hd : decoder start with
    | error e place =>
      have : (decoder >>= next) start = .error e place := by
        show EStateM.bind decoder next start = _
        rw [EStateM.bind, hd]
      cases this.symm.trans hb
    | ok a middle =>
      have hn : next a middle = .ok b stop := by
        rw [← hb]
        show _ = EStateM.bind decoder next start
        rw [EStateM.bind, hd]
      obtain ⟨taken, first, htakes, hmatch, hfirst⟩ := (h _ _ _).mp hd
      obtain ⟨taken', second, htakes', hmatch', hsecond⟩ := (h' a _ _ _).mp hn
      refine ⟨_, _, htakes.trans htakes', Cells.match_append.mpr ⟨_, _, rfl, hmatch, hmatch'⟩,
        a, first, second, ?_, hsecond, rfl⟩
      rwa [hmatch'.length, Nat.add_comm, ← List.length_append, ← htakes'.rest]
  · rintro ⟨_, _, htakes, hmatch, a, first, second, hfirst, hsecond, rfl⟩
    obtain ⟨taken, taken', rfl, hmatch, hmatch'⟩ := Cells.match_append.mp hmatch
    obtain ⟨middle, htakes, htakes'⟩ := htakes.split
    have hd : decoder start = .ok a middle := by
      refine (h _ _ _).mpr ⟨taken, first, htakes, hmatch, ?_⟩
      rwa [htakes'.rest, List.length_append, Nat.add_comm, ← hmatch'.length]
    have hn : next a middle = .ok b stop :=
      (h' a _ _ _).mpr ⟨taken', second, htakes', hmatch', hsecond⟩
    show EStateM.bind decoder next start = _
    rw [EStateM.bind, hd]
    exact hn

theorem ReadsAt.map {decoder : Decoder α} (h : decoder.ReadsAt start layout) (f : α → β) :
    ReadsAt start (do return f (← decoder)) fun left b cells => ∃ a, layout left a cells ∧
      b = f a := by
  intro b stop
  have hrun : (do return f (← decoder) : Decoder β) start = .ok b stop ↔
      ∃ a, decoder start = .ok a stop ∧ b = f a := by
    show EStateM.bind decoder _ start = _ ↔ _
    rw [EStateM.bind]
    cases decoder start with
    | error => simp
    | ok a stop' =>
      constructor
      · rintro ⟨⟩
        exact ⟨a, rfl, rfl⟩
      · rintro ⟨_, ⟨⟩, rfl⟩
        rfl
  rw [hrun]
  constructor
  · rintro ⟨a, ha, rfl⟩
    obtain ⟨taken, cells, htakes, hmatch, ha⟩ := (h _ _).mp ha
    exact ⟨taken, cells, htakes, hmatch, a, ha, rfl⟩
  · rintro ⟨taken, cells, htakes, hmatch, a, ha, rfl⟩
    exact ⟨a, (h _ _).mpr ⟨taken, cells, htakes, hmatch, ha⟩, rfl⟩

theorem Reads.map {decoder : Decoder α} (h : decoder.Reads layout) (f : α → β) :
    Reads (do return f (← decoder)) fun left b cells => ∃ a, layout left a cells ∧ b = f a :=
  fun start => (h start).map f

theorem Reads.lift_bind {x : Except CodecError α} {next : α → Decoder β}
    {layout : α → Nat → β → Cells → Prop} (h : ∀ a, (next a).Reads (layout a)) :
    Reads (lift x >>= next) fun left b cells => ∃ a, x = .ok a ∧ layout a left b cells := by
  refine ((reads_lift x).bind h).congr fun left b cells => ?_
  constructor
  · rintro ⟨a, _, second, ⟨rfl, hx⟩, hb, rfl⟩
    exact ⟨a, hx, hb⟩
  · rintro ⟨a, hx, hb⟩
    exact ⟨a, [], cells, ⟨rfl, hx⟩, hb, rfl⟩

theorem Reads.within {decoder : Decoder α} (h : decoder.Reads layout) (segment : Segment) :
    (Decoder.within segment decoder).Reads layout := by
  intro start a stop
  rw [within_apply]
  constructor
  · intro hb
    split at hb
    · rename_i a' stop' hd
      cases hb
      obtain ⟨taken, cells, htakes, hmatch, ha⟩ := (h _ _ _).mp hd
      refine ⟨taken, cells, ⟨htakes.rest, htakes.offset, ?_⟩, hmatch, ha⟩
      show stop'.path.pop = _
      rw [htakes.path]
      rfl
    · cases hb
  · rintro ⟨taken, cells, htakes, hmatch, ha⟩
    have hd : decoder { start with path := start.path.push segment } =
        .ok a { stop with path := start.path.push segment } :=
      (h _ _ _).mpr ⟨taken, cells, ⟨htakes.rest, htakes.offset, rfl⟩, hmatch, ha⟩
    rw [hd]
    simp [← htakes.path]

-- ---------------------------------------------------------------------------
-- Words and texts
-- ---------------------------------------------------------------------------

theorem reads_take (n : Nat) :
    (take n).Reads fun _ content cells => content.length = n ∧ cells = .of content := by
  intro start content stop
  simp only [take]
  constructor
  · intro h
    split at h
    · cases h
    · rename_i hlong
      cases h
      have hlen : (start.rest.take n).length = n := by
        rw [List.length_take] at hlong ⊢
        omega
      have htakes := Place.takes_advance (List.take_append_drop n start.rest).symm
      rw [hlen] at htakes
      exact ⟨_, _, htakes, Cells.match_of.mpr rfl, hlen, rfl⟩
  · rintro ⟨_, _, htakes, hmatch, rfl, rfl⟩
    cases Cells.match_of.mp hmatch
    have htaken : start.rest.take content.length = content := by rw [htakes.rest, List.take_left]
    rw [htaken, if_neg (Nat.lt_irrefl _), htakes.eq (Place.takes_advance htakes.rest)]

theorem reads_readInt (kind : IntKind) (order : ByteOrder) : (readInt kind order).Reads
    fun _ n cells => ∃ word, word.length = kind.size ∧ cells = .of word ∧
      n = kind.decode order word := by
  refine ((reads_take kind.size).map (kind.decode order)).congr fun left n cells => ?_
  simp only [and_assoc]

theorem takeWhile_ne_zero_iff {bytes content rest : Bytes} :
    bytes.takeWhile (· != 0) = content ∧ (∃ b, bytes.drop content.length = b :: rest) ↔
      0 ∉ content ∧ bytes = content ++ 0 :: rest := by
  induction bytes generalizing content with
  | nil => cases content <;> simp
  | cons b bytes ih =>
    cases content with
    | nil => by_cases hb : b = 0 <;> simp [hb]
    | cons c content =>
      have hstep : (b :: bytes).takeWhile (· != 0) = c :: content ↔
          b ≠ 0 ∧ b = c ∧ bytes.takeWhile (· != 0) = content := by
        by_cases hb : b = 0 <;> simp [hb]
      simp only [hstep, and_assoc, List.length_cons, List.drop_succ_cons, ih, List.mem_cons, not_or,
        List.cons_append, List.cons.injEq]
      constructor
      · rintro ⟨hb, rfl, hmem, hbytes⟩
        exact ⟨hb.symm, hmem, rfl, hbytes⟩
      · rintro ⟨hb, hmem, rfl, hbytes⟩
        exact ⟨Ne.symm hb, rfl, hmem, hbytes⟩

theorem reads_readText : readText.Reads fun _ text cells =>
    0 ∉ Bytes.ofText text ∧ cells = .of (Bytes.ofText text ++ [0]) := by
  intro start text stop
  simp only [readText]
  constructor
  · intro h
    split at h
    · cases h
    · rename_i hdrop
      obtain ⟨hmem, hrest⟩ := takeWhile_ne_zero_iff.mp ⟨rfl, _, hdrop⟩
      split at h
      · rename_i hutf8
        cases h
        rw [← Bytes.ofText_of_utf8? hutf8] at hmem hrest ⊢
        refine ⟨_, _, ?_, Cells.match_of.mpr rfl, hmem, rfl⟩
        have htakes : start.Takes (Bytes.ofText text ++ [0]) _ :=
          Place.takes_advance (hrest.trans (List.append_cons _ _ _))
        rwa [List.length_append] at htakes
      · cases h
  · rintro ⟨_, _, htakes, hmatch, hmem, rfl⟩
    cases Cells.match_of.mp hmatch
    have hrest : start.rest = Bytes.ofText text ++ 0 :: stop.rest := by
      rw [htakes.rest, List.append_assoc]
      rfl
    obtain ⟨hcontent, b, hdrop⟩ := takeWhile_ne_zero_iff.mpr ⟨hmem, hrest⟩
    rw [hcontent, hdrop]
    simp only [Bytes.utf8?_ofText]
    rw [htakes.eq (Place.takes_advance htakes.rest), List.length_append]
    rfl

-- ---------------------------------------------------------------------------
-- Items and fields
-- ---------------------------------------------------------------------------

theorem reads_count (length : Length) (scope : Scope) {next : Option Nat → Decoder β}
    {layout : Option Nat → Nat → β → Cells → Prop} (h : ∀ n, (next n).Reads (layout n)) :
    Reads (count length scope >>= next) fun left b cells =>
      ∃ n, length.Asks scope n ∧ layout n left b cells := by
  intro start b stop
  have hcount : (count length scope >>= next) start =
      (lift (length.count start.path scope) >>= next) start := rfl
  rw [hcount, Reads.lift_bind h]
  simp only [Length.count_ok]

theorem Reads.times {read : Decoder Value} (h : read.Reads item) (n index : Nat)
    (before : List Value) : (readTimes read n index before).Reads fun left items cells =>
      ∃ rest, rest.length = n ∧ ItemsLie item left rest cells ∧ items = before.reverse ++ rest := by
  induction n generalizing index before with
  | zero =>
    refine (reads_pure before.reverse).congr fun left items cells => ?_
    constructor
    · rintro ⟨rfl, rfl⟩
      exact ⟨[], rfl, .nil, by simp⟩
    · rintro ⟨rest, hlen, hlie, rfl⟩
      cases List.length_eq_zero_iff.mp hlen
      cases hlie
      simp
  | succ n ih =>
    refine ((h.within _).bind fun value => ih (index + 1) (value :: before)).congr
      fun left items cells => ?_
    constructor
    · rintro ⟨value, first, second, hvalue, ⟨rest, hlen, hlie, rfl⟩, rfl⟩
      exact ⟨value :: rest, by simp [hlen], .cons hvalue hlie, by simp⟩
    · rintro ⟨rest, hlen, hlie, rfl⟩
      cases hlie with
      | nil => cases hlen
      | @cons value first rest second hvalue hlie =>
        refine ⟨value, first, second, hvalue, ⟨rest, by simpa using hlen, hlie, ?_⟩, rfl⟩
        simp

theorem greedyLie_nil_iff : GreedyLie item 0 items [] ↔ items = [] := by
  constructor
  · intro h
    generalize hc : ([] : Cells) = cells at h
    cases h with
    | done => rfl
    | stuck hpos => cases hpos
    | cons hne => exact absurd (List.append_eq_nil_iff.mp hc.symm).1 hne
  · rintro rfl
    exact .done

theorem readsAt_end (start : Place) (hrest : start.rest = []) (before : List Value) :
    ReadsAt start (pure before.reverse) fun left items cells =>
      ∃ rest, GreedyLie item left rest cells ∧ items = before.reverse ++ rest := by
  intro items stop
  constructor
  · rintro ⟨⟩
    refine ⟨[], [], .refl start, by simp, [], ?_, by simp⟩
    rw [hrest]
    exact .done
  · rintro ⟨taken, cells, htakes, hmatch, rest, hlie, rfl⟩
    have hnil := htakes.rest
    rw [hrest, eq_comm, List.append_eq_nil_iff] at hnil
    obtain ⟨rfl, hstop⟩ := hnil
    cases Place.takes_nil.mp htakes
    cases List.length_eq_zero_iff.mp hmatch.length
    rw [hstop, List.length_nil, greedyLie_nil_iff] at hlie
    simp [hlie]
    rfl

theorem readGreedy_cons (read : Decoder Value) (b : UInt8) (bound : Bytes) (index : Nat)
    (before : List Value) (start : Place) (hrest : start.rest ≠ []) :
    readGreedy read (b :: bound) index before start =
      match within (.index index) read start with
      | .error error stop => .error error stop
      | .ok item next =>
        if next.offset = start.offset then .ok (item :: before).reverse next
        else readGreedy read bound (index + 1) (item :: before) next := by
  obtain ⟨first, rest, hr⟩ := List.exists_cons_of_ne_nil hrest
  cases hw : within (.index index) read start with
  | error => simp [readGreedy, hr, hw]
  | ok => simp [readGreedy, hr, hw]

theorem Reads.greedy {read : Decoder Value} (h : read.Reads item) (bound : Bytes) (index : Nat)
    (before : List Value) (start : Place) (hbound : start.rest.length ≤ bound.length) :
    ReadsAt start (readGreedy read bound index before) fun left items cells =>
      ∃ rest, GreedyLie item left rest cells ∧ items = before.reverse ++ rest := by
  induction bound generalizing start index before with
  | nil => exact readsAt_end start (List.length_eq_zero_iff.mp (by simpa using hbound)) before
  | cons b bound ih =>
    intro items stop
    by_cases hrest : start.rest = []
    · have hend : readGreedy read (b :: bound) index before start =
          (pure before.reverse : Decoder _) start := by
        rw [readGreedy]
        simp only [hrest]
        rfl
      rw [hend]
      exact readsAt_end start hrest before items stop
    rw [readGreedy_cons _ _ _ _ _ _ hrest]
    have hpos : 0 < start.rest.length := List.length_pos_iff.mpr hrest
    have hnext {taken next} (htakes : start.Takes taken next) (ht : taken ≠ []) :
        next.rest.length ≤ bound.length := by
      have hlen := congrArg List.length htakes.rest
      have := List.length_pos_iff.mpr ht
      rw [List.length_append] at hlen
      rw [List.length_cons] at hbound
      omega
    constructor
    · intro hrun
      split at hrun
      · cases hrun
      · rename_i value next hvalue
        obtain ⟨taken, first, htakes, hmatch, hfirst⟩ := (h.within _ _ _ _).mp hvalue
        split at hrun
        · rename_i hoffset
          cases hrun
          have htaken : taken = [] := by
            have := htakes.offset
            exact List.length_eq_zero_iff.mp (by omega)
          subst htaken
          cases List.length_eq_zero_iff.mp hmatch.length
          cases Place.takes_nil.mp htakes
          exact ⟨[], [], htakes, hmatch, [value], .stuck hpos hfirst, by simp⟩
        · rename_i hoffset
          have htaken : taken ≠ [] := by
            rintro rfl
            exact hoffset htakes.offset
          have hfirst' : first ≠ [] := by
            rintro rfl
            exact htaken (Cells.match_nil.mp hmatch)
          obtain ⟨taken', second, htakes', hmatch', rest, hlie, rfl⟩ :=
            (ih _ _ next (hnext htakes htaken) _ _).mp hrun
          refine ⟨_, _, htakes.trans htakes', Cells.match_append.mpr ⟨_, _, rfl, hmatch, hmatch'⟩,
            value :: rest, .cons hfirst' ?_ hlie, by simp⟩
          rwa [hmatch'.length, Nat.add_comm, ← List.length_append, ← htakes'.rest]
    · rintro ⟨taken, cells, htakes, hmatch, rest, hlie, rfl⟩
      generalize hleft : stop.rest.length = left at hlie
      cases hlie with
      | done =>
        cases Cells.match_nil.mp hmatch
        rw [htakes.rest, List.nil_append] at hpos
        omega
      | @stuck _ value _ hvalue =>
        cases Cells.match_nil.mp hmatch
        have hd : Decoder.within (.index index) read start = .ok value stop :=
          (h.within _ _ _ _).mpr ⟨_, _, htakes, hmatch, hleft ▸ hvalue⟩
        cases Place.takes_nil.mp htakes
        rw [hd]
        simp
      | @cons _ value first rest second hne hvalue hlie =>
        obtain ⟨taken, taken', rfl, hmatch, hmatch'⟩ := Cells.match_append.mp hmatch
        obtain ⟨middle, htakes, htakes'⟩ := htakes.split
        have hd : Decoder.within (.index index) read start = .ok value middle := by
          refine (h.within _ _ _ _).mpr ⟨taken, first, htakes, hmatch, ?_⟩
          rwa [htakes'.rest, List.length_append, Nat.add_comm, ← hmatch'.length, hleft]
        have htaken : taken ≠ [] := by
          rintro rfl
          exact hne (List.length_eq_zero_iff.mp hmatch.length)
        have hoffset : middle.offset ≠ start.offset := by
          have := List.length_pos_iff.mpr htaken
          rw [htakes.offset]
          omega
        rw [hd]
        simp only [hoffset, if_false]
        refine (ih _ _ middle (hnext htakes htaken) _ _).mpr
          ⟨taken', second, htakes', hmatch', rest, hleft ▸ hlie, by simp⟩

theorem Reads.fields {read : ValueReader} {layout : Layout} {scope : Document → Scope}
    {fields : List (String × FieldType)}
    (h : ∀ field ∈ fields, ∀ document, (read field.2 (scope document)).Reads
      (layout field.2 (scope document))) (document : Document) :
    (readFields read scope fields document).Reads (FieldsLie layout scope fields document) := by
  induction fields generalizing document with
  | nil =>
    refine (reads_pure document).congr fun left final cells => ?_
    constructor
    · rintro ⟨rfl, rfl⟩
      exact .nil
    · rintro ⟨⟩
      exact ⟨rfl, rfl⟩
  | cons field fields ih =>
    obtain ⟨name, type⟩ := field
    obtain ⟨htype, hfields⟩ := List.forall_mem_cons.mp h
    refine (((htype document).within (.name name)).bind fun value =>
      ih hfields (document.insert name value)).congr fun left final cells => ?_
    constructor
    · rintro ⟨value, first, second, hvalue, hlie, rfl⟩
      exact .cons hvalue hlie
    · rintro (_ | ⟨hvalue, hlie⟩)
      exact ⟨_, _, _, hvalue, hlie, rfl⟩

-- ---------------------------------------------------------------------------
-- Constants, blocks and units
-- ---------------------------------------------------------------------------

theorem readConst_ok_iff {read : Decoder Value} {start stop : Place} :
    readConst expected expectedBytes read start = .ok value stop ↔
      read start = .ok value stop ∧ value == expected := by
  simp only [readConst]
  cases hr : read start with
  | ok found stop' =>
    by_cases heq : found == expected
    · simp only [heq, if_true]
      constructor
      · rintro ⟨⟩
        exact ⟨rfl, heq⟩
      · exact fun h => h.1
    · simp only [heq]
      refine iff_of_false nofun ?_
      rintro ⟨⟨⟩, heq'⟩
      exact heq heq'
  | error error stop' => cases error <;> exact iff_of_false nofun nofun

theorem Reads.const {read : Decoder Value} (h : read.Reads layout) (expected : Value)
    (expectedBytes : Unit → Option Bytes) : (readConst expected expectedBytes read).Reads
      fun left value cells => layout left value cells ∧ value == expected := by
  intro start value stop
  rw [readConst_ok_iff, h start]
  constructor
  · rintro ⟨⟨taken, cells, htakes, hmatch, hvalue⟩, heq⟩
    exact ⟨taken, cells, htakes, hmatch, hvalue, heq⟩
  · rintro ⟨taken, cells, htakes, hmatch, hvalue, heq⟩
    exact ⟨⟨taken, cells, htakes, hmatch, hvalue⟩, heq⟩

theorem reads_readBool (kind : IntKind) (order : ByteOrder) (no yes : Int) :
    (readBool kind order no yes).Reads fun _ value cells => ∃ word, word.length = kind.size ∧
      cells = .of word ∧ (kind.decode order word = yes ∧ value = .bool true ∨
        kind.decode order word = no ∧ no ≠ yes ∧ value = .bool false) := by
  have hnext (found : Int) : Reads (α := Value) (if found = yes then return .bool true
      else if found = no then return .bool false
      else fail (.validation · (.notBoolean no yes found))) fun _ value cells => cells = [] ∧
        (found = yes ∧ value = .bool true ∨ found = no ∧ no ≠ yes ∧ value = .bool false) := by
    split
    · refine (reads_pure (Value.bool true)).congr fun left value cells => ?_
      grind
    · split
      · refine (reads_pure _).congr fun left value cells => ?_
        grind
      · refine (reads_fail _).congr fun left value cells => ?_
        grind
  refine ((reads_readInt kind order).bind hnext).congr fun left value cells => ?_
  constructor
  · rintro ⟨_, _, _, ⟨word, hlen, rfl, rfl⟩, ⟨rfl, h⟩, rfl⟩
    exact ⟨word, hlen, by simp, h⟩
  · rintro ⟨word, hlen, rfl, h⟩
    exact ⟨_, _, [], ⟨word, hlen, rfl, rfl⟩, ⟨rfl, h⟩, by simp⟩

theorem readBlock_ok_iff {read : Decoder Value} {start stop : Place} :
    readBlock size read start = .ok value stop ↔ size ≤ start.rest.length ∧ ∃ middle,
      read start = .ok value middle ∧ middle.offset - start.offset ≤ size ∧
        stop = { start.advance size with path := middle.path } := by
  simp only [readBlock, ensure, List.length_take]
  by_cases hsize : size ≤ start.rest.length
  · rw [if_neg (by omega)]
    cases hr : read start with
    | error error middle => simp
    | ok found middle =>
      simp only [hsize, true_and]
      split
      · refine iff_of_false nofun ?_
        rintro ⟨_, ⟨⟩, hused, -⟩
        omega
      · constructor
        · rintro ⟨⟩
          exact ⟨middle, rfl, by omega, rfl⟩
        · rintro ⟨_, ⟨⟩, -, rfl⟩
          rfl
  · rw [if_pos (by omega)]
    exact iff_of_false nofun fun h => hsize h.1

theorem Reads.block {read : Decoder Value} (h : read.Reads layout) (size : Nat) :
    (readBlock size read).Reads fun left value cells => ∃ content : Cells, content.length ≤ size ∧
      layout (left + (size - content.length)) value content ∧
      cells = content ++ .gap (size - content.length) := by
  intro start value stop
  rw [readBlock_ok_iff]
  constructor
  · rintro ⟨hsize, middle, hr, hused, rfl⟩
    obtain ⟨taken, content, htakes, hmatch, hvalue⟩ := (h _ _ _).mp hr
    have hlen := hmatch.length
    have hrest := congrArg List.length htakes.rest
    rw [htakes.offset] at hused
    rw [List.length_append] at hrest
    have hafter : middle.Takes (middle.rest.take (size - taken.length))
        { start.advance size with path := middle.path } := by
      refine ⟨?_, ?_, rfl⟩
      · show middle.rest = _ ++ start.rest.drop size
        rw [htakes.rest, List.drop_append, List.drop_eq_nil_of_le (by omega), List.nil_append,
          List.take_append_drop]
      · show start.offset + size = _
        rw [htakes.offset, List.length_take]
        omega
    refine ⟨_, _, htakes.trans hafter, Cells.match_append.mpr ⟨_, _, rfl, hmatch, ?_⟩, content,
      by omega, ?_, rfl⟩
    · rw [Cells.match_gap, List.length_take]
      omega
    · have : (start.rest.drop size).length + (size - content.length) = middle.rest.length := by
        rw [List.length_drop]
        omega
      show layout ((start.rest.drop size).length + _) _ _
      rwa [this]
  · rintro ⟨_, _, htakes, hmatch, content, hle, hvalue, rfl⟩
    obtain ⟨taken, tail, rfl, hmatch, hgap⟩ := Cells.match_append.mp hmatch
    obtain ⟨middle, htaken, htail⟩ := htakes.split
    have hlen := hmatch.length
    rw [Cells.match_gap] at hgap
    have hr : read start = .ok value middle := by
      refine (h _ _ _).mpr ⟨taken, content, htaken, hmatch, ?_⟩
      rwa [htail.rest, List.length_append, hgap, Nat.add_comm]
    have hsize : (taken ++ tail).length = size := by
      rw [List.length_append]
      omega
    refine ⟨?_, middle, hr, ?_, ?_⟩
    · rw [htakes.rest, List.length_append]
      omega
    · rw [htaken.offset]
      omega
    · rw [htakes.eq (Place.takes_advance htakes.rest), hsize]
      show _ = Place.mk _ _ _
      rw [htaken.path]
      rfl

theorem reads_readPacked (unit : PackedUnit) : (readPacked unit).Reads fun _ value cells =>
    unit.check = .ok () ∧ ∃ word, word.length = unit.size ∧ cells = .of word ∧
      value = unit.value word := by
  refine (Reads.lift_bind fun _ => (reads_take unit.size).map fun bytes => unit.value bytes).congr
    fun left value cells => ?_
  simp only [and_assoc]
  exact ⟨fun ⟨(), h⟩ => h, fun h => ⟨(), h⟩⟩

theorem Reads.filter {read : Decoder Value} (h : read.Reads layout) (keep : Value → Bool)
    (error : String → CodecError) :
    Reads (do let value ← read; if keep value then return value else fail error)
      fun left value cells => layout left value cells ∧ keep value = true := by
  have hnext (value : Value) : Reads (if keep value then return value else fail error)
      fun _ found cells => cells = [] ∧ found = value ∧ keep value = true := by
    split
    · refine (reads_pure value).congr fun left found cells => ?_
      grind
    · refine (reads_fail error).congr fun left found cells => ?_
      grind
  refine (h.bind hnext).congr fun left value cells => ?_
  constructor
  · rintro ⟨_, first, _, hfirst, ⟨rfl, rfl, hkeep⟩, rfl⟩
    exact ⟨by simpa using hfirst, hkeep⟩
  · rintro ⟨hvalue, hkeep⟩
    exact ⟨value, cells, [], by simpa using hvalue, ⟨rfl, rfl, hkeep⟩, by simp⟩

theorem ofBytes?_eq_some_iff {content : Bytes} :
    FourCC.ofBytes? content = some code ↔ content = code.bytes := by
  constructor
  · unfold FourCC.ofBytes?
    split
    · rintro ⟨⟩
      rfl
    · exact nofun
  · rintro rfl
    exact FourCC.ofBytes?_bytes code

theorem reads_code (f : FourCC → Value) :
    Reads (do
      match FourCC.ofBytes? (← take 4) with
      | some code => return f code
      | none => failAtEnd) fun _ value cells =>
        ∃ code : FourCC, cells = .of code.bytes ∧ value = f code := by
  have hnext (content : Bytes) : Reads (match FourCC.ofBytes? content with
      | some code => return f code
      | none => failAtEnd) fun _ value cells =>
        cells = [] ∧ ∃ code, content = FourCC.bytes code ∧ value = f code := by
    cases hc : FourCC.ofBytes? content with
    | some code =>
      cases ofBytes?_eq_some_iff.mp hc
      refine (reads_pure (f code)).congr fun left value cells => ?_
      constructor
      · rintro ⟨rfl, rfl⟩
        exact ⟨rfl, code, rfl, rfl⟩
      · rintro ⟨rfl, other, hcode, rfl⟩
        rw [hcode, FourCC.ofBytes?_bytes] at hc
        cases hc
        exact ⟨rfl, rfl⟩
    | none =>
      intro start value stop
      refine iff_of_false nofun ?_
      rintro ⟨_, _, _, _, _, code, rfl, _⟩
      cases hc
  refine ((reads_take 4).bind hnext).congr fun left value cells => ?_
  constructor
  · rintro ⟨_, _, _, ⟨-, rfl⟩, ⟨rfl, code, rfl, rfl⟩, rfl⟩
    exact ⟨code, by simp, rfl⟩
  · rintro ⟨code, rfl, rfl⟩
    exact ⟨code.bytes, _, [], ⟨rfl, rfl⟩, ⟨rfl, code, rfl, rfl⟩, by simp⟩

theorem reads_content (n : Option Nat) :
    Reads (α := Value) (match n with
      | some n => return .bytes (← take n)
      | none => return .bytes (← take (← get).rest.length)) fun left value cells =>
        ∃ content, cells = .of content ∧ value = .bytes content ∧
          match n with
          | some n => content.length = n
          | none => left = 0 := by
  cases n with
  | some n =>
    refine ((reads_take n).map Value.bytes).congr fun left value cells => ?_
    constructor
    · rintro ⟨content, ⟨hlen, rfl⟩, rfl⟩
      exact ⟨content, rfl, rfl, hlen⟩
    · rintro ⟨content, rfl, rfl, hlen⟩
      exact ⟨content, ⟨hlen, rfl⟩, rfl⟩
  | none =>
    intro start value stop
    refine (((reads_take start.rest.length).map Value.bytes) start value stop).trans ?_
    constructor
    · rintro ⟨_, _, htakes, hmatch, content, ⟨hlen, rfl⟩, rfl⟩
      cases Cells.match_of.mp hmatch
      rw [htakes.rest, List.length_append] at hlen
      exact ⟨_, _, htakes, hmatch, _, rfl, rfl, by simpa using hlen⟩
    · rintro ⟨_, _, htakes, hmatch, content, rfl, rfl, hleft⟩
      cases Cells.match_of.mp hmatch
      refine ⟨_, _, htakes, hmatch, _, ⟨?_, rfl⟩, rfl⟩
      rw [htakes.rest, List.length_append, hleft, Nat.add_zero]

theorem reads_greedyItems {read : Decoder Value} (h : read.Reads item) :
    Reads (α := Value) (do return .array (← readGreedy read (← get).rest 0 []))
      fun left value cells => ∃ items, value = .array items ∧ GreedyLie item left items cells := by
  intro start value stop
  refine (((h.greedy start.rest 0 [] start (Nat.le_refl _)).map Value.array) value stop).trans ?_
  simp [and_comm]

theorem reads_items {read : Decoder Value} (h : read.Reads item) (n : Option Nat) :
    Reads (α := Value) (match n with
      | some n => return .array (← readTimes read n 0 [])
      | none => return .array (← readGreedy read (← get).rest 0 [])) fun left value cells =>
        ∃ items, value = .array items ∧
          match n with
          | some n => items.length = n ∧ ItemsLie item left items cells
          | none => GreedyLie item left items cells := by
  cases n with
  | some n =>
    refine ((h.times n 0 []).map Value.array).congr fun left value cells => ?_
    simp [and_comm]
  | none => exact reads_greedyItems h

end Decoder

-- ---------------------------------------------------------------------------
-- Types
-- ---------------------------------------------------------------------------

def Site.NoSelection (site : Site) : Prop := ∀ alternatives, site.type ≠ .select alternatives

namespace ReadContext

open Decoder

/-- A reader of the layout, where there are no selections. -/
def ReadsLayout (definitions : Nat → FieldType) (read : ValueReader) (layout : Layout) : Prop :=
  ∀ seen type scope, Site.Everywhere definitions Site.NoSelection ⟨seen, type⟩ →
    (read type scope).Reads (layout type scope)

variable {ctx : ReadContext} {below : Option Layout}

theorem reads_descend (hd : Option.Rel (ReadsLayout ctx.codec.definitions) ctx.deeper below)
    {f : ValueReader → Decoder α} {result : Layout → Nat → α → Cells → Prop}
    (h : ∀ read layout, ReadsLayout ctx.codec.definitions read layout →
      (f read).Reads (result layout)) :
    (ctx.descend f).Reads fun left a cells => ∃ layout ∈ below, result layout left a cells := by
  rw [descend]
  cases hr : ctx.deeper with
  | none =>
    rw [hr] at hd
    cases hd
    refine (reads_fail _).congr fun left a cells => ?_
    simp
  | some read =>
    rw [hr] at hd
    cases hd with
    | some hlayout =>
      refine (h _ _ hlayout).congr fun left a cells => ?_
      simp

theorem reads_case {default : Option FieldType} (below : Option Layout) (h : ∀ type,
      FieldType.pick? cases default discriminant = some type →
        (ctx.read type scope).Reads (FieldType.Lies ctx.codec below type scope)) :
    Reads (match ctx.readCase discriminant cases scope with
      | some decoder => decoder
      | none => ctx.readDefault discriminant default scope) fun left value cells =>
        ∃ type, FieldType.pick? cases default discriminant = some type ∧
          FieldType.Lies ctx.codec below type scope left value cells := by
  induction cases with
  | nil =>
    cases default with
    | none =>
      show Reads (fail (.unknownVariant · discriminant.toText)) _
      exact (reads_fail _).congr fun left value cells => by simp [FieldType.pick?]
    | some type => exact (h type rfl).congr fun left value cells => by simp [FieldType.pick?]
  | cons case cases ih =>
    obtain ⟨key, type⟩ := case
    simp only [readCase, FieldType.pick?, List.find?_cons] at h ih ⊢
    by_cases hk : key.matches discriminant
    · simp only [hk, if_true, Option.some.injEq, forall_eq', exists_eq_left'] at h ⊢
      exact h
    · simp only [hk, Bool.false_eq_true, if_false] at h ⊢
      exact ih h

theorem reads_sequence {types : List FieldType} {scope : Scope}
    (h : ∀ type ∈ types, (ctx.read type scope).Reads (FieldType.Lies ctx.codec below type scope))
    (index : Nat) : (ctx.readSequence index types scope).Reads
      (FieldType.SequenceLies ctx.codec below types scope) := by
  induction types generalizing index with
  | nil =>
    rw [readSequence]
    refine (reads_pure _).congr fun left items cells => ?_
    simp [FieldType.SequenceLies, and_comm]
  | cons type types ih =>
    obtain ⟨htype, htypes⟩ := List.forall_mem_cons.mp h
    rw [readSequence]
    refine ((htype.within _).bind fun item => (ih htypes (index + 1)).map (item :: ·)).congr
      fun left items cells => ?_
    simp only [FieldType.SequenceLies]
    constructor
    · rintro ⟨value, first, others, hvalue, ⟨rest, hrest, rfl⟩, rfl⟩
      exact ⟨value, rest, first, others, rfl, rfl, hvalue, hrest⟩
    · rintro ⟨value, rest, first, others, rfl, rfl, hvalue, hrest⟩
      exact ⟨value, first, others, hvalue, ⟨rest, hrest, rfl⟩, rfl⟩

theorem reads_lies (hd : Option.Rel (ReadsLayout ctx.codec.definitions) ctx.deeper below)
    (type : FieldType)
    (hs : Site.Everywhere ctx.codec.definitions Site.NoSelection ⟨seen, type⟩) (scope : Scope) :
    (ctx.read type scope).Reads (FieldType.Lies ctx.codec below type scope) := by
  induction type using FieldType.induction with
  | int kind order =>
    refine ((reads_readInt kind order).map _).congr fun left value cells => ?_
    simp only [FieldType.Lies]
    constructor
    · rintro ⟨_, ⟨word, hlen, rfl, rfl⟩, rfl⟩
      exact ⟨word, hlen, rfl, rfl⟩
    · rintro ⟨word, hlen, rfl, rfl⟩
      exact ⟨_, ⟨word, hlen, rfl, rfl⟩, rfl⟩
  | float order =>
    refine ((reads_take 4).map _).congr fun left value cells => ?_
    simp only [FieldType.Lies, and_assoc]
  | text =>
    refine (reads_readText.map _).congr fun left value cells => ?_
    simp only [FieldType.Lies, and_assoc]
  | id =>
    rw [read]
    refine (reads_code fun code => Value.id code).congr fun left value cells => ?_
    simp only [FieldType.Lies]
  | reversedId =>
    rw [read]
    refine (reads_code fun code => Value.id code.reverse).congr fun left value cells => ?_
    simp only [FieldType.Lies]
  | bytes length =>
    rw [read]
    refine (reads_count length scope fun n => reads_content n).congr fun left value cells => ?_
    simp only [FieldType.Lies]
    constructor
    · rintro ⟨n | n, hasks, content, rfl, rfl, hn⟩
      · exact ⟨content, rfl, rfl, .inr ⟨hasks, by simpa using hn⟩⟩
      · exact ⟨content, rfl, rfl, .inl (by simpa [← hn] using hasks)⟩
    · rintro ⟨content, rfl, rfl, hasks | ⟨hasks, rfl⟩⟩
      · exact ⟨some content.length, hasks, content, rfl, rfl, rfl⟩
      · exact ⟨none, hasks, content, rfl, rfl, rfl⟩
  | const inner value ih =>
    rw [read]
    refine (Reads.const (ih (hs.part .const)) _ _).congr fun left value cells => ?_
    simp only [FieldType.Lies]
  | bool kind order no yes =>
    rw [read]
    refine (reads_readBool kind order no yes).congr fun left value cells => ?_
    simp only [FieldType.Lies]
  | enum repr variants ih =>
    rw [read]
    refine ((ih (hs.part .enum)).map _).congr fun left value cells => ?_
    simp only [FieldType.Lies]
  | flags set =>
    refine ((reads_take _).map _).congr fun left value cells => ?_
    simp only [FieldType.Lies, and_assoc]
  | record name fields =>
    rw [read]
    have hfields (read : ValueReader) (layout : Layout)
        (h : ReadsLayout ctx.codec.definitions read layout) :
        Reads (do return Value.struct (← readFields read scope.child fields .empty))
          fun left value cells => ∃ document,
            FieldsLie layout scope.child fields .empty left document cells ∧
              value = Value.struct document := by
      refine Reads.map (Reads.fields (fun field hf document => ?_) .empty) _
      obtain ⟨_, hfield⟩ := hs.field hf
      exact h _ _ _ hfield
    refine (reads_descend hd hfields).congr fun left value cells => ?_
    simp only [FieldType.Lies]
  | array length element ih =>
    rw [read]
    refine (reads_count length scope fun n => reads_items (ih (hs.part .element)) n).congr
      fun left value cells => ?_
    simp only [FieldType.Lies]
    constructor
    · rintro ⟨n | n, hasks, items, rfl, hlie⟩
      · exact ⟨items, rfl, .inr ⟨hasks, hlie⟩⟩
      · exact ⟨items, rfl, .inl ⟨by simpa [hlie.1] using hasks, hlie.2⟩⟩
    · rintro ⟨items, rfl, ⟨hasks, hlie⟩ | ⟨hasks, hlie⟩⟩
      · exact ⟨some items.length, hasks, items, rfl, rfl, hlie⟩
      · exact ⟨none, hasks, items, rfl, hlie⟩
  | greedy element ih =>
    rw [read]
    refine (reads_greedyItems (ih (hs.part .greedy))).congr fun left value cells => ?_
    simp only [FieldType.Lies]
  | sequence types ih =>
    rw [read]
    refine ((reads_sequence (fun type ht => ih type ht (hs.part (.item ht))) 0).map _).congr
      fun left value cells => ?_
    simp only [FieldType.Lies, and_comm]
  | switch on cases default ihc ihd =>
    rw [read]
    refine (Reads.lift_bind fun discriminant => reads_case below fun type hp => ?_).congr
      fun left value cells => ?_
    · rcases FieldType.mem_of_pick? hp with ⟨case, hc, rfl⟩ | ht
      · exact ihc case hc (hs.part (.case hc))
      · exact ihd type ht (hs.part (.default ht))
    · rw [FieldType.switch_lies_iff]
      simp only [exists_and_left, answered_ok]
  | conditional condition yes no ihy ihn =>
    rw [read]
    have hbranch (truth : Bool) :
        Reads (if truth then ctx.read yes scope else ctx.read no scope)
          (FieldType.Lies ctx.codec below (if truth then yes else no) scope) := by
      cases truth
      · exact ihn (hs.part .no)
      · exact ihy (hs.part .yes)
    refine (Reads.lift_bind hbranch).congr fun left value cells => ?_
    simp [FieldType.Lies, or_comm]
  | select alternatives => exact absurd rfl (hs.here alternatives)
  | checked relation holds inner ih =>
    rw [read]
    refine (Reads.filter (ih (hs.part .checked)) (holds · scope) _).congr fun left value cells => ?_
    simp only [FieldType.Lies]
  | padded size inner ih =>
    rw [read]
    refine (Reads.block (ih (hs.part .padded)) size).congr fun left value cells => ?_
    simp only [FieldType.Lies]
  | packed unit =>
    rw [read]
    refine (reads_readPacked unit).congr fun left value cells => ?_
    simp only [FieldType.Lies]
  | lazy slot =>
    rw [read]
    refine (reads_descend hd fun read layout h => h seen _ scope (hs.part .lazy)).congr
      fun left value cells => ?_
    simp only [FieldType.Lies]

end ReadContext

theorem FieldType.readAt_readsLayout (codec : Codec) (levels : Nat) :
    ReadContext.ReadsLayout codec.definitions (readAt codec levels) (LiesAt codec levels) := by
  induction levels with
  | zero => exact fun seen type scope hs => ReadContext.reads_lies .none type hs scope
  | succ levels ih =>
    exact fun seen type scope hs => ReadContext.reads_lies (.some ih) type hs scope

namespace Schema

theorem reads_fields {schema : Schema} (hs : schema.Everywhere Site.NoSelection)
    (options : CodecOptions) :
    (Decoder.readFields (FieldType.readAt (schema.codec options) options.maxDepth)
      (Scope.root · options) schema.fields .empty).Reads (FieldsLie
        (FieldType.LiesAt (schema.codec options) options.maxDepth) (Scope.root · options)
          schema.fields .empty) := by
  refine Decoder.Reads.fields (fun field hf before => ?_) .empty
  obtain ⟨_, hfield⟩ := hs.field hf
  exact FieldType.readAt_readsLayout _ _ _ _ _ hfield

/-- Without selections, what lies in cells that match the bytes is what decodes. -/
theorem decode_of_lies {schema : Schema} (hs : schema.Everywhere Site.NoSelection)
    {options : CodecOptions} (hlies : schema.Lies options document cells)
    (hmatch : cells.Match bytes) : schema.decode options bytes = .ok document := by
  have htakes : (Place.start bytes).Takes bytes ⟨bytes.length, [], .root⟩ :=
    ⟨by simp [Place.start], by simp [Place.start], rfl⟩
  simp only [decode]
  rw [(reads_fields hs options _ _ _).mpr ⟨bytes, cells, htakes, hmatch, hlies⟩]

/-- If no bytes may be left over, nothing else decodes. -/
theorem decode_ok_iff {schema : Schema} (hs : schema.Everywhere Site.NoSelection)
    {options : CodecOptions} (ht : options.allowTrailing = false) :
    schema.decode options bytes = .ok document ↔
      ∃ cells, schema.Lies options document cells ∧ cells.Match bytes := by
  constructor
  · intro h
    simp only [decode] at h
    split at h
    · cases h
    · rename_i stop hrun
      obtain ⟨taken, cells, htakes, hmatch, hlies⟩ := (reads_fields hs options _ _ _).mp hrun
      split at h
      · rename_i hrest
        cases h
        refine ⟨cells, by rwa [hrest] at hlies, ?_⟩
        have := htakes.rest
        rw [hrest, List.append_nil] at this
        rwa [← this] at hmatch
      · rw [ht] at h
        cases h
  · rintro ⟨cells, hlies, hmatch⟩
    exact decode_of_lies hs hlies hmatch

end Schema

end Mapsmith
