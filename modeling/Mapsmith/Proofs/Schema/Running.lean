import Mapsmith.Proofs.Schema.Saving

/-!
# Runs of the decoder

`FieldType.readAt_plain_run`, `Decoder.regains_fields`: which alternative of a selection goes
through depends on the bytes that follow, so a type with selections in it has no layout by
itself. What there is to say is said of runs: what a decoder has given lies by a layout, and
what lies by a layout it gives again wherever the same bytes stand. One lemma for each part of
the decoder takes these two through records and arrays.
-/

namespace Mapsmith

-- ---------------------------------------------------------------------------
-- The first of several
-- ---------------------------------------------------------------------------

/-- The item is one of the list, and none before it goes through. -/
inductive First (goes : α → Prop) : List α → α → Prop
  | here {a rest} : First goes (a :: rest) a
  | there {a b rest} : ¬goes b → First goes rest a → First goes (b :: rest) a

namespace First

theorem mem {goes : α → Prop} (h : First goes items a) : a ∈ items := by
  induction h with
  | here => exact List.mem_cons_self
  | there _ _ ih => exact List.mem_cons_of_mem _ ih

theorem unique {goes : α → Prop} (h : First goes items a) (ha : goes a) (h' : First goes items b)
    (hb : goes b) : a = b := by
  induction h with
  | here =>
    cases h' with
    | here => rfl
    | there hnot => exact absurd ha hnot
  | there hnot _ ih =>
    cases h' with
    | here => exact absurd hb hnot
    | there _ h' => exact ih ha h'

theorem exists_cons {goes found : α → Prop} :
    (∃ a, First goes (head :: rest) a ∧ found a) ↔
      found head ∨ ¬goes head ∧ ∃ a, First goes rest a ∧ found a := by
  constructor
  · rintro ⟨a, _ | ⟨hhead, ha⟩, hfound⟩
    · exact .inl hfound
    · exact .inr ⟨hhead, a, ha, hfound⟩
  · rintro (hfound | ⟨hhead, a, ha, hfound⟩)
    · exact ⟨head, .here, hfound⟩
    · exact ⟨a, .there hhead ha, hfound⟩

/-- What is first by one measure is first by another that each item before it fails. -/
theorem of_pairwise {goes goes' : α → Prop} {r : α → α → Prop} (h : First goes items a)
    (hp : items.Pairwise r) (hr : ∀ b, r b a → ¬goes' b) : First goes' items a := by
  induction h with
  | here => exact .here
  | there _ hrest ih =>
    obtain ⟨hb, hp⟩ := List.pairwise_cons.mp hp
    exact .there (hr _ (hb _ hrest.mem)) (ih hp hr)

/-- What goes by another measure has one that is first by it: itself, or one that did not
go by the measure at hand. -/
theorem exists_first {goes : α → Prop} (goes' : α → Prop) (h : First goes items a) (ha : goes' a) :
    ∃ b, First goes' items b ∧ goes' b ∧ (b = a ∨ b ∈ items ∧ ¬goes b) := by
  induction h with
  | here => exact ⟨_, .here, ha, .inl rfl⟩
  | @there a b rest hb _ ih =>
    by_cases hgoes : goes' b
    · exact ⟨b, .here, hgoes, .inr ⟨List.mem_cons_self, hb⟩⟩
    · obtain ⟨c, hc, hgoes', heq | ⟨hmem, hnot⟩⟩ := ih ha
      · exact ⟨c, .there hgoes hc, hgoes', .inl heq⟩
      · exact ⟨c, .there hgoes hc, hgoes', .inr ⟨List.mem_cons_of_mem _ hmem, hnot⟩⟩

end First

namespace Decoder

variable {decoder : Decoder α} {start stop : Place}

-- ---------------------------------------------------------------------------
-- When the parts of the decoder go through
-- ---------------------------------------------------------------------------

theorem bind_run {next : α → Decoder β} : (decoder >>= next) start = .ok b stop ↔
    ∃ a middle, decoder start = .ok a middle ∧ next a middle = .ok b stop := by
  show EStateM.bind decoder next start = _ ↔ _
  rw [EStateM.bind]
  cases decoder start <;> simp

theorem pure_run : (pure a : Decoder α) start = .ok b stop ↔ b = a ∧ stop = start := by
  show EStateM.Result.ok a start = _ ↔ _
  simp [eq_comm]

theorem map_run {f : α → β} :
    (do return f (← decoder) : Decoder β) start = .ok b stop ↔
      ∃ a, decoder start = .ok a stop ∧ b = f a := by
  rw [bind_run]
  constructor
  · rintro ⟨a, _, hd, ⟨⟩⟩
    exact ⟨a, hd, rfl⟩
  · rintro ⟨a, hd, rfl⟩
    exact ⟨a, stop, hd, rfl⟩

theorem within_run {segment : Segment} : within segment decoder start = .ok a stop ↔
    ∃ next, decoder { start with path := start.path.push segment } = .ok a next ∧
      stop = { next with path := next.path.pop } := by
  rw [within, bind_run]
  constructor
  · rintro ⟨_, _, ⟨⟩, hd⟩
    obtain ⟨found, next, hrun, ⟨⟩⟩ := bind_run.mp hd
    exact ⟨next, hrun, rfl⟩
  · rintro ⟨next, hd, rfl⟩
    exact ⟨(), _, rfl, bind_run.mpr ⟨a, next, hd, rfl⟩⟩

theorem lift_run {x : Except CodecError α} : lift x start = .ok a stop ↔
    x = .ok a ∧ stop = start := by
  cases x with
  | ok found => simp [lift, pure_run, eq_comm]
  | error fault => exact iff_of_false nofun nofun

theorem count_run : count length scope start = .ok n stop ↔ length.Asks scope n ∧ stop = start := by
  have hasks : length.count start.path scope = .ok n ↔ length.Asks scope n := Length.count_ok
  rw [← hasks, count, lift_run]

-- ---------------------------------------------------------------------------
-- What has been given
-- ---------------------------------------------------------------------------

def Gives (decoder : Decoder α) (layout : Nat → α → Cells → Prop) : Prop :=
  ∀ start a stop, decoder start = .ok a stop →
    ∃ taken, start.Takes taken stop ∧ layout stop.rest.length a (.of taken)

theorem Gives.within (h : decoder.Gives layout) (segment : Segment) :
    (Decoder.within segment decoder).Gives layout := by
  intro start a stop hrun
  obtain ⟨next, hnext, rfl⟩ := within_run.mp hrun
  obtain ⟨taken, htakes, ha⟩ := h _ _ _ hnext
  refine ⟨taken, ⟨htakes.rest, htakes.offset, ?_⟩, ha⟩
  show next.path.pop = _
  rw [htakes.path]
  rfl

theorem Gives.times {read : Decoder Value} (h : read.Gives item) (n index : Nat)
    (before : List Value) :
    (readTimes read n index before).Gives fun left items cells =>
      ∃ rest, rest.length = n ∧ ItemsLie item left rest cells ∧ items = before.reverse ++ rest := by
  induction n generalizing index before with
  | zero =>
    intro start items stop hrun
    obtain ⟨rfl, rfl⟩ := pure_run.mp hrun
    exact ⟨[], .refl stop, [], rfl, .nil, by simp⟩
  | succ n ih =>
    intro start items stop hrun
    obtain ⟨value, middle, hvalue, hrest⟩ := bind_run.mp hrun
    obtain ⟨first, htakes, hlies⟩ := h.within _ _ _ _ hvalue
    obtain ⟨second, htakes', rest, hlen, hlie, rfl⟩ := ih _ _ _ _ _ hrest
    refine ⟨first ++ second, htakes.trans htakes', value :: rest, by simp [hlen], ?_, by simp⟩
    -- After the first item stand the bytes of the others and what is left after all of them.
    rw [htakes'.rest, List.length_append, Nat.add_comm, ← Cells.length_of second] at hlies
    simpa [Cells.of] using ItemsLie.cons hlies hlie

theorem greedyLie_end {start : Place} (hrest : start.rest = []) (before : List Value) :
    ∃ taken, start.Takes taken start ∧ ∃ rest, GreedyLie item start.rest.length rest (.of taken) ∧
      before.reverse = before.reverse ++ rest := by
  refine ⟨[], .refl start, [], ?_, by simp⟩
  rw [hrest]
  exact .done

/-- Each item but the last takes bytes, so `bound` lasts up to the end of the input. -/
theorem Gives.greedy {read : Decoder Value} (h : read.Gives item) (bound : Bytes) (index : Nat)
    (before : List Value) {start stop : Place} (hbound : start.rest.length ≤ bound.length)
    (hrun : readGreedy read bound index before start = .ok items stop) :
    ∃ taken, start.Takes taken stop ∧ ∃ rest, GreedyLie item stop.rest.length rest (.of taken) ∧
      items = before.reverse ++ rest := by
  induction bound generalizing start index before with
  | nil =>
    obtain ⟨rfl, rfl⟩ := pure_run.mp hrun
    exact greedyLie_end (List.length_eq_zero_iff.mp (by simpa using hbound)) before
  | cons b bound ih =>
    by_cases hrest : start.rest = []
    · simp only [readGreedy, hrest] at hrun
      cases hrun
      exact greedyLie_end hrest before
    rw [readGreedy_cons _ _ _ _ _ _ hrest] at hrun
    split at hrun
    · cases hrun
    · rename_i value next hvalue
      obtain ⟨first, htakes, hfirst⟩ := h.within _ _ _ _ hvalue
      split at hrun
      · rename_i hoffset
        cases hrun
        have hempty : first = [] := by
          have := htakes.offset
          exact List.length_eq_zero_iff.mp (by omega)
        subst hempty
        cases Place.takes_nil.mp htakes
        exact ⟨[], htakes, [value], .stuck (List.length_pos_iff.mpr hrest) hfirst, by simp⟩
      · rename_i hoffset
        have hne : first ≠ [] := by
          rintro rfl
          exact hoffset htakes.offset
        have hnext : next.rest.length ≤ bound.length := by
          have hlength := congrArg List.length htakes.rest
          have := List.length_pos_iff.mpr hne
          rw [List.length_append] at hlength
          rw [List.length_cons] at hbound
          omega
        obtain ⟨second, htakes', rest, hlie, rfl⟩ := ih _ _ hnext hrun
        refine ⟨first ++ second, htakes.trans htakes', value :: rest, ?_, by simp⟩
        rw [htakes'.rest, List.length_append, Nat.add_comm, ← Cells.length_of second] at hfirst
        simpa [Cells.of] using GreedyLie.cons (by simpa [Cells.of] using hne) hfirst hlie

theorem Gives.fields {read : ValueReader} {layout : Layout} {scope : Document → Scope}
    {fields : List (String × FieldType)} (h : ∀ field ∈ fields, ∀ document,
      (read field.2 (scope document)).Gives (layout field.2 (scope document)))
      (document : Document) :
    (readFields read scope fields document).Gives (FieldsLie layout scope fields document) := by
  induction fields generalizing document with
  | nil =>
    intro start final stop hrun
    obtain ⟨rfl, rfl⟩ := pure_run.mp hrun
    exact ⟨[], .refl stop, .nil⟩
  | cons field fields ih =>
    intro start final stop hrun
    obtain ⟨hfield, hfields⟩ := List.forall_mem_cons.mp h
    obtain ⟨value, middle, hvalue, hrest⟩ := bind_run.mp hrun
    obtain ⟨first, htakes, hlies⟩ := (hfield document).within _ _ _ _ hvalue
    obtain ⟨second, htakes', hlie⟩ := ih hfields _ _ _ _ hrest
    refine ⟨first ++ second, htakes.trans htakes', ?_⟩
    rw [htakes'.rest, List.length_append, Nat.add_comm, ← Cells.length_of second] at hlies
    simpa [Cells.of] using FieldsLie.cons hlies hlie

-- ---------------------------------------------------------------------------
-- What is given again
-- ---------------------------------------------------------------------------

/-- The decoder gives the value wherever its cells stand before so many bytes. -/
def Regains (decoder : Decoder α) : Nat → α → Cells → Prop := fun left a cells =>
  ∀ start stop : Place, start.Takes cells.fill stop → stop.rest.length = left →
    decoder start = .ok a stop

theorem Regains.within (h : decoder.Regains left a cells) (segment : Segment) :
    (Decoder.within segment decoder).Regains left a cells := by
  intro start stop htakes hleft
  refine within_run.mpr ⟨{ stop with path := start.path.push segment }, h _ _ ?_ hleft, ?_⟩
  · exact ⟨htakes.rest, htakes.offset, rfl⟩
  · simp [← htakes.path]

theorem Regains.bind {next : α → Decoder β} (h : decoder.Regains (left + rest.length) a cells)
    (h' : (next a).Regains left b rest) : (decoder >>= next).Regains left b (cells ++ rest) := by
  intro start stop htakes hleft
  rw [Cells.fill_append] at htakes
  obtain ⟨middle, hfirst, hsecond⟩ := htakes.split
  refine bind_run.mpr ⟨a, middle, h _ _ hfirst ?_, h' _ _ hsecond hleft⟩
  rw [hsecond.rest, List.length_append, hleft, Cells.length_fill, Nat.add_comm]

theorem regains_pure (a : α) : (pure a : Decoder α).Regains left a [] := by
  intro start stop htakes _
  exact pure_run.mpr ⟨rfl, Place.takes_nil.mp htakes⟩

theorem regains_times {read : Decoder Value} (h : ItemsLie read.Regains left rest cells)
    (index : Nat) (before : List Value) :
    (readTimes read rest.length index before).Regains left (before.reverse ++ rest) cells := by
  induction h generalizing index before with
  | nil =>
    rw [List.append_nil]
    exact regains_pure _
  | @cons value _ _ _ hvalue _ ih =>
    have hrest := ih (index + 1) (value :: before)
    rw [List.reverse_cons, List.append_assoc] at hrest
    exact (Regains.within hvalue _).bind hrest

theorem regains_fields {read : ValueReader} {scope : Document → Scope}
    {fields : List (String × FieldType)}
    (h : FieldsLie (fun type scope => (read type scope).Regains) scope fields before left final
      cells) :
    (readFields read scope fields before).Regains left final cells := by
  induction h with
  | nil => exact regains_pure _
  | cons hvalue _ ih => exact (Regains.within hvalue _).bind ih

theorem Reads.regains (h : decoder.Reads layout) (hlies : layout left a cells) :
    decoder.Regains left a cells := by
  rintro start stop htakes rfl
  exact (h _ _ _).mpr ⟨_, cells, htakes, cells.match_fill, hlies⟩

end Decoder

namespace ReadContext

open Decoder

variable {ctx : ReadContext}

theorem descend_run {f : ValueReader → Decoder α} :
    ctx.descend f start = .ok a stop ↔ ∃ read ∈ ctx.deeper, f read start = .ok a stop := by
  rw [descend]
  cases ctx.deeper with
  | none => exact iff_of_false (by simp [fail]) (by simp)
  | some read => simp

theorem read_items_run : ctx.read (.array length element) scope start = .ok value stop ↔
    ∃ items, value = .array items ∧
      ((∃ n, length.Asks scope (some n) ∧ readTimes (ctx.read element scope) n 0 [] start =
        .ok items stop) ∨
        length.Asks scope none ∧ readGreedy (ctx.read element scope) start.rest 0 [] start =
          .ok items stop) := by
  rw [read, bind_run]
  simp only [count_run]
  constructor
  · rintro ⟨_ | n, _, ⟨hasks, rfl⟩, hitems⟩
    · obtain ⟨items, hrun, rfl⟩ := map_run.mp hitems
      exact ⟨items, rfl, .inr ⟨hasks, hrun⟩⟩
    · obtain ⟨items, hrun, rfl⟩ := map_run.mp hitems
      exact ⟨items, rfl, .inl ⟨n, hasks, hrun⟩⟩
  · rintro ⟨items, rfl, ⟨n, hasks, hitems⟩ | ⟨hasks, hitems⟩⟩
    · exact ⟨some n, start, ⟨hasks, rfl⟩, map_run.mpr ⟨items, hitems, rfl⟩⟩
    · exact ⟨none, start, ⟨hasks, rfl⟩, map_run.mpr ⟨items, hitems, rfl⟩⟩

theorem read_array_run (h : length ≠ .remaining) :
    ctx.read (.array length element) scope start = .ok value stop ↔
    ∃ n items, length.Asks scope (some n) ∧
      readTimes (ctx.read element scope) n 0 [] start = .ok items stop ∧
      value = .array items := by
  rw [read_items_run]
  constructor
  · rintro ⟨items, rfl, ⟨n, hasks, hitems⟩ | ⟨hasks, -⟩⟩
    · exact ⟨n, items, hasks, hitems, rfl⟩
    · exact absurd hasks (Length.not_asks_none h)
  · rintro ⟨n, items, hasks, hitems, rfl⟩
    exact ⟨items, rfl, .inl ⟨n, hasks, hitems⟩⟩

theorem read_greedy_run : ctx.read (.greedy element) scope start = .ok value stop ↔
    ∃ items, readGreedy (ctx.read element scope) start.rest 0 [] start = .ok items stop ∧
      value = .array items := by
  rw [read]
  exact map_run

theorem read_switch_run {default : Option FieldType} :
    ctx.read (.switch on cases default) scope start = .ok value stop ↔
      ∃ discriminant type, scope.resolve on = .ok discriminant ∧
        FieldType.pick? cases default discriminant = some type ∧
        ctx.read type scope start = .ok value stop := by
  rw [read, bind_run]
  simp only [lift_run, answered_ok, and_assoc, exists_eq_left, exists_and_left]
  refine exists_congr fun discriminant => and_congr_right' ?_
  induction cases with
  | nil => cases default <;> simp [readCase, readDefault, FieldType.pick?, fail]
  | cons case cases ih =>
    obtain ⟨key, type⟩ := case
    by_cases hk : key.matches discriminant
    · simp [readCase, FieldType.pick?, hk]
    · simpa [readCase, FieldType.pick?, hk] using ih

theorem read_checked_run {inner : FieldType} :
    ctx.read (.checked relation holds inner) scope start = .ok value stop ↔
      ctx.read inner scope start = .ok value stop ∧ holds value scope = true := by
  rw [read, bind_run]
  constructor
  · rintro ⟨found, middle, hfound, hrun⟩
    split at hrun
    · obtain ⟨rfl, rfl⟩ := pure_run.mp hrun
      exact ⟨hfound, ‹_›⟩
    · cases hrun
  · rintro ⟨hfound, hholds⟩
    exact ⟨value, stop, hfound, by rw [if_pos hholds]; rfl⟩

theorem first_of_readFirst (h : ctx.readFirst last types scope start = .ok value stop) :
    ∃ type, First (fun other => ∃ found place, ctx.read other scope start =
      .ok found place) types type ∧
      ctx.read type scope start = .ok value stop := by
  induction types generalizing last with
  | nil => cases h
  | cons type types ih =>
    simp only [readFirst] at h
    rw [First.exists_cons]
    split at h
    · rename_i hread
      exact .inl (hread.trans h)
    · rename_i hread
      split at h
      · cases h
      · exact .inr ⟨by simp [hread], ih h⟩

/-- The first alternative that reads is come to, if none before it halts. -/
theorem readFirst_of_first
    (h : First (fun other => ∃ found place, ctx.read other scope start =
      .ok found place) types type)
    (hreturns : ∀ other ∈ types, Decoder.Avoids .halt (ctx.read other scope))
    (hrun : ctx.read type scope start = .ok value stop) :
    ctx.readFirst last types scope start = .ok value stop := by
  induction h generalizing last with
  | here => simp [readFirst, hrun]
  | @there type other rest hfails _ ih =>
    obtain ⟨hother, hrest⟩ := List.forall_mem_cons.mp hreturns
    cases hread : ctx.read other scope start with
    | ok found place => exact absurd ⟨found, place, hread⟩ hfails
    | error error place =>
      simpa [readFirst, hread, hother.halts hread] using ih hrest hrun

end ReadContext

theorem WriteContext.first_of_writeFirst {ctx : WriteContext}
    (h : ctx.writeFirst path last types value scope = .ok written) :
    ∃ type, First (fun other => ∃ found, ctx.write path other value scope = .ok found) types type ∧
      ctx.write path type value scope = .ok written := by
  induction types generalizing last with
  | nil => cases h
  | cons type types ih =>
    rw [writeFirst] at h
    rw [First.exists_cons]
    split at h
    · rename_i hwrite
      exact .inl (hwrite.trans h)
    · rename_i hwrite
      split at h
      · cases h
      · exact .inr ⟨by simp [hwrite], ih h⟩

theorem WriteContext.writeFirst_of_first {ctx : WriteContext}
    (h : First (fun other => ∃ found, ctx.write path other value scope = .ok found) types type)
    (hreturns : ∀ other ∈ types, Avoids .halt (ctx.write path other value scope))
    (hw : ctx.write path type value scope = .ok written) :
    ctx.writeFirst path last types value scope = .ok written := by
  induction h generalizing last with
  | here => simp [writeFirst, hw]
  | @there type other rest hfails _ ih =>
    obtain ⟨hother, hrest⟩ := List.forall_mem_cons.mp hreturns
    cases hwrite : ctx.write path other value scope with
    | ok found => exact absurd ⟨found, hwrite⟩ hfails
    | error error =>
      simpa [writeFirst, hwrite, hother.halts hwrite] using ih hrest hw

theorem Scope.resolve_name {scope : Scope} (h : scope.current.get? name = some value) :
    scope.resolve ⟨0, [name]⟩ = .ok value := by
  simp [resolve, find?, outward?, Document.getPath?, h]

theorem Length.mem_of_asks {scope : Scope} (h : (Length.lookup table key).Asks scope n) :
    ∃ value, scope.resolve key = .ok value ∧
      (scope.options.lookups.count? table (keyText value)).isSome := by
  have hresolve : ∃ n, (Length.lookup table key).resolve scope = .ok n := by
    cases n with
    | none => exact ⟨_, h⟩
    | some n => exact ⟨_, h.1⟩
  obtain ⟨n, hresolve⟩ := hresolve
  simp only [Length.resolve, bind_ok] at hresolve
  obtain ⟨value, hvalue, hcount⟩ := hresolve
  refine ⟨value, hvalue, ?_⟩
  split at hcount
  · simp [*]
  · cases hcount

-- ---------------------------------------------------------------------------
-- One level
-- ---------------------------------------------------------------------------

namespace FieldType

variable {codec : Codec} {constantBytes : FieldType → Value → Option Bytes} {levels : Nat}

theorem exists_readContext (codec : Codec) (levels : Nat) : ∃ ctx : ReadContext,
    readAt codec levels = ctx.read ∧ ctx.codec = codec ∧
      ∀ read ∈ ctx.deeper, ∃ n, levels = n + 1 ∧ read = readAt codec n := by
  cases levels with
  | zero => exact ⟨⟨codec, none⟩, rfl, rfl, nofun⟩
  | succ n =>
    refine ⟨⟨codec, some (readAt codec n)⟩, rfl, rfl, ?_⟩
    rintro _ ⟨⟩
    exact ⟨n, rfl, rfl⟩

theorem exists_writeContext (codec : Codec) (constantBytes : FieldType → Value → Option Bytes)
    (levels : Nat) :
    ∃ ctx : WriteContext, writeAt codec constantBytes levels = ctx.write ∧ ctx.codec = codec ∧
      ∀ write ∈ ctx.deeper, ∃ n, levels = n + 1 ∧ write = writeAt codec constantBytes n := by
  cases levels with
  | zero => exact ⟨⟨codec, constantBytes, none⟩, rfl, rfl, nofun⟩
  | succ n =>
    refine ⟨⟨codec, constantBytes, some (writeAt codec constantBytes n)⟩, rfl, rfl, ?_⟩
    rintro _ ⟨⟩
    exact ⟨n, rfl, rfl⟩

theorem readAt_plain_run (hn : Site.Everywhere codec.definitions Site.NoSelection ⟨seen, type⟩)
    (h : readAt codec levels type scope start = .ok value stop) : ∃ deeper taken, ∃ cells : Cells,
      start.Takes taken stop ∧ cells.Match taken ∧
        Lies codec deeper type scope stop.rest.length value cells := by
  obtain ⟨deeper, hdeeper⟩ := exists_lies codec levels
  obtain ⟨taken, cells, htakes, hmatch, hlies⟩ :=
    (readAt_readsLayout codec levels _ _ scope hn _ _ _).mp h
  exact ⟨deeper, taken, cells, htakes, hmatch, hdeeper ▸ hlies⟩

theorem readAt_text_run (h : readAt codec levels .text scope start = .ok value stop) :
    ∃ text, value = .str text ∧ 0 ∉ Bytes.ofText text ∧
      start.rest = Bytes.ofText text ++ 0 :: stop.rest := by
  have hnone : Site.Everywhere codec.definitions Site.NoSelection ⟨[], .text⟩ :=
    .intro nofun fun _ hpart => nomatch hpart
  obtain ⟨_, taken, _, htakes, hmatch, text, hzero, rfl, rfl⟩ := readAt_plain_run hnone h
  obtain rfl := Cells.match_of.mp hmatch
  exact ⟨text, rfl, hzero, by rw [htakes.rest, List.append_assoc]; rfl⟩

theorem writeAt_text_ok
    (h : writeAt codec constantBytes levels path .text value scope = .ok written) :
    ∃ text, value.asStr? = some text ∧ 0 ∉ Bytes.ofText text ∧
      written = Bytes.ofText text ++ [0] := by
  obtain ⟨ctx, hctx, -⟩ := exists_writeContext codec constantBytes levels
  rw [hctx, WriteContext.write] at h
  simpa only [bind_ok, Codec.expect_ok, Codec.writeText_ok] using h

theorem readAt_array_run (hlength : length ≠ .remaining)
    (h : readAt codec levels (.array length element) scope start = .ok value stop) :
    ∃ n, length.Asks scope (some n) := by
  obtain ⟨ctx, hctx, -⟩ := exists_readContext codec levels
  rw [hctx] at h
  obtain ⟨n, _, hasks, -⟩ := (ReadContext.read_array_run hlength).mp h
  exact ⟨n, hasks⟩

theorem writeAt_array_ok (hlength : length ≠ .remaining)
    (h : writeAt codec constantBytes levels path (.array length element) value scope =
      .ok written) :
    ∃ n, length.Asks scope (some n) := by
  obtain ⟨ctx, hctx, -⟩ := exists_writeContext codec constantBytes levels
  rw [hctx, WriteContext.write] at h
  simp only [bind_ok, Codec.expect_ok, Codec.checkCount_ok] at h
  obtain ⟨items, -, _, hasks, -⟩ := h
  exact ⟨_, hasks.resolve_right (Length.not_asks_none hlength)⟩

theorem readAt_lazy_run (h : readAt codec levels (.lazy slot) scope start = .ok value stop) :
    ∃ n, readAt codec n (codec.definitions slot) scope start = .ok value stop := by
  obtain ⟨ctx, hctx, rfl, hdeeper⟩ := exists_readContext codec levels
  rw [hctx, ReadContext.read, ReadContext.descend_run] at h
  obtain ⟨read, hread, h⟩ := h
  obtain ⟨n, -, rfl⟩ := hdeeper read hread
  exact ⟨n, h⟩

theorem readAt_record_run
    (h : readAt codec levels (.record name fields) scope start = .ok value stop) :
    ∃ n document, value = .struct document ∧
      Decoder.readFields (readAt codec n) scope.child fields .empty start = .ok document stop := by
  obtain ⟨ctx, hctx, rfl, hdeeper⟩ := exists_readContext codec levels
  rw [hctx, ReadContext.read, ReadContext.descend_run] at h
  obtain ⟨read, hread, h⟩ := h
  obtain ⟨n, -, rfl⟩ := hdeeper read hread
  obtain ⟨document, hfields, rfl⟩ := Decoder.map_run.mp h
  exact ⟨n, document, rfl, hfields⟩

theorem writeAt_lazy_ok
    (h : writeAt codec constantBytes levels path (.lazy slot) value scope = .ok written) :
    ∃ n, writeAt codec constantBytes n path (codec.definitions slot) value scope = .ok written := by
  obtain ⟨ctx, hctx, rfl, hdeeper⟩ := exists_writeContext codec constantBytes levels
  rw [hctx, WriteContext.write, WriteContext.descend_ok] at h
  obtain ⟨write, hwrite, h⟩ := h
  obtain ⟨n, -, rfl⟩ := hdeeper write hwrite
  exact ⟨n, h⟩

theorem writeAt_record_ok
    (h : writeAt codec constantBytes levels path (.record name fields) value scope = .ok written) :
    ∃ n document, value.asStruct? = some document ∧
      Codec.writeFields (writeAt codec constantBytes n) path (scope.child document) fields =
        .ok written := by
  obtain ⟨ctx, hctx, rfl, hdeeper⟩ := exists_writeContext codec constantBytes levels
  rw [hctx, WriteContext.write] at h
  simp only [bind_ok, Codec.expect_ok, WriteContext.descend_ok] at h
  obtain ⟨document, hdocument, write, hwrite, h⟩ := h
  obtain ⟨n, -, rfl⟩ := hdeeper write hwrite
  exact ⟨n, document, hdocument, h⟩

end FieldType

theorem Decoder.readFields_cons_run {read : ValueReader} {scope : Document → Scope}
    {fields : List (String × FieldType)} {document : Document}
    (h : readFields read scope ((name, type) :: fields) document start = .ok final stop) :
    ∃ value first next middle, read type (scope document) first = .ok value next ∧
      first.rest = start.rest ∧ next.rest = middle.rest ∧
      readFields read scope fields (document.insert name value) middle = .ok final stop := by
  obtain ⟨value, middle, hvalue, h⟩ := bind_run.mp h
  obtain ⟨next, hnext, rfl⟩ := within_run.mp hvalue
  exact ⟨value, _, next, { next with path := next.path.pop }, hnext, rfl, rfl, h⟩

theorem Decoder.names_of_readFields {read : ValueReader} {scope : Document → Scope}
    {fields : List (String × FieldType)} {before : Document}
    (hn : (before.names ++ fields.map Prod.fst).Nodup)
    (h : readFields read scope fields before start = .ok final stop) :
    final.names = before.names ++ fields.map Prod.fst := by
  induction fields generalizing before start with
  | nil =>
    obtain ⟨rfl, -⟩ := pure_run.mp h
    simp
  | cons field fields ih =>
    obtain ⟨value, middle, -, hrest⟩ := bind_run.mp h
    obtain ⟨hnew, hn⟩ := Document.nodup_step value hn
    rw [ih hn hrest, Document.names_insert hnew]
    simp

theorem Codec.WritesField.of_mem {write : Writer} {scope : Scope}
    (h : WritesField write path scope field written)
    (hmem : field.1 ∈ scope.current.names) : ∃ value, scope.current.get? field.1 = some value ∧
      write (path.push (.name field.1)) field.2 value scope = .ok written := by
  obtain ⟨value, hvalue⟩ := Document.mem_names_iff.mp hmem
  rw [WritesField, hvalue] at h
  exact ⟨value, hvalue, h⟩

/-- A field that is not there is written only if it is a constant. -/
theorem Codec.not_writeFields_of_missing {write : Writer} {scope : Scope}
    {fields : List (String × FieldType)} (hmem : field ∈ fields)
    (hget : scope.current.get? field.1 = none)
    (hmissing : ∀ path written, writeMissing write path scope field.2 ≠ .ok written) :
    writeFields write path scope fields ≠ .ok written := by
  intro h
  obtain ⟨-, parts, hparts, -⟩ := writeFields_ok.mp h
  obtain ⟨i, hi, rfl⟩ := List.getElem_of_mem hmem
  have hpart := hparts.get hi (hparts.length_eq ▸ hi)
  rw [List.get_eq_getElem, WritesField, hget] at hpart
  exact hmissing _ _ hpart

namespace Schema

def decoder (schema : Schema) (options : CodecOptions) : Decoder Document :=
  Decoder.readFields (FieldType.readAt (schema.codec options) options.maxDepth)
  (Scope.root · options) schema.fields .empty

theorem decode_ok {schema : Schema} : schema.decode options bytes = .ok document ↔
    ∃ stop, schema.decoder options (.start bytes) = .ok document stop ∧
      (stop.rest = [] ∨ options.allowTrailing = true) := by
  rw [decode, ← decoder]
  cases schema.decoder options (.start bytes) with
  | error => simp
  | ok found stop =>
    obtain ⟨offset, rest, path⟩ := stop
    cases rest with
    | nil => simp
    | cons => by_cases ht : options.allowTrailing = true <;> simp [ht]

end Schema

end Mapsmith
