import Mathlib.Data.List.Forall2
import Mapsmith.Script.Parser

/-!
# When the parts of a parser go through

One lemma for each part of a parser: that it reads something says which tokens were
ahead. `Ahead` relates tokens to the lexemes that they are taken from, and `Repeats`
the items of a repetition to the runs of its item.
-/

namespace Mapsmith.Script

-- ---------------------------------------------------------------------------
-- Tokens ahead
-- ---------------------------------------------------------------------------

def Ahead : List Token → List Lexeme → List Lexeme → Prop
  | [], ahead, rest => ahead = rest
  | token :: tokens, ahead, rest => ∃ lexeme others, ahead = lexeme :: others ∧
      lexeme.token = token ∧ Ahead tokens others rest

@[simp] theorem ahead_nil : Ahead [] ahead rest ↔ ahead = rest := Iff.rfl

theorem ahead_cons : Ahead (token :: tokens) ahead rest ↔ ∃ lexeme others,
    ahead = lexeme :: others ∧ lexeme.token = token ∧ Ahead tokens others rest := Iff.rfl

theorem ahead_append : Ahead (first ++ second) ahead rest ↔
    ∃ middle, Ahead first ahead middle ∧ Ahead second middle rest := by
  induction first generalizing ahead with
  | nil => simp
  | cons token first ih =>
    simp only [List.cons_append, ahead_cons, ih]
    constructor
    · rintro ⟨lexeme, others, rfl, rfl, middle, hfirst, hsecond⟩
      exact ⟨middle, ⟨lexeme, others, rfl, rfl, hfirst⟩, hsecond⟩
    · rintro ⟨middle, ⟨lexeme, others, rfl, rfl, hfirst⟩, hsecond⟩
      exact ⟨lexeme, others, rfl, rfl, middle, hfirst, hsecond⟩

theorem Ahead.line (h : Ahead (first ++ token :: second) ahead rest) :
    ∃ middle, Ahead (first ++ [token]) ahead middle ∧ Ahead second middle rest := by
  rw [List.append_cons] at h
  exact ahead_append.mp h

theorem ahead_iff : Ahead tokens ahead rest ↔
    ∃ taken, ahead = taken ++ rest ∧ taken.map Lexeme.token = tokens := by
  induction tokens generalizing ahead with
  | nil => simp
  | cons token tokens ih =>
    simp only [ahead_cons, ih]
    constructor
    · rintro ⟨lexeme, _, rfl, rfl, taken, rfl, rfl⟩
      exact ⟨lexeme :: taken, rfl, rfl⟩
    · rintro ⟨_ | ⟨lexeme, taken⟩, rfl, htokens⟩
      · cases htokens
      · cases htokens
        exact ⟨lexeme, _, rfl, rfl, taken, rfl, rfl⟩

theorem Ahead.append_nil (h : Ahead tokens ahead rest) : Ahead (tokens ++ []) ahead rest := by
  rwa [List.append_nil]

theorem Ahead.length_le (h : Ahead tokens ahead rest) : rest.length ≤ ahead.length := by
  obtain ⟨taken, rfl, -⟩ := ahead_iff.mp h
  simp

theorem Ahead.length_lt (h : Ahead (token :: tokens) ahead rest) : rest.length < ahead.length := by
  obtain ⟨lexeme, others, rfl, -, h⟩ := h
  exact Nat.lt_succ_of_le h.length_le

def kind? (ahead : List Lexeme) : Option TokenKind :=
  ahead.head?.map fun lexeme => lexeme.token.kind

theorem Ahead.kind?_eq (h : Ahead (token :: tokens) ahead rest) :
    kind? ahead = some token.kind := by
  obtain ⟨lexeme, others, rfl, rfl, -⟩ := h
  rfl

def Before (p : TokenKind → Bool) (ahead : List Lexeme) : Prop :=
  ∀ kind ∈ kind? ahead, p kind = true

theorem Before.imp (h : Before p ahead) (himp : ∀ kind, p kind = true → q kind = true) :
    Before q ahead := fun kind hk => himp kind (h kind hk)

theorem Ahead.before (h : Ahead (token :: tokens) ahead rest) (hp : p token.kind = true) :
    Before p ahead := by
  rintro _ hk
  cases h.kind?_eq.symm.trans hk
  exact hp

namespace Parser

theorem isAt_iff : isAt kind ahead = true ↔ kind? ahead = some kind := by
  cases ahead <;> simp [isAt, kind?]

theorem isAt_of_ahead (h : Ahead (token :: tokens) ahead rest) :
    isAt kind ahead = decide (token.kind = kind) := by
  obtain ⟨lexeme, others, rfl, rfl, -⟩ := h
  rfl

theorem isAt_eq_false (h : Before p ahead) (hp : p kind = false) : isAt kind ahead = false := by
  rw [Bool.eq_false_iff, ne_eq, isAt_iff]
  intro hk
  rw [h _ hk] at hp
  cases hp

-- ---------------------------------------------------------------------------
-- Parts
-- ---------------------------------------------------------------------------

theorem bind_iff {p : Parser α} {f : α → Parser β} : (p >>= f) ahead = .ok b rest ↔
    ∃ a middle, p ahead = .ok a middle ∧ f a middle = .ok b rest := by
  show EStateM.bind p f ahead = _ ↔ _
  unfold EStateM.bind
  cases p ahead <;> simp

theorem pure_iff : (pure a : Parser α) ahead = .ok b rest ↔ b = a ∧ ahead = rest := by
  show EStateM.Result.ok a ahead = _ ↔ _
  simp [eq_comm]

theorem map_iff {p : Parser α} {f : α → β} : (f <$> p) ahead = .ok b rest ↔
    ∃ a, p ahead = .ok a rest ∧ f a = b := by
  show EStateM.map f p ahead = _ ↔ _
  unfold EStateM.map
  cases p ahead <;> simp
  tauto

theorem get_iff : (get : Parser (List Lexeme)) ahead = .ok found rest ↔
    found = ahead ∧ ahead = rest := by
  show EStateM.Result.ok ahead ahead = _ ↔ _
  simp [eq_comm]

theorem get_bind {f : List Lexeme → Parser α} : (get >>= f) ahead = f ahead ahead := rfl

theorem unexpected_iff : (unexpected expected : Parser α) ahead = .ok a rest ↔ False :=
  iff_of_false nofun id

theorem peek_iff : peek ahead = .ok found rest ↔ found = kind? ahead ∧ ahead = rest := by
  simp [peek, kind?, eq_comm]

theorem accept_iff {use? : Token → Option α} : accept use? expected ahead = .ok a rest ↔
    ∃ lexeme, ahead = lexeme :: rest ∧ use? lexeme.token = some a := by
  unfold accept
  cases ahead with
  | nil => simp [unexpected]
  | cons lexeme others =>
    cases hu : use? lexeme.token with
    | none => simp [hu, unexpected]
    | some found =>
      simp only [hu, EStateM.Result.ok.injEq, List.cons.injEq]
      grind

theorem expect_iff : expect kind ahead = .ok start rest ↔
    ∃ lexeme, ahead = lexeme :: rest ∧ lexeme.token.kind = kind ∧ start = lexeme.position := by
  unfold expect
  cases ahead with
  | nil => simp [unexpected]
  | cons lexeme others =>
    by_cases hk : lexeme.token.kind = kind
    · simp only [hk, if_true, EStateM.Result.ok.injEq, List.cons.injEq]
      grind
    · simp [hk, unexpected]

theorem eat?_iff : eat? kind ahead = .ok found rest ↔
    (∃ lexeme, ahead = lexeme :: rest ∧ lexeme.token.kind = kind ∧ found = some lexeme.position) ∨
      kind? ahead ≠ some kind ∧ found = none ∧ ahead = rest := by
  unfold eat?
  cases ahead with
  | nil => simp [kind?, eq_comm]
  | cons lexeme others =>
    by_cases hk : lexeme.token.kind = kind
    · simp [hk, kind?, eq_comm]
      grind
    · simp [hk, kind?, eq_comm]
      grind

-- ---------------------------------------------------------------------------
-- Repetitions
-- ---------------------------------------------------------------------------

/-- The items are read one after the other, each from a text that goes on with one
and each taking something of it. -/
inductive Repeats (continues : List Lexeme → Bool) (item : Parser α) :
    List Lexeme → List α → List Lexeme → Prop
  | done {ahead} : continues ahead = false → Repeats continues item ahead [] ahead
  | more {ahead a middle items rest} : continues ahead = true → item ahead = .ok a middle →
      middle.length < ahead.length → Repeats continues item middle items rest →
      Repeats continues item ahead (a :: items) rest

variable {continues : List Lexeme → Bool} {item : Parser α}

theorem Repeats.stops (h : Repeats continues item ahead items rest) : continues rest = false := by
  induction h with
  | done hend => exact hend
  | more _ _ _ _ ih => exact ih

theorem Repeats.eq_nil (h : Repeats continues item [] items rest) : items = [] := by
  cases h with
  | done => rfl
  | more _ _ hless => exact absurd hless (Nat.not_lt_zero _)

theorem manyFrom_iff {bound : List Lexeme} (hbound : ahead.length ≤ bound.length)
    (hitem : ∀ a middle, item ahead = .ok a middle → middle.length < ahead.length) :
    manyFrom continues item bound before ahead = .ok items rest ↔
      continues ahead = false ∧ items = before.reverse ∧ ahead = rest ∨
      continues ahead = true ∧ ∃ a middle, item ahead = .ok a middle ∧
        manyFrom continues item bound.tail (a :: before) middle = .ok items rest := by
  rw [manyFrom, get_bind]
  cases hc : continues ahead with
  | false => simp [pure_iff]
  | true =>
    rw [if_pos rfl, bind_iff]
    cases bound with
    | nil =>
      cases List.length_eq_zero_iff.mp (Nat.le_zero.mp hbound)
      have hnone (a : α) (middle : List Lexeme) : item [] ≠ .ok a middle := fun h =>
        absurd (hitem a middle h) (Nat.not_lt_zero _)
      simp [hnone]
    | cons lexeme bound => simp

theorem Repeats.manyFrom (h : Repeats continues item ahead items rest) (bound : List Lexeme)
    (before : List α) (hbound : ahead.length ≤ bound.length) :
    manyFrom continues item bound before ahead = .ok (before.reverse ++ items) rest := by
  induction h generalizing bound before with
  | done hend =>
    rw [Parser.manyFrom, bind_iff]
    exact ⟨_, _, rfl, by simp [hend, pure_iff]⟩
  | @more ahead a middle items rest hmore hitem hless _ ih =>
    refine (manyFrom_iff hbound ?_).mpr (.inr ⟨hmore, a, middle, hitem, ?_⟩)
    · intro _ _ h
      cases hitem.symm.trans h
      exact hless
    · have hrest := ih bound.tail (a :: before) (by rw [List.length_tail]; omega)
      simpa using hrest

theorem Repeats.many (h : Repeats continues item ahead items rest) :
    many continues item ahead = .ok items rest :=
  h.manyFrom ahead [] (Nat.le_refl _)

theorem repeats_of_manyFrom {P : List Lexeme → Prop}
    (hitem : ∀ ahead a rest, P ahead → item ahead = .ok a rest →
      P rest ∧ rest.length < ahead.length) (bound : List Lexeme) (before : List α) (ha : P ahead)
    (hbound : ahead.length ≤ bound.length)
    (h : manyFrom continues item bound before ahead = .ok items rest) :
    ∃ others, items = before.reverse ++ others ∧ Repeats continues item ahead others rest := by
  induction hn : ahead.length using Nat.strongRecOn generalizing ahead bound before with
  | ind n ih =>
    rcases (manyFrom_iff hbound fun a middle h => (hitem _ _ _ ha h).2).mp h with
      ⟨hend, rfl, rfl⟩ | ⟨hmore, a, middle, ha', h⟩
    · exact ⟨[], by simp, .done hend⟩
    · obtain ⟨hmiddle, hless⟩ := hitem _ _ _ ha ha'
      obtain ⟨others, rfl, hothers⟩ := ih _ (hn ▸ hless) bound.tail (a :: before) hmiddle
        (by rw [List.length_tail]; omega) h rfl
      exact ⟨a :: others, by simp, .more hmore ha' hless hothers⟩

theorem repeats_of_many {P : List Lexeme → Prop}
    (hitem : ∀ ahead a rest, P ahead → item ahead = .ok a rest →
      P rest ∧ rest.length < ahead.length) (ha : P ahead)
    (h : many continues item ahead = .ok items rest) : Repeats continues item ahead items rest := by
  obtain ⟨others, rfl, hothers⟩ := repeats_of_manyFrom hitem ahead [] ha (Nat.le_refl _) h
  exact hothers

end Parser

end Mapsmith.Script
