import Mapsmith.Proofs.Script.Languages
import Mapsmith.Proofs.Script.Parser

/-!
# Parsers that fail at the first fault

`Tracks.many`, `Tracks.eat` and others: a parser tracks a language before what follows if it
takes a word of the language wherever it goes through, and fails, if it fails, at the first
kind that no word goes on with. What it has taken then is the start of some word. A parser that
has gone through has not passed over another word either: all that may come after what it took
is what follows. One lemma for each part of a parser puts these together.
-/

namespace Mapsmith.Script

def kindsOf (ahead : List Lexeme) : List TokenKind := ahead.map fun lexeme => lexeme.token.kind

@[simp] theorem kindsOf_nil : kindsOf [] = [] := rfl

@[simp] theorem kindsOf_append (first second : List Lexeme) :
    kindsOf (first ++ second) = kindsOf first ++ kindsOf second := List.map_append

theorem head?_append_eq {rest : List Lexeme} {more : List TokenKind} (taken : List Lexeme)
    (h : more.head? = kind? rest) :
    (kindsOf taken ++ more).head? = kind? (taken ++ rest) := by
  cases taken with
  | nil => exact h
  | cons lexeme taken => rfl

/-- No word begins with the kind ahead. -/
def Misses (ahead : List Lexeme) (words : Language TokenKind) : Prop :=
  ∀ kind ∈ kind? ahead, ∀ more, kind :: more ∉ words

section

variable {ahead : List Lexeme} {words other : Language TokenKind} {p : TokenKind → Prop}

theorem Begins.misses (h : Begins words p) (hp : ∀ kind ∈ kind? ahead, ¬p kind) :
    Misses ahead words :=
  fun kind hkind more hmem => hp kind hkind (h kind more hmem)

@[simp] theorem misses_nil : Misses [] words := by
  rintro _ ⟨⟩

@[simp] theorem misses_zero : Misses ahead 0 := fun _ _ _ h => h.elim

@[simp] theorem misses_one : Misses ahead 1 := by
  rintro _ _ _ ⟨⟩

@[simp] theorem misses_add :
    Misses ahead (words + other) ↔ Misses ahead words ∧ Misses ahead other := by
  simp only [Misses, Language.mem_add, not_or, forall_and]

@[simp] theorem misses_oneOf_mul (h : ∀ kind ∈ kind? ahead, ¬p kind) :
    Misses ahead (oneOf p * words) :=
  Begins.misses (begins_oneOf_mul fun _ => id) h

@[simp] theorem misses_only_mul (h : kind? ahead ≠ some kind) : Misses ahead (only kind * words) :=
  misses_oneOf_mul fun _ hother heq => h (heq ▸ hother)

end

namespace Parser

/-- The run has tracked the words, of which one is followed by a word of `follow`. It may
also have given up for lack of levels. -/
inductive Tracks (follow words : Language TokenKind) (ahead : List Lexeme) :
    EStateM.Result SyntaxFault (List Lexeme) α → Prop
  | ok (taken : List Lexeme) {a rest} : ahead = taken ++ rest → kindsOf taken ∈ words →
      (∀ more : List TokenKind, more.head? = kind? rest → kindsOf taken ++ more ∈ words * follow →
        more ∈ follow) →
      Tracks follow words ahead (.ok a rest)
  | error (taken : List Lexeme) {fault rest} :
      ahead = taken ++ rest → (∃ more, kindsOf taken ++ more ∈ words) →
      (∀ kind ∈ kind? rest, ∀ more, kindsOf taken ++ kind :: more ∉ words * follow) →
      Tracks follow words ahead (.error fault rest)
  | tooDeep (taken : List Lexeme) {rest} : ahead = taken ++ rest →
      Tracks follow words ahead (.error .tooDeep rest)

variable {follow words other first second : Language TokenKind} {ahead : List Lexeme}

/-- A parser that fails has taken tokens off the front, and no others. -/
theorem Tracks.error_suffix {fault : SyntaxFault} {rest : List Lexeme}
    (h : Tracks follow words ahead (.error fault rest : EStateM.Result _ _ α)) :
    rest <:+ ahead := by
  cases h with
  | error taken heq | tooDeep taken heq => exact ⟨taken, heq.symm⟩

-- ---------------------------------------------------------------------------
-- One after the other
-- ---------------------------------------------------------------------------

theorem tracks_pure (a : α) : Tracks follow 1 ahead ((pure a : Parser α) ahead) :=
  .ok [] rfl rfl fun more _ hmem => by simpa using hmem

theorem Tracks.bind {p : Parser α} {f : α → Parser β}
    (h : Tracks (second * follow) first ahead (p ahead))
    (hne : Productive second)
    (h' : ∀ a rest, p ahead = .ok a rest → Tracks follow second rest (f a rest)) :
    Tracks follow (first * second) ahead ((p >>= f) ahead) := by
  show Tracks _ _ _ (EStateM.bind p f ahead)
  unfold EStateM.bind
  generalize hrun : p ahead = result at h
  cases h with
  | @ok taken a rest heq htaken hrest =>
    have hnext := h' a rest hrun
    show Tracks _ _ _ (f a rest)
    generalize f a rest = result at hnext
    cases hnext with
    | @ok taken' b rest' heq' htaken' hrest' =>
      subst heq'
      refine .ok (taken ++ taken') (by rw [heq, List.append_assoc])
        (kindsOf_append taken taken' ▸ append_mem htaken htaken') fun more hhead hmem =>
          hrest' more hhead ?_
      rw [kindsOf_append, List.append_assoc, mul_assoc] at hmem
      exact hrest _ (head?_append_eq taken' hhead) hmem
    | @error taken' fault rest' heq' hmore hdead =>
      subst heq'
      obtain ⟨more, hmore⟩ := hmore
      refine .error (taken ++ taken') (by rw [heq, List.append_assoc])
        ⟨more, by rw [kindsOf_append, List.append_assoc]; exact append_mem htaken hmore⟩
          fun kind hkind more hmem => ?_
      rw [kindsOf_append, List.append_assoc, mul_assoc] at hmem
      exact hdead kind hkind more (hrest _ (head?_append_eq taken' hkind.symm) hmem)
    | tooDeep taken' heq' =>
      subst heq'
      exact .tooDeep (taken ++ taken') (by rw [heq, List.append_assoc])
  | error taken heq hmore hdead =>
    obtain ⟨more, hmore⟩ := hmore
    obtain ⟨kinds, hkinds⟩ := hne
    refine .error taken heq ⟨more ++ kinds, ?_⟩ fun kind hkind more hmem => hdead kind hkind more ?_
    · rw [← List.append_assoc]
      exact append_mem hmore hkinds
    · rwa [mul_assoc] at hmem
  | tooDeep taken heq => exact .tooDeep taken heq

theorem Tracks.map {p : Parser α} (h : Tracks follow words ahead (p ahead)) (f : α → β) :
    Tracks follow words ahead ((p >>= fun a => pure (f a)) ahead) := by
  rw [← mul_one words]
  exact .bind (by rwa [one_mul]) productive_one fun a rest _ => tracks_pure _

theorem Tracks.widen {result : EStateM.Result SyntaxFault (List Lexeme) α}
    (h : Tracks follow words ahead result) (hsub : ∀ kinds ∈ words, kinds ∈ other)
    (hhead : ∀ kind ∈ kind? ahead, ∀ more, kind :: more ∈ other * follow →
      kind :: more ∈ words * follow) :
    Tracks follow other ahead result := by
  have hback (taken rest : List Lexeme) (more : List TokenKind) (heq : ahead = taken ++ rest)
      (hrest : more.head? = kind? rest) (hne : kindsOf taken ++ more ≠ [])
      (hmem : kindsOf taken ++ more ∈ other * follow) : kindsOf taken ++ more ∈ words * follow := by
    have hfirst := head?_append_eq taken hrest
    obtain ⟨kind, others, hcons⟩ := List.exists_cons_of_ne_nil hne
    rw [hcons] at hfirst hmem ⊢
    exact hhead kind (heq ▸ hfirst.symm) others hmem
  cases h with
  | @ok taken a rest heq htaken hrest =>
    refine .ok taken heq (hsub _ htaken) fun more hhead' hmem => ?_
    by_cases hne : kindsOf taken ++ more = []
    · obtain ⟨-, rfl⟩ := List.append_eq_nil_iff.mp hne
      rw [hne, nil_mem_mul] at hmem
      exact hmem.2
    · exact hrest more hhead' (hback taken rest more heq hhead' hne hmem)
  | @error taken fault rest heq hmore hdead =>
    obtain ⟨more, hmore⟩ := hmore
    refine .error taken heq ⟨more, hsub _ hmore⟩ fun kind hkind more hmem => ?_
    refine hdead kind hkind more ?_
    exact hback taken rest _ heq hkind.symm (by simp) hmem
  | tooDeep taken heq => exact .tooDeep taken heq

theorem Tracks.left {result : EStateM.Result SyntaxFault (List Lexeme) α}
    (h : Tracks follow first ahead result)
    (hsecond : Misses ahead (second * follow)) : Tracks follow (first + second) ahead result := by
  refine h.widen (fun _ => .inl) fun kind hkind more hmem => ?_
  rw [add_mul, Language.mem_add] at hmem
  exact hmem.resolve_right (hsecond kind hkind more)

theorem Tracks.right {result : EStateM.Result SyntaxFault (List Lexeme) α}
    (h : Tracks follow second ahead result)
    (hfirst : Misses ahead (first * follow)) : Tracks follow (first + second) ahead result := by
  refine h.widen (fun _ => .inr) fun kind hkind more hmem => ?_
  rw [add_mul, Language.mem_add] at hmem
  exact hmem.resolve_left (hfirst kind hkind more)

theorem Tracks.ofOnly {result : EStateM.Result SyntaxFault (List Lexeme) α} {p : TokenKind → Prop}
    (h : Tracks follow (only kind * words) ahead result) (hkind : kind? ahead = some kind)
    (hp : p kind) :
    Tracks follow (oneOf p * words) ahead result := by
  refine h.widen (fun kinds hmem => ?_) fun other hother more hmem => ?_
  · obtain ⟨more, hmore, rfl⟩ := mem_only_mul.mp hmem
    exact cons_mem_oneOf_mul.mpr ⟨hp, hmore⟩
  · obtain rfl : kind = other := Option.some.inj (hkind.symm.trans hother)
    rw [mul_assoc, cons_mem_oneOf_mul] at hmem ⊢
    exact ⟨rfl, hmem.2⟩

theorem tracks_peek {f : Option TokenKind → Parser α}
    (h : ∀ found, kind? ahead = found → Tracks follow words ahead (f found ahead)) :
    Tracks follow words ahead ((peek >>= f) ahead) := h _ rfl

-- ---------------------------------------------------------------------------
-- Single tokens
-- ---------------------------------------------------------------------------

theorem tracks_throw (hne : Productive words) (hdead : Misses ahead (words * follow))
    (fault : SyntaxFault) :
    Tracks follow words ahead ((throw fault : Parser α) ahead) :=
  .error [] rfl hne hdead

theorem tracks_unexpected (hne : Productive words) (hdead : Misses ahead (words * follow))
    (expected : Expected) : Tracks follow words ahead ((unexpected expected : Parser α) ahead) :=
  tracks_throw hne hdead _

theorem Tracks.cons {result : EStateM.Result SyntaxFault (List Lexeme) α} {p : TokenKind → Prop}
    {rest : List Lexeme} (h : Tracks follow words rest result) (hp : p lexeme.token.kind) :
    Tracks follow (oneOf p * words) (lexeme :: rest) result := by
  cases h with
  | ok taken heq htaken hrest =>
    refine .ok (lexeme :: taken) (congrArg (lexeme :: ·) heq) (cons_mem_oneOf_mul.mpr ⟨hp, htaken⟩)
      fun more hhead hmem => hrest more hhead ?_
    rw [mul_assoc] at hmem
    exact (cons_mem_oneOf_mul.mp hmem).2
  | error taken heq hmore hdead =>
    obtain ⟨more, hmore⟩ := hmore
    refine .error (lexeme :: taken) (congrArg (lexeme :: ·) heq)
      ⟨more, cons_mem_oneOf_mul.mpr ⟨hp, hmore⟩⟩
      fun kind hkind more hmem => hdead kind hkind more ?_
    rw [mul_assoc] at hmem
    exact (cons_mem_oneOf_mul.mp hmem).2
  | tooDeep taken heq => exact .tooDeep (lexeme :: taken) (congrArg (lexeme :: ·) heq)

theorem tracks_accept {use? : Token → Option α} {p : TokenKind → Prop}
    (huse : ∀ token, (use? token).isSome = true ↔ p token.kind) (hne : Productive (oneOf p))
    (expected : Expected) : Tracks follow (oneOf p) ahead (accept use? expected ahead) := by
  cases ahead with
  | nil => exact tracks_unexpected hne misses_nil expected
  | cons lexeme rest =>
    have hp := huse lexeme.token
    cases hu : use? lexeme.token with
    | some a =>
      rw [hu] at hp
      have hrun : accept use? expected (lexeme :: rest) = .ok a rest := by simp [accept, hu]
      rw [hrun, ← mul_one (oneOf p)]
      exact Tracks.cons (tracks_pure a) (hp.mp rfl)
    | none =>
      rw [hu] at hp
      have hrun : accept use? expected (lexeme :: rest) = unexpected expected (lexeme :: rest) := by
        simp [accept, hu]
      rw [hrun]
      refine tracks_unexpected hne (misses_oneOf_mul fun kind hkind hkindp => ?_) expected
      obtain rfl : lexeme.token.kind = kind := Option.some.inj hkind
      exact Bool.false_ne_true (hp.mpr hkindp)

theorem tracks_expect (kind : TokenKind) : Tracks follow (only kind) ahead (expect kind ahead) := by
  cases ahead with
  | nil => exact tracks_unexpected (productive_only kind) misses_nil _
  | cons lexeme rest =>
    by_cases hk : lexeme.token.kind = kind
    · have hrun : expect kind (lexeme :: rest) = .ok lexeme.position rest := by simp [expect, hk]
      rw [hrun, ← mul_one (only kind)]
      exact Tracks.cons (tracks_pure _) hk
    · have hrun : expect kind (lexeme :: rest) = unexpected (.token kind) (lexeme :: rest) := by
        simp [expect, hk]
      rw [hrun]
      exact tracks_unexpected (productive_only kind)
        (misses_only_mul fun heq => hk (by cases heq; rfl)) _

theorem Tracks.after {f : Position → Parser α} (kind : TokenKind) (hne : Productive words)
    (h : ∀ position rest, Tracks follow words rest (f position rest)) :
    Tracks follow (only kind * words) ahead ((expect kind >>= f) ahead) :=
  .bind (tracks_expect kind) hne fun position rest _ => h position rest

theorem eat?_some_bind {f : Option Position → Parser α} {kind : TokenKind}
    (h : lexeme.token.kind = kind) :
    (eat? kind >>= f) (lexeme :: rest) = f (some lexeme.position) rest := by
  show EStateM.bind (eat? kind) f _ = _
  simp [EStateM.bind, eat?, h]

theorem eat?_none_bind {f : Option Position → Parser α} {kind : TokenKind}
    (h : kind? ahead ≠ some kind) :
    (eat? kind >>= f) ahead = f none ahead := by
  show EStateM.bind (eat? kind) f _ = _
  cases ahead with
  | nil => rfl
  | cons lexeme rest =>
    have hne : lexeme.token.kind ≠ kind := fun heq => h (congrArg some heq)
    simp [EStateM.bind, eat?, hne]

theorem Tracks.eat {f : Option Position → Parser α} (kind : TokenKind)
    (hsome : ∀ position rest, Tracks follow first rest (f (some position) rest))
    (hnone : kind? ahead ≠ some kind → Tracks follow second ahead (f none ahead))
    (hsecond : Begins (second * follow) (· ≠ kind)) :
    Tracks follow (only kind * first + second) ahead ((eat? kind >>= f) ahead) := by
  by_cases hk : kind? ahead = some kind
  · cases ahead with
    | nil => cases hk
    | cons lexeme rest =>
      obtain rfl : lexeme.token.kind = kind := Option.some.inj hk
      rw [eat?_some_bind rfl]
      refine .left ((hsome lexeme.position rest).cons rfl) (hsecond.misses fun other hother => ?_)
      exact not_not_intro (Option.some.inj hother).symm
  · rw [eat?_none_bind hk]
    exact .right (hnone hk) (by simp [mul_assoc, hk])

-- ---------------------------------------------------------------------------
-- Repetitions
-- ---------------------------------------------------------------------------

theorem bind_ok {p : Parser α} {f : α → Parser β} (h : p ahead = .ok a rest) :
    (p >>= f) ahead = f a rest := by
  show EStateM.bind p f ahead = _
  simp [EStateM.bind, h]

theorem bind_error {p : Parser α} {f : α → Parser β} (h : p ahead = .error fault rest) :
    (p >>= f) ahead = .error fault rest := by
  show EStateM.bind p f ahead = _
  simp [EStateM.bind, h]

theorem bind_congr {p p' : Parser α} {f : α → Parser β} (h : p ahead = p' ahead') :
    (p >>= f) ahead = (p' >>= f) ahead' := by
  show EStateM.bind p f ahead = EStateM.bind p' f ahead'
  simp [EStateM.bind, h]

section

variable {continues : List Lexeme → Bool} {item : Parser α}

theorem manyFrom_eq (hitem : ∀ ahead a rest, item ahead = .ok a rest → rest.length < ahead.length)
    (bound : List Lexeme) (before : List α) (ahead : List Lexeme)
    (hbound : ahead.length ≤ bound.length) :
    manyFrom continues item bound before ahead =
      if continues ahead then
        (item >>= fun a => many continues item >>= fun items => pure (before.reverse ++ a :: items))
          ahead
      else .ok before.reverse ahead := by
  induction hn : ahead.length using Nat.strongRecOn generalizing ahead bound before with
  | ind n ih =>
    rw [manyFrom, get_bind]
    split
    · cases hrun : item ahead with
      | error fault rest => rw [bind_error hrun, bind_error hrun]
      | ok a rest =>
        have hless := hitem _ _ _ hrun
        rw [bind_ok hrun, bind_ok hrun]
        cases bound with
        | nil => exact absurd (hless.trans_le hbound) (Nat.not_lt_zero _)
        | cons lexeme bound =>
          have hbound : rest.length ≤ bound.length := Nat.le_of_lt_succ (hless.trans_le hbound)
          have hfirst := ih _ (hn ▸ hless) bound (a :: before) rest hbound rfl
          have hsecond : many continues item rest = _ :=
            ih _ (hn ▸ hless) rest [] rest (Nat.le_refl _) rfl
          show manyFrom continues item bound (a :: before) rest = _
          rw [hfirst]
          split at hsecond
          · rw [if_pos ‹_›, bind_congr hsecond]
            simp
          · rw [if_neg ‹_›, bind_ok hsecond]
            simp only [List.reverse_cons]
            rfl
    · rfl

theorem many_bind {f : List α → Parser β}
    (hitem : ∀ ahead a rest, item ahead = .ok a rest → rest.length < ahead.length)
    (ahead : List Lexeme) :
    (many continues item >>= f) ahead =
      if continues ahead then
        (item >>= fun a => many continues item >>= fun items => f (a :: items)) ahead
      else f [] ahead := by
  have hmany : many continues item ahead = _ := manyFrom_eq hitem ahead [] ahead (Nat.le_refl _)
  split at hmany
  · rw [if_pos ‹_›, bind_congr hmany]
    simp [bind_assoc]
  · rw [if_neg ‹_›, bind_ok hmany]
    rfl

end

/-- What takes a word takes tokens, unless the word is empty. -/
theorem Tracks.length_lt {p : Parser α} (h : Tracks follow words ahead (p ahead))
    (hnil : [] ∉ words)
    (hrun : p ahead = .ok a rest) : rest.length < ahead.length := by
  rw [hrun] at h
  cases h with
  | ok taken heq htaken =>
    have hne : taken ≠ [] := fun h => hnil (by rwa [h] at htaken)
    rw [heq, List.length_append]
    exact Nat.lt_add_of_pos_left (List.length_pos_iff.mpr hne)

theorem Tracks.many {part last : Language TokenKind} {continues : List Lexeme → Bool}
    {item : Parser α}
    {f : List α → Parser β} {p : TokenKind → Prop} (hwords : words = part * words + last)
    (hcontinues : ∀ ahead, ∀ kind ∈ kind? ahead, continues ahead = true ↔ p kind) (hnil : [] ∉ part)
    (hpart : Begins part p) (hlast : Begins (last * follow) fun kind => ¬p kind)
    (hne : Productive words)
    (hitem : ∀ ahead, Tracks (words * follow) part ahead (item ahead))
    (hrest : ∀ items rest, Tracks follow last rest (f items rest)) :
    Tracks follow words ahead ((many continues item >>= f) ahead) := by
  have hless (ahead : List Lexeme) (a : α) (rest : List Lexeme) (hrun : item ahead = .ok a rest) :
      rest.length < ahead.length := (hitem ahead).length_lt hnil hrun
  induction hn : ahead.length using Nat.strongRecOn generalizing ahead f with
  | ind n ih =>
    rw [many_bind hless]
    split
    · rename_i hmore
      have hnext :=
        Tracks.bind (f := fun a => Parser.many continues item >>= fun items => f (a :: items))
        (hitem ahead) hne fun a rest hrun =>
          ih rest.length (hn ▸ hless _ _ _ hrun) (fun items rest => hrest (a :: items) rest) rfl
      rw [hwords]
      exact .left hnext
        (hlast.misses fun kind hkind h => h ((hcontinues ahead kind hkind).mp hmore))
    · rename_i hend
      rw [hwords]
      refine .right (hrest [] ahead) (Begins.misses ?_ fun kind hkind hp =>
        hend ((hcontinues ahead kind hkind).mpr hp))
      exact (hpart.mul_left hnil).mul_left fun h => hnil (nil_mem_mul.mp h).1

end Parser

end Mapsmith.Script
