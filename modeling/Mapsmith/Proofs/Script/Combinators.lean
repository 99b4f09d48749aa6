import Mapsmith.Proofs.Script.Parser

/-!
# What parsers read

`Gives` says which tokens a parser has taken when it gives a result, `Takes` which
tokens it takes to give one, if what is after them lets it stop there. Both go from
the parts of a parser to the whole.
-/

namespace Mapsmith.Script

-- ---------------------------------------------------------------------------
-- Canonical tokens
-- ---------------------------------------------------------------------------

/-- The token is spelled as its kind asks for. The texts of literals may be any. -/
def Token.Canonical (token : Token) : Prop :=
  match token.kind with
  | .identifier => TokenKind.ofWord? token.text = none
  | .literal _ => True
  | .newline => token.text = "\n"
  | kind => token.text = kind.name

/-- All tokens of the kind are spelled alike. -/
def TokenKind.IsFixed : TokenKind → Prop
  | .identifier | .literal _ => False
  | _ => True

theorem Token.Canonical.eq {token token' : Token} (h : token.Canonical) (h' : token'.Canonical)
    (hk : token.kind = token'.kind) (hf : token'.kind.IsFixed) : token = token' := by
  obtain ⟨kind, text⟩ := token
  obtain ⟨_, text'⟩ := token'
  cases hk
  have htext : text = text' := by
    cases kind with
    | identifier | literal => exact hf.elim
    | _ => exact Eq.trans h h'.symm
  rw [htext]

def Canonical (ahead : List Lexeme) : Prop := ∀ lexeme ∈ ahead, lexeme.token.Canonical

theorem Ahead.canonical (h : Ahead tokens ahead rest) (hc : Canonical ahead) : Canonical rest := by
  obtain ⟨taken, rfl, -⟩ := ahead_iff.mp h
  exact fun lexeme hl => hc lexeme (List.mem_append_right _ hl)

structure Token.Fixed (token : Token) : Prop where
  canonical : token.Canonical
  fixed : token.kind.IsFixed

@[simp] theorem Token.kind_keyword (word : Keyword) :
    (Token.keyword word).kind = .keyword word := rfl

@[simp] theorem Token.kind_delimiter (mark : Delimiter) :
    (Token.delimiter mark).kind = .delimiter mark := rfl

@[simp] theorem Token.kind_newline : Token.newline.kind = .newline := rfl

@[simp] theorem Token.fixed_keyword (word : Keyword) : (Token.keyword word).Fixed := ⟨rfl, trivial⟩

@[simp] theorem Token.fixed_operator (op : Operator) : (Token.operator op).Fixed := ⟨rfl, trivial⟩

@[simp] theorem Token.fixed_delimiter (mark : Delimiter) : (Token.delimiter mark).Fixed :=
  ⟨rfl, trivial⟩

@[simp] theorem Token.fixed_assign : Token.assign.Fixed := ⟨rfl, trivial⟩

@[simp] theorem Token.fixed_newline : Token.newline.Fixed := ⟨rfl, trivial⟩

namespace Parser

-- ---------------------------------------------------------------------------
-- What has been taken
-- ---------------------------------------------------------------------------

/-- Whenever the parser gives a result, it has taken tokens that are related to it. -/
def Gives (p : Parser α) (taken : α → List Token → Prop) : Prop :=
  ∀ ahead a rest, Canonical ahead → p ahead = .ok a rest →
    ∃ tokens, Ahead tokens ahead rest ∧ taken a tokens

variable {taken taken' : α → List Token → Prop}

theorem Gives.imp {p : Parser α} (h : p.Gives taken)
    (himp : ∀ a tokens, taken a tokens → taken' a tokens) :
    p.Gives taken' := by
  intro ahead a rest hc hp
  obtain ⟨tokens, ha, htaken⟩ := h ahead a rest hc hp
  exact ⟨tokens, ha, himp a tokens htaken⟩

theorem Gives.bind {p : Parser α} {f : α → Parser β} {next : α → β → List Token → Prop}
    (h : p.Gives taken) (h' : ∀ a, (f a).Gives (next a)) : (p >>= f).Gives fun b tokens =>
      ∃ a first second, taken a first ∧ next a b second ∧ tokens = first ++ second := by
  intro ahead b rest hc hp
  obtain ⟨a, middle, ha, hb⟩ := bind_iff.mp hp
  obtain ⟨first, hfirst, htaken⟩ := h _ _ _ hc ha
  obtain ⟨second, hsecond, hnext⟩ := h' a _ _ _ (hfirst.canonical hc) hb
  exact ⟨_, ahead_append.mpr ⟨middle, hfirst, hsecond⟩, a, first, second, htaken, hnext, rfl⟩

theorem Gives.map {p : Parser α} (h : p.Gives taken) (f : α → β) :
    (f <$> p).Gives fun b tokens => ∃ a, taken a tokens ∧ b = f a := by
  intro ahead b rest hc hp
  obtain ⟨a, ha, rfl⟩ := map_iff.mp hp
  obtain ⟨tokens, hahead, htaken⟩ := h _ _ _ hc ha
  exact ⟨tokens, hahead, a, htaken, rfl⟩

theorem gives_pure (a : α) : (pure a : Parser α).Gives fun b tokens => b = a ∧ tokens = [] := by
  intro ahead b rest _ hp
  obtain ⟨rfl, rfl⟩ := pure_iff.mp hp
  exact ⟨[], rfl, rfl, rfl⟩

theorem gives_placed (a : Position → α) (start : Position) :
    (pure (a start) : Parser α).Gives fun b tokens => (∃ start, b = a start) ∧ tokens = [] :=
  (gives_pure (a start)).imp fun _ _ ⟨hb, htokens⟩ => ⟨⟨start, hb⟩, htokens⟩

theorem gives_throw (fault : SyntaxFault) : (throw fault : Parser α).Gives taken := nofun

theorem gives_unexpected (expected : Expected) :
    (unexpected expected : Parser α).Gives fun _ _ => False := nofun

theorem Gives.peek {f : Option TokenKind → Parser α} (h : ∀ kind, (f kind).Gives taken) :
    (peek >>= f).Gives taken := fun ahead => h (kind? ahead) ahead

theorem Gives.get {f : List Lexeme → Parser α} (h : ∀ ahead, (f ahead).Gives taken) :
    (get >>= f).Gives taken := fun ahead => h ahead ahead

theorem Gives.position {f : Position → Parser α} (h : ∀ start, (f start).Gives taken) :
    (position >>= f).Gives taken := fun ahead => h _ ahead

theorem Gives.ite {p q : Parser α} {c : Prop} [Decidable c] (h : p.Gives taken)
    (h' : q.Gives taken') :
    (if c then p else q).Gives fun a tokens => taken a tokens ∨ taken' a tokens := by
  split
  · exact h.imp fun _ _ => .inl
  · exact h'.imp fun _ _ => .inr

theorem Gives.after {f : Position → Parser α} (token : Token) (ht : token.Fixed)
    (h : ∀ start, (f start).Gives taken) : (expect token.kind >>= f).Gives fun a tokens =>
      ∃ others, taken a others ∧ tokens = token :: others := by
  intro ahead a rest hc hp
  obtain ⟨start, middle, hexpect, ha⟩ := bind_iff.mp hp
  obtain ⟨lexeme, rfl, hk, rfl⟩ := expect_iff.mp hexpect
  obtain ⟨hlexeme, hc⟩ := List.forall_mem_cons.mp hc
  obtain ⟨tokens, htokens, htaken⟩ := h _ _ _ _ hc ha
  exact ⟨token :: tokens, ⟨lexeme, middle, rfl, hlexeme.eq ht.canonical hk ht.fixed, htokens⟩,
    tokens, htaken, rfl⟩

theorem Gives.eat {f : Option Position → Parser α} (token : Token) (ht : token.Fixed)
    (h : ∀ start, (f (some start)).Gives taken) (h' : (f none).Gives taken') :
    (eat? token.kind >>= f).Gives fun a tokens =>
      (∃ others, taken a others ∧ tokens = token :: others) ∨ taken' a tokens := by
  intro ahead a rest hc hp
  obtain ⟨found, middle, heat, ha⟩ := bind_iff.mp hp
  obtain ⟨lexeme, rfl, hk, rfl⟩ | ⟨-, rfl, rfl⟩ := eat?_iff.mp heat
  · obtain ⟨hlexeme, hc⟩ := List.forall_mem_cons.mp hc
    obtain ⟨tokens, htokens, htaken⟩ := h _ _ _ _ hc ha
    exact ⟨token :: tokens,
      ⟨lexeme, middle, rfl, hlexeme.eq ht.canonical hk ht.fixed, htokens⟩,
      .inl ⟨tokens, htaken, rfl⟩⟩
  · obtain ⟨tokens, htokens, htaken⟩ := h' _ _ _ hc ha
    exact ⟨tokens, htokens, .inr htaken⟩

theorem gives_accept {use? : Token → Option α} (expected : Expected)
    (h : ∀ token a, token.Canonical → use? token = some a → taken a [token]) :
    (accept use? expected).Gives taken := by
  intro ahead a rest hc hp
  obtain ⟨lexeme, rfl, hu⟩ := accept_iff.mp hp
  exact ⟨[lexeme.token], ⟨lexeme, rest, rfl, rfl, rfl⟩, h _ _ (hc lexeme List.mem_cons_self) hu⟩

theorem Gives.many {item : Parser α} {tokens : α → List Token} {P : α → Prop}
    (continues : List Lexeme → Bool) (h : item.Gives fun a taken => taken = tokens a ∧ P a)
    (hne : ∀ a, tokens a ≠ []) :
    (many continues item).Gives fun items taken => taken = items.flatMap tokens ∧
      ∀ a ∈ items, P a := by
  intro ahead items rest hc hp
  have hrepeats : Repeats continues item ahead items rest := by
    refine repeats_of_many (fun ahead a rest hc ha => ?_) hc hp
    obtain ⟨_, hahead, rfl, -⟩ := h _ _ _ hc ha
    obtain ⟨token, others, heq⟩ := List.exists_cons_of_ne_nil (hne a)
    exact ⟨hahead.canonical hc, (heq ▸ hahead).length_lt⟩
  clear hp
  induction hrepeats with
  | done => exact ⟨[], rfl, rfl, by simp⟩
  | more _ ha _ _ ih =>
    obtain ⟨_, hahead, rfl, hP⟩ := h _ _ _ hc ha
    obtain ⟨_, hrest, rfl, hPs⟩ := ih (hahead.canonical hc)
    exact ⟨_, ahead_append.mpr ⟨_, hahead, hrest⟩, rfl, List.forall_mem_cons.mpr ⟨hP, hPs⟩⟩

-- ---------------------------------------------------------------------------
-- What is taken
-- ---------------------------------------------------------------------------

/-- The parser takes the tokens and gives a result with the property, wherever what
is after them lets it stop there. -/
def Takes (p : Parser α) (result : α → Prop) (tokens : List Token)
    (stop : List Lexeme → Prop) : Prop :=
  ∀ ahead rest, Ahead tokens ahead rest → stop rest → ∃ a, p ahead = .ok a rest ∧ result a

variable {result : α → Prop} {stop : List Lexeme → Prop}

theorem Takes.imp {p : Parser α} {result' : α → Prop} (h : p.Takes result tokens stop)
    (himp : ∀ a, result a → result' a) : p.Takes result' tokens stop := by
  intro ahead rest ha hs
  obtain ⟨a, hp, hr⟩ := h ahead rest ha hs
  exact ⟨a, hp, himp a hr⟩

theorem Takes.weaken {p : Parser α} {stop' : List Lexeme → Prop} (h : p.Takes result tokens stop)
    (himp : ∀ rest, stop' rest → stop rest) : p.Takes result tokens stop' :=
  fun ahead rest ha hs => h ahead rest ha (himp rest hs)

theorem takes_pure {a : α} (h : result a) : (pure a : Parser α).Takes result [] stop := by
  rintro ahead _ rfl _
  exact ⟨a, rfl, h⟩

theorem Takes.bind {p : Parser α} {f : α → Parser β} {result' : β → Prop}
    {stop' : List Lexeme → Prop} (h : p.Takes result first stop)
    (h' : ∀ a, result a → (f a).Takes result' second stop')
    (hstop : ∀ ahead rest, Ahead second ahead rest → stop' rest → stop ahead) :
    (p >>= f).Takes result' (first ++ second) stop' := by
  intro ahead rest ha hs
  obtain ⟨middle, hfirst, hsecond⟩ := ahead_append.mp ha
  obtain ⟨a, hp, hr⟩ := h _ _ hfirst (hstop _ _ hsecond hs)
  obtain ⟨b, hf, hr'⟩ := h' a hr _ _ hsecond hs
  exact ⟨b, bind_iff.mpr ⟨a, middle, hp, hf⟩, hr'⟩

theorem Takes.seq {p : Parser α} {f : α → Parser β} {result' : β → Prop}
    {stop' : List Lexeme → Prop} (h : p.Takes (· = a) first stop)
    (h' : (f a).Takes result' second stop')
    (hstop : ∀ ahead rest, Ahead second ahead rest → stop' rest → stop ahead) :
    (p >>= f).Takes result' (first ++ second) stop' := by
  refine h.bind ?_ hstop
  rintro _ rfl
  exact h'

theorem Takes.return {p : Parser α} {result' : β → Prop} (h : p.Takes result tokens stop)
    (f : α → β) (hf : ∀ a, result a → result' (f a)) :
    (p >>= fun a => pure (f a)).Takes result' tokens stop := by
  intro ahead rest ha hs
  obtain ⟨a, hp, hr⟩ := h ahead rest ha hs
  exact ⟨f a, bind_iff.mpr ⟨a, rest, hp, rfl⟩, hf a hr⟩

theorem Takes.peek {f : Option TokenKind → Parser α}
    (h : (f (some token.kind)).Takes result (token :: tokens) stop) :
    (peek >>= f).Takes result (token :: tokens) stop := by
  intro ahead rest ha hs
  obtain ⟨a, hf, hr⟩ := h ahead rest ha hs
  exact ⟨a, bind_iff.mpr ⟨_, ahead, peek_iff.mpr ⟨ha.kind?_eq.symm, rfl⟩, hf⟩, hr⟩

theorem Takes.get {f : List Lexeme → Parser α}
    (h : ∀ ahead rest, Ahead tokens ahead rest → stop rest → (f ahead).Takes result tokens stop) :
    (get >>= f).Takes result tokens stop := by
  intro ahead rest ha hs
  obtain ⟨a, hf, hr⟩ := h ahead rest ha hs ahead rest ha hs
  exact ⟨a, bind_iff.mpr ⟨_, ahead, rfl, hf⟩, hr⟩

theorem Takes.position {f : Position → Parser α} (h : ∀ start, (f start).Takes result tokens stop) :
    (position >>= f).Takes result tokens stop := by
  intro ahead rest ha hs
  obtain ⟨a, hf, hr⟩ := h _ ahead rest ha hs
  exact ⟨a, bind_iff.mpr ⟨_, ahead, rfl, hf⟩, hr⟩

theorem Takes.after {f : Position → Parser α} (token : Token)
    (h : ∀ start, (f start).Takes result tokens stop) :
    (expect token.kind >>= f).Takes result (token :: tokens) stop := by
  rintro _ rest ⟨lexeme, others, rfl, rfl, ha⟩ hs
  obtain ⟨a, hf, hr⟩ := h lexeme.position _ _ ha hs
  exact ⟨a, bind_iff.mpr ⟨_, others, expect_iff.mpr ⟨lexeme, rfl, rfl, rfl⟩, hf⟩, hr⟩

theorem Takes.eat {f : Option Position → Parser α} (token : Token)
    (h : ∀ start, (f (some start)).Takes result tokens stop) :
    (eat? token.kind >>= f).Takes result (token :: tokens) stop := by
  rintro _ rest ⟨lexeme, others, rfl, rfl, ha⟩ hs
  obtain ⟨a, hf, hr⟩ := h lexeme.position _ _ ha hs
  exact ⟨a, bind_iff.mpr ⟨_, others, eat?_iff.mpr (.inl ⟨lexeme, rfl, rfl, rfl⟩), hf⟩, hr⟩

theorem Takes.skip {f : Option Position → Parser α} {kind : TokenKind}
    (hkind : ∀ ahead rest, Ahead tokens ahead rest → stop rest → kind? ahead ≠ some kind)
    (h : (f none).Takes result tokens stop) : (eat? kind >>= f).Takes result tokens stop := by
  intro ahead rest ha hs
  obtain ⟨a, hf, hr⟩ := h _ _ ha hs
  exact ⟨a, bind_iff.mpr ⟨_, ahead, eat?_iff.mpr (.inr ⟨hkind _ _ ha hs, rfl, rfl⟩), hf⟩, hr⟩

theorem takes_accept {use? : Token → Option α} (expected : Expected) (h : use? token = some a)
    (hr : result a) : (accept use? expected).Takes result [token] stop := by
  rintro _ rest ⟨lexeme, others, rfl, rfl, rfl⟩ _
  exact ⟨a, accept_iff.mpr ⟨lexeme, rfl, h⟩, hr⟩

theorem Takes.many {continues : List Lexeme → Bool} {item : Parser α} {items : List γ}
    {tokens : γ → List Token} {result : γ → α → Prop}
    (h : ∀ c ∈ items, item.Takes (result c) (tokens c) stop)
    (hstart : ∀ c ∈ items, ∀ ahead rest, Ahead (tokens c) ahead rest →
      continues ahead = true ∧ stop ahead ∧ rest.length < ahead.length) :
    (many continues item).Takes (fun found => List.Forall₂ result items found)
      (items.flatMap tokens) fun rest => stop rest ∧ continues rest = false := by
  rintro ahead rest ha ⟨hs, hend⟩
  suffices hrepeats : ∃ found, Repeats continues item ahead found rest ∧
      List.Forall₂ result items found by
    obtain ⟨found, hfound, hr⟩ := hrepeats
    exact ⟨found, hfound.many, hr⟩
  induction items generalizing ahead with
  | nil =>
    cases ahead_nil.mp ha
    exact ⟨[], .done hend, .nil⟩
  | cons c items ih =>
    obtain ⟨hc, hcs⟩ := List.forall_mem_cons.mp h
    obtain ⟨hstartc, hstarts⟩ := List.forall_mem_cons.mp hstart
    obtain ⟨middle, hfirst, hsecond⟩ := ahead_append.mp ha
    have hmiddle : stop middle := by
      cases items with
      | nil =>
        cases ahead_nil.mp hsecond
        exact hs
      | cons next others =>
        obtain ⟨last, hnext, -⟩ := ahead_append.mp hsecond
        exact (hstarts next List.mem_cons_self _ _ hnext).2.1
    obtain ⟨hmore, -, hless⟩ := hstartc _ _ hfirst
    obtain ⟨a, ha, hr⟩ := hc _ _ hfirst hmiddle
    obtain ⟨found, hfound, hrs⟩ := ih hcs hstarts _ hsecond
    exact ⟨a :: found, .more hmore ha hless hfound, .cons hr hrs⟩

theorem Takes.manyEq {continues : List Lexeme → Bool} {item : Parser α} {items : List α}
    {tokens : α → List Token} (h : ∀ a ∈ items, item.Takes (· = a) (tokens a) stop)
    (hstart : ∀ a ∈ items, ∀ ahead rest, Ahead (tokens a) ahead rest →
      continues ahead = true ∧ stop ahead ∧ rest.length < ahead.length) :
    (Parser.many continues item).Takes (· = items) (items.flatMap tokens)
      fun rest => stop rest ∧ continues rest = false := by
  refine (Takes.many h hstart).imp fun found hfound => ?_
  rw [← List.forall₂_eq_eq_eq]
  exact hfound.flip

end Parser

end Mapsmith.Script
