import Mapsmith.Proofs.Script.Combinators
import Mapsmith.Script.Lexeme

/-!
# What the lexer reads

`Lexes` says which tokens a text has, without regard to where they stand, and
`LexemeAt` what the lexeme is that starts with a character. What the lexer reads is
canonical: a token of a kind that has one spelling is spelled that way.
-/

namespace Mapsmith.Script

-- ---------------------------------------------------------------------------
-- Classes of characters
-- ---------------------------------------------------------------------------

theorem isDigit_iff {c : Char} : c.isDigit = true ↔ 48 ≤ c.toNat ∧ c.toNat ≤ 57 :=
  Char.isDigit_iff_toNat

theorem isAlpha_iff {c : Char} : c.isAlpha = true ↔
    65 ≤ c.toNat ∧ c.toNat ≤ 90 ∨ 97 ≤ c.toNat ∧ c.toNat ≤ 122 := by
  have hranges : c.isAlpha = (decide (65 ≤ c.toNat ∧ c.toNat ≤ 90) ||
      decide (97 ≤ c.toNat) && decide (c.toNat ≤ 122)) := rfl
  simp [hranges]

theorem not_isAlpha_of_isDigit {c : Char} (h : c.isDigit = true) : c.isAlpha = false := by
  rw [Bool.eq_false_iff, ne_eq, isAlpha_iff]
  rw [isDigit_iff] at h
  omega

-- ---------------------------------------------------------------------------
-- Lexemes
-- ---------------------------------------------------------------------------

/-- The lexeme that starts with a character is of the kind and takes so many
characters of the text ahead. -/
inductive LexemeAt (first : Char) (input : List Char) : TokenKind → Nat → Prop
  | newline : first = '\n' → LexemeAt first input .newline (lineBreaks input 0)
  | string {n} : first = '"' → stringRest? input 0 = some n →
      LexemeAt first input (.literal .string) n
  | rawId {n} : first = '\'' → rawIdRest? input = some n → LexemeAt first input (.literal .rawId) n
  | word : first.isAlpha = true → LexemeAt first input
      (.ofWord (String.ofList (first :: input.take (leading isWordCharacter input))))
      (leading isWordCharacter input)
  | number {kind n} : numberRest? first input = some (kind, n) →
      LexemeAt first input (.literal kind) n
  | sign {kind n} : signRest? first input = some (kind, n) → LexemeAt first input kind n

theorem numberRest?_first (h : numberRest? first input = some found) :
    first = '$' ∨ first = '.' ∨ first.isDigit = true := by
  unfold numberRest? at h
  split at h
  · exact .inl ‹_›
  · split at h
    · exact .inr (.inl ‹_›)
    · split at h
      · cases h
      · exact .inr (.inr (by simpa using ‹¬ (!first.isDigit) = true›))

def signCharacters : List Char := ['=', '!', '<', '>', '+', '-', '*', '/', '(', ')', '[', ']', ',']

theorem signRest?_first (h : signRest? first input = some found) : first ∈ signCharacters := by
  unfold signRest? at h
  split at h <;> simp_all [signCharacters]

/-- Signs, numbers, words and what is between quotes start with characters of their own. -/
theorem first_of_sign : ∀ c ∈ signCharacters, c ≠ '\n' ∧ c ≠ '"' ∧ c ≠ '\'' ∧ c.isAlpha = false ∧
    c.isDigit = false ∧ c ≠ '$' ∧ c ≠ '.' := by
  simp [signCharacters]

theorem first_of_number (h : numberRest? first input = some found) :
    first ≠ '\n' ∧ first ≠ '"' ∧ first ≠ '\'' ∧ first.isAlpha = false := by
  obtain rfl | rfl | h := numberRest?_first h
  · decide
  · decide
  · have hother (c : Char) (hc : c.isDigit = false) : first ≠ c := by
      rintro rfl
      simp [h] at hc
    exact ⟨hother _ rfl, hother _ rfl, hother _ rfl, not_isAlpha_of_isDigit h⟩

theorem lexemeRest?_iff : lexemeRest? first input = some (kind, n) ↔
    LexemeAt first input kind n := by
  unfold lexemeRest?
  constructor
  · intro h
    split at h
    · cases h
      exact .newline ‹_›
    · split at h
      · obtain ⟨_, hn, heq⟩ := Option.map_eq_some_iff.mp h
        cases heq
        exact .string ‹_› hn
      · split at h
        · obtain ⟨_, hn, heq⟩ := Option.map_eq_some_iff.mp h
          cases heq
          exact .rawId ‹_› hn
        · split at h
          · cases h
            exact .word ‹_›
          · split at h
            · cases h
              exact .number ‹_›
            · exact .sign h
  · intro h
    cases h with
    | newline h => rw [if_pos h]
    | string h hn => subst h; simp [hn]
    | rawId h hn => subst h; simp [hn]
    | word h =>
      have hother (c : Char) (hc : c.isAlpha = false) : first ≠ c := by
        rintro rfl
        simp [h] at hc
      rw [if_neg (hother _ rfl), if_neg (hother _ rfl), if_neg (hother _ rfl), if_pos h]
    | number h =>
      obtain ⟨hnewline, hquote, hcode, halpha⟩ := first_of_number h
      simp [hnewline, hquote, hcode, halpha, h]
    | sign h =>
      obtain ⟨hnewline, hquote, hcode, halpha, hdigit, hhex, hpoint⟩ :=
        first_of_sign first (signRest?_first h)
      simp [hnewline, hquote, hcode, halpha, numberRest?, hhex, hpoint, hdigit, h]

-- ---------------------------------------------------------------------------
-- Texts
-- ---------------------------------------------------------------------------

inductive Lexes : List Char → List Token → Prop
  | done {input} : input.drop (gapLength input) = [] → Lexes input []
  | more {input first rest kind n tokens} : input.drop (gapLength input) = first :: rest →
      LexemeAt first rest kind n → Lexes (rest.drop n) tokens →
      Lexes input (⟨kind, tokenText kind (first :: rest.take n)⟩ :: tokens)

theorem lexes_of_lexemesFrom (h : lexemesFrom position input found = .ok all) :
    ∃ others, all = found.reverse ++ others ∧ Lexes input (others.map Lexeme.token) := by
  fun_induction lexemesFrom position input found with
  | case1 position input found gap hdrop =>
    cases h
    exact ⟨[], by simp, .done hdrop⟩
  | case2 => cases h
  | case3 position input found gap start first rest hdrop kind n hlexeme spelling ih =>
    obtain ⟨others, rfl, hothers⟩ := ih h
    exact ⟨⟨⟨kind, tokenText kind spelling⟩, start⟩ :: others, by simp,
      .more hdrop (lexemeRest?_iff.mp hlexeme) hothers⟩

theorem Lexes.lexemesFrom (h : Lexes input tokens) (position : Position) (found : List Lexeme) :
    ∃ others, lexemesFrom position input found = .ok (found.reverse ++ others) ∧
      others.map Lexeme.token = tokens := by
  fun_induction Script.lexemesFrom position input found generalizing tokens with
  | case1 position input found gap =>
    rename_i hdrop
    cases h with
    | done => exact ⟨[], by simp, rfl⟩
    | more hdrop' => cases hdrop.symm.trans hdrop'
  | case2 position input found gap start first rest hdrop =>
    rename_i hnone
    cases h with
    | done hdrop' => cases hdrop.symm.trans hdrop'
    | more hdrop' hlexeme =>
      cases hdrop.symm.trans hdrop'
      cases hnone.symm.trans (lexemeRest?_iff.mpr hlexeme)
  | case3 position input found gap start first rest hdrop kind n hlexeme spelling =>
    rename_i ih
    cases h with
    | done hdrop' => cases hdrop.symm.trans hdrop'
    | more hdrop' hlexeme' hrest =>
      cases hdrop.symm.trans hdrop'
      cases hlexeme.symm.trans (lexemeRest?_iff.mpr hlexeme')
      obtain ⟨others, hothers, rfl⟩ := ih hrest
      exact ⟨⟨⟨kind, tokenText kind spelling⟩, start⟩ :: others, by rw [hothers]; simp, rfl⟩

theorem lexes_iff : Lexes input.toList tokens ↔
    ∃ all, lexemes input = .ok all ∧ all.map Lexeme.token = tokens := by
  constructor
  · intro h
    exact h.lexemesFrom .start []
  · rintro ⟨all, hall, rfl⟩
    obtain ⟨others, rfl, h⟩ := lexes_of_lexemesFrom hall
    exact h

-- ---------------------------------------------------------------------------
-- Canonical tokens
-- ---------------------------------------------------------------------------

/-- The token has been read somewhere. -/
def Token.Lexed (token : Token) : Prop := ∃ first input n, LexemeAt first input token.kind n ∧
  token.text = tokenText token.kind (first :: input.take n)

theorem Lexes.lexed (h : Lexes input tokens) : ∀ token ∈ tokens, token.Lexed := by
  induction h with
  | done => simp
  | more _ hlexeme _ ih => exact List.forall_mem_cons.mpr ⟨⟨_, _, _, hlexeme, rfl⟩, ih⟩

/-- The signs that are one character, with what each is read as. -/
def shortSigns : List (Char × TokenKind) :=
  [('=', .assign), ('<', .operator .less), ('>', .operator .greater), ('+', .operator .plus),
    ('-', .operator .minus), ('*', .operator .times), ('/', .operator .divide),
    ('(', .delimiter .openParen), (')', .delimiter .closeParen), ('[', .delimiter .openBracket),
    (']', .delimiter .closeBracket), (',', .delimiter .comma)]

/-- The signs of two characters by the first of them. The second is always `=`. -/
def longSigns : List (Char × TokenKind) :=
  [('=', .operator .equal), ('!', .operator .notEqual), ('<', .operator .atMost),
    ('>', .operator .atLeast)]

theorem signRest?_cases (h : signRest? first input = some (kind, n)) :
    (∃ others, input = '=' :: others ∧ (first, kind) ∈ longSigns ∧ n = 1) ∨
      ((first, kind) ∈ shortSigns ∧ n = 0) := by
  by_cases heq : input.head? = some '='
  · obtain ⟨others, rfl⟩ := List.head?_eq_some_iff.mp heq
    unfold signRest? at h
    split at h <;> simp_all [longSigns, shortSigns]
  · unfold signRest? at h
    split at h <;> simp_all [longSigns, shortSigns]

theorem name_of_longSigns : ∀ sign ∈ longSigns, sign.2.name = String.ofList [sign.1, '='] := by
  decide

theorem name_of_shortSigns : ∀ sign ∈ shortSigns, sign.2.name = String.ofList [sign.1] := by
  decide

theorem isFixed_of_signs :
    ∀ sign ∈ longSigns ++ shortSigns, sign.2.IsFixed ∧ sign.2 ≠ .newline := by
  simp [longSigns, shortSigns, TokenKind.IsFixed]

theorem signRest?_name (h : signRest? first input = some (kind, n)) :
    kind.name = String.ofList (first :: input.take n) ∧ kind.IsFixed ∧ kind ≠ .newline := by
  obtain ⟨others, rfl, hlong, rfl⟩ | ⟨hshort, rfl⟩ := signRest?_cases h
  · exact ⟨name_of_longSigns _ hlong, isFixed_of_signs _ (List.mem_append_left _ hlong)⟩
  · exact ⟨name_of_shortSigns _ hshort, isFixed_of_signs _ (List.mem_append_right _ hshort)⟩

def TokenKind.isWord : TokenKind → Bool
  | .builtin _ | .keyword _ | .identifier | .literal .boolean | .literal .null => true
  | .operator .and | .operator .or | .operator .not => true
  | _ => false

theorem ofWord?_cases (h : TokenKind.ofWord? word = some kind) :
    kind = .literal .boolean ∨ kind ∈ TokenKind.words ∧ kind.name = word := by
  unfold TokenKind.ofWord? at h
  split at h
  · cases h
    exact .inl rfl
  · exact .inr ⟨List.mem_of_find?_eq_some h, by simpa using List.find?_some h⟩

theorem ofWord_isWord (word : String) : (TokenKind.ofWord word).isWord = true := by
  have hwords : ∀ kind ∈ TokenKind.words, kind.isWord = true := by decide
  unfold TokenKind.ofWord
  cases hword : TokenKind.ofWord? word with
  | none => rfl
  | some kind =>
    obtain rfl | ⟨hmem, -⟩ := ofWord?_cases hword
    · rfl
    · exact hwords kind hmem

theorem ofWord_ne_newline (word : String) : TokenKind.ofWord word ≠ .newline := by
  intro h
  have hword := ofWord_isWord word
  rw [h] at hword
  cases hword

theorem ofWord_canonical (word : String) : Token.Canonical ⟨.ofWord word, word⟩ := by
  have hwords : ∀ kind ∈ TokenKind.words, Token.Canonical ⟨kind, kind.name⟩ := by
    simp [TokenKind.words, BuiltinType.all, Keyword.all, Token.Canonical]
  unfold TokenKind.ofWord
  cases hword : TokenKind.ofWord? word with
  | none => exact hword
  | some kind =>
    obtain rfl | ⟨hmem, rfl⟩ := ofWord?_cases hword
    · trivial
    · exact hwords kind hmem

theorem LexemeAt.canonical (h : LexemeAt first input kind n) :
    Token.Canonical ⟨kind, tokenText kind (first :: input.take n)⟩ := by
  cases h with
  | newline _ => rfl
  | string _ _ => trivial
  | rawId _ _ => trivial
  | number _ => trivial
  | word _ =>
    rw [tokenText, if_neg (ofWord_ne_newline _)]
    exact ofWord_canonical _
  | sign hsign =>
    obtain ⟨hname, hfixed, hnewline⟩ := signRest?_name hsign
    rw [tokenText, if_neg hnewline, ← hname]
    cases kind with
    | identifier | literal => exact hfixed.elim
    | newline => exact absurd rfl hnewline
    | _ => rfl

theorem Token.Lexed.canonical {token : Token} (h : token.Lexed) : token.Canonical := by
  obtain ⟨first, ahead, n, hlexeme, htext⟩ := h
  have hcanonical := hlexeme.canonical
  rwa [← htext] at hcanonical

theorem canonical_of_lexemes (h : lexemes input = .ok all) : Canonical all := by
  have hlexes := lexes_iff.mpr ⟨all, h, rfl⟩
  exact fun lexeme hl => (hlexes.lexed _ (List.mem_map_of_mem hl)).canonical

end Mapsmith.Script
