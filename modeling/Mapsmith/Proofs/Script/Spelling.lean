import Mapsmith.Proofs.Script.Lexing

/-!
# Where lexemes end

`LexemeAt.exists_spelling`: a lexeme that has been read somewhere is read again wherever it
stands before text that does not go on with it. Only the next character matters: words and
numbers go on with the characters of words and the point, and a few signs with another sign.
-/

namespace Mapsmith.Script

-- ---------------------------------------------------------------------------
-- Runs of characters
-- ---------------------------------------------------------------------------

/-- The text, if there is any, starts with no character of a class. -/
def StartsOff (p : Char → Bool) (input : List Char) : Prop := ∀ c ∈ input.head?, p c = false

theorem StartsOff.imp (h : StartsOff p input) (himp : ∀ c, q c = true → p c = true) :
    StartsOff q input := by
  intro c hc
  rw [Bool.eq_false_iff]
  intro hq
  exact absurd (himp c hq) (Bool.eq_false_iff.mp (h c hc))

theorem startsOff_nil : StartsOff p [] := nofun

theorem StartsOff.ne_cons (h : StartsOff p (c :: input)) : p c = false := h c rfl

theorem takeWhile_append (hall : ∀ c ∈ more, p c = true) (hrest : StartsOff p rest) :
    (more ++ rest).takeWhile p = more := by
  rw [List.takeWhile_append_of_pos hall]
  cases rest with
  | nil => simp
  | cons c rest => simp [hrest.ne_cons]

theorem leading_append (hall : ∀ c ∈ more, p c = true) (hrest : StartsOff p rest) :
    leading p (more ++ rest) = more.length := by
  rw [leading, takeWhile_append hall hrest]

theorem exists_leading (p : Char → Bool) (input : List Char) : ∃ more rest, input = more ++ rest ∧
    (∀ c ∈ more, p c = true) ∧ StartsOff p rest := by
  induction input with
  | nil => exact ⟨[], [], rfl, nofun, startsOff_nil⟩
  | cons c input ih =>
    by_cases hc : p c = true
    · obtain ⟨more, rest, rfl, hall, hrest⟩ := ih
      exact ⟨c :: more, rest, rfl, List.forall_mem_cons.mpr ⟨hc, hall⟩, hrest⟩
    · refine ⟨[], c :: input, rfl, nofun, ?_⟩
      rintro _ ⟨⟩
      exact Bool.eq_false_iff.mpr hc

-- ---------------------------------------------------------------------------
-- Numbers
-- ---------------------------------------------------------------------------

theorem realRest?_append (hwhole : ∀ c ∈ whole, c.isDigit = true)
    (hfraction : ∀ c ∈ fraction, c.isDigit = true)
    (hrest : StartsOff Char.isDigit rest) :
    realRest? (whole ++ '.' :: (fraction ++ rest)) = some (whole.length + 1 + fraction.length) := by
  have hpoint : StartsOff Char.isDigit ('.' :: (fraction ++ rest)) := by
    rintro _ ⟨⟩
    rfl
  simp only [realRest?, leading_append hwhole hpoint, List.drop_left,
    leading_append hfraction hrest]

theorem realRest?_eq_none (hwhole : ∀ c ∈ whole, c.isDigit = true)
    (hrest : StartsOff (fun c => c.isDigit || c == '.') rest) :
    realRest? (whole ++ rest) = none := by
  have hdigit : StartsOff Char.isDigit rest := hrest.imp (by simp +contextual)
  simp only [realRest?, leading_append hwhole hdigit, List.drop_left]
  split
  · have hpoint := hrest.ne_cons
    simp at hpoint
  · rfl

theorem exists_real (h : realRest? input = some n) : ∃ whole fraction others,
    input = (whole ++ '.' :: fraction) ++ others ∧ (∀ c ∈ whole, c.isDigit = true) ∧
      (whole ++ '.' :: fraction).length = n ∧ ∀ rest, StartsOff Char.isDigit rest →
        realRest? ((whole ++ '.' :: fraction) ++ rest) = some n := by
  obtain ⟨whole, others, rfl, hwhole, hothers⟩ := exists_leading Char.isDigit input
  simp only [realRest?, leading_append hwhole hothers, List.drop_left] at h
  split at h
  · rename_i others
    obtain ⟨fraction, rest, rfl, hfraction, hrest⟩ := exists_leading Char.isDigit others
    rw [leading_append hfraction hrest] at h
    cases h
    refine ⟨whole, fraction, rest, by simp, hwhole, by simp; omega, ?_⟩
    intro rest hrest
    rw [List.append_assoc, List.cons_append, realRest?_append hwhole hfraction hrest]
  · cases h

theorem isHexDigit_iff {c : Char} : isHexDigit c = true ↔
    c.isDigit = true ∨ 97 ≤ c.toNat ∧ c.toNat ≤ 102 ∨ 65 ≤ c.toNat ∧ c.toNat ≤ 70 := by
  simp only [isHexDigit, Bool.or_eq_true, Bool.and_eq_true, decide_eq_true_eq, Char.le_def,
    UInt32.le_iff_toNat_le, or_assoc]
  rfl

theorem isOctalDigit_iff {c : Char} : isOctalDigit c = true ↔ 48 ≤ c.toNat ∧ c.toNat ≤ 55 := by
  simp only [isOctalDigit, Bool.and_eq_true, decide_eq_true_eq, Char.le_def, UInt32.le_iff_toNat_le]
  rfl

theorem isWordCharacter_of_isDigit {c : Char} (h : c.isDigit = true) :
    isWordCharacter c = true := by
  simp [isWordCharacter, Char.isAlphanum, h]

theorem isWordCharacter_of_isHexDigit {c : Char} (h : isHexDigit c = true) :
    isWordCharacter c = true := by
  rw [isHexDigit_iff] at h
  simp only [isWordCharacter, Char.isAlphanum, Bool.or_eq_true, isAlpha_iff, isDigit_iff] at h ⊢
  omega

theorem isDigit_of_isOctalDigit {c : Char} (h : isOctalDigit c = true) : c.isDigit = true := by
  rw [isOctalDigit_iff] at h
  rw [isDigit_iff]
  omega

def goesOnNumber (c : Char) : Bool := isWordCharacter c || c == '.'

theorem exists_hexDigits (h : hexDigits? input = some n) : ∃ more others, input = more ++ others ∧
    more.length = n ∧ ∀ rest, StartsOff isHexDigit rest → hexDigits? (more ++ rest) = some n := by
  obtain ⟨more, others, rfl, hall, hothers⟩ := exists_leading isHexDigit input
  rw [hexDigits?, leading_append hall hothers] at h
  split at h
  · cases h
  · rename_i hne
    cases h
    exact ⟨more, others, rfl, rfl, fun rest hrest => by
      rw [hexDigits?, leading_append hall hrest, if_neg hne]⟩

theorem not_hexMark_of_isDigit {c : Char} (h : c.isDigit = true) :
    (c == 'x' || c == 'X') = false := by
  rw [Bool.eq_false_iff]
  intro hc
  obtain rfl | rfl : c = 'x' ∨ c = 'X' := by simpa using hc
  · simp at h
  · simp at h

theorem hexRest?_eq_none (h : StartsOff (fun c => c == 'x' || c == 'X') input) :
    hexRest? input = none := by
  unfold hexRest?
  split
  · exact absurd h.ne_cons (by simp)
  · exact absurd h.ne_cons (by simp)
  · rfl

theorem exists_hex (h : hexRest? input = some n) : ∃ more others, input = more ++ others ∧
    more.length = n ∧ ∀ rest, StartsOff isHexDigit rest → hexRest? (more ++ rest) = some n := by
  unfold hexRest? at h
  split at h
  · obtain ⟨m, hm, rfl⟩ := Option.map_eq_some_iff.mp h
    obtain ⟨more, others, rfl, rfl, hagain⟩ := exists_hexDigits hm
    exact ⟨'x' :: more, others, rfl, rfl, fun rest hrest => by simp [hexRest?, hagain rest hrest]⟩
  · obtain ⟨m, hm, rfl⟩ := Option.map_eq_some_iff.mp h
    obtain ⟨more, others, rfl, rfl, hagain⟩ := exists_hexDigits hm
    exact ⟨'X' :: more, others, rfl, rfl, fun rest hrest => by simp [hexRest?, hagain rest hrest]⟩
  · cases h

theorem numberRest?_zero (input : List Char) : numberRest? '0' input =
    match hexRest? input, realRest? input with
    | some rest, _ => some (.hexadecimal, rest)
    | none, some rest => some (.real, rest)
    | none, none =>
      if leading isOctalDigit input = 0 then some (.integer, 0)
      else some (.octal, leading isOctalDigit input) := rfl

theorem numberRest?_digit (h : first.isDigit = true) (hne : first ≠ '0') (input : List Char) :
    numberRest? first input =
      match realRest? input with
      | some rest => some (.real, rest)
      | none => some (.integer, leading Char.isDigit input) := by
  have hhex : first ≠ '$' := by
    rintro rfl
    simp at h
  have hpoint : first ≠ '.' := by
    rintro rfl
    simp at h
  exact (if_neg hhex).trans ((if_neg hpoint).trans ((if_neg (by simp [h])).trans (if_pos hne)))

theorem StartsOff.isHexDigit (h : StartsOff goesOnNumber rest) : StartsOff isHexDigit rest :=
  h.imp fun c hc => by simp [goesOnNumber, isWordCharacter_of_isHexDigit hc]

theorem StartsOff.isDigit (h : StartsOff goesOnNumber rest) : StartsOff Char.isDigit rest :=
  h.imp fun c hc => by simp [goesOnNumber, isWordCharacter_of_isDigit hc]

theorem StartsOff.isOctalDigit (h : StartsOff goesOnNumber rest) : StartsOff isOctalDigit rest :=
  h.isDigit.imp fun _ => isDigit_of_isOctalDigit

theorem StartsOff.hexMark (h : StartsOff goesOnNumber rest) :
    StartsOff (fun c => c == 'x' || c == 'X') rest := by
  refine h.imp fun c hc => ?_
  obtain rfl | rfl : c = 'x' ∨ c = 'X' := by simpa using hc
  · decide
  · decide

theorem StartsOff.point (h : StartsOff goesOnNumber rest) :
    StartsOff (fun c => c.isDigit || c == '.') rest := by
  refine h.imp fun c hc => ?_
  obtain hc | hc := Bool.or_eq_true_iff.mp hc
  · simp [goesOnNumber, isWordCharacter_of_isDigit hc]
  · simp [goesOnNumber, hc]

theorem exists_zero (h : numberRest? '0' input = some (kind, n)) : ∃ more others,
    input = more ++ others ∧ more.length = n ∧
      ∀ rest, StartsOff goesOnNumber rest → numberRest? '0' (more ++ rest) = some (kind, n) := by
  simp only [numberRest?_zero] at h ⊢
  cases hhex : hexRest? input with
  | some m =>
    rw [hhex] at h
    cases h
    obtain ⟨more, others, rfl, hlength, hagain⟩ := exists_hex hhex
    exact ⟨more, others, rfl, hlength, fun rest hrest => by rw [hagain rest hrest.isHexDigit]⟩
  | none =>
    cases hreal : realRest? input with
    | some m =>
      rw [hhex, hreal] at h
      cases h
      obtain ⟨whole, fraction, others, rfl, hwhole, hlength, hagain⟩ := exists_real hreal
      refine ⟨_, others, rfl, hlength, fun rest hrest => ?_⟩
      have hnone : hexRest? ((whole ++ '.' :: fraction) ++ rest) = none := by
        refine hexRest?_eq_none ?_
        cases whole with
        | nil =>
          rintro _ ⟨⟩
          rfl
        | cons c whole =>
          rintro _ ⟨⟩
          exact not_hexMark_of_isDigit (hwhole c List.mem_cons_self)
      rw [hnone, hagain rest hrest.isDigit]
    | none =>
      rw [hhex, hreal] at h
      obtain ⟨more, others, rfl, hall, hothers⟩ := exists_leading isOctalDigit input
      rw [leading_append hall hothers] at h
      have hwhole (c : Char) (hc : c ∈ more) : c.isDigit = true :=
        isDigit_of_isOctalDigit (hall c hc)
      have hlength : more.length = n := by
        simp only at h
        split at h
        · cases h
          assumption
        · cases h
          rfl
      refine ⟨more, others, rfl, hlength, fun rest hrest => ?_⟩
      have hnone : hexRest? (more ++ rest) = none := by
        refine hexRest?_eq_none ?_
        cases more with
        | nil => exact hrest.hexMark
        | cons c more =>
          rintro _ ⟨⟩
          exact not_hexMark_of_isDigit (hwhole c List.mem_cons_self)
      rw [hnone, realRest?_eq_none hwhole hrest.point, leading_append hall hrest.isOctalDigit]
      exact h

/-- The characters of a number are there again before any text that does not go on
with it. -/
theorem exists_number (h : numberRest? first input = some (kind, n)) : ∃ more others,
    input = more ++ others ∧ more.length = n ∧
      ∀ rest, StartsOff goesOnNumber rest → numberRest? first (more ++ rest) = some (kind, n) := by
  obtain rfl | rfl | hfirst := numberRest?_first h
  · obtain ⟨m, hm, heq⟩ := Option.map_eq_some_iff.mp h
    cases heq
    obtain ⟨more, others, rfl, hlength, hagain⟩ := exists_hexDigits hm
    refine ⟨more, others, rfl, hlength, fun rest hrest => ?_⟩
    exact Option.map_eq_some_iff.mpr ⟨_, hagain rest hrest.isHexDigit, rfl⟩
  · obtain ⟨more, others, rfl, hall, hothers⟩ := exists_leading Char.isDigit input
    have hpoint (input : List Char) :
        numberRest? '.' input = if leading Char.isDigit input = 0 then none
        else some (.real, leading Char.isDigit input) := rfl
    rw [hpoint, leading_append hall hothers] at h
    split at h
    · cases h
    · rename_i hne
      cases h
      refine ⟨more, others, rfl, rfl, fun rest hrest => ?_⟩
      rw [hpoint, leading_append hall hrest.isDigit, if_neg hne]
  · by_cases hzero : first = '0'
    · subst hzero
      exact exists_zero h
    · simp only [numberRest?_digit hfirst hzero] at h ⊢
      cases hreal : realRest? input with
      | some m =>
        rw [hreal] at h
        cases h
        obtain ⟨whole, fraction, others, rfl, -, hlength, hagain⟩ := exists_real hreal
        exact ⟨_, others, rfl, hlength, fun rest hrest => by rw [hagain rest hrest.isDigit]⟩
      | none =>
        rw [hreal] at h
        obtain ⟨more, others, rfl, hall, hothers⟩ := exists_leading Char.isDigit input
        rw [leading_append hall hothers] at h
        cases h
        refine ⟨more, others, rfl, rfl, fun rest hrest => ?_⟩
        rw [realRest?_eq_none hall hrest.point, leading_append hall hrest.isDigit]

-- ---------------------------------------------------------------------------
-- Quoted lexemes, words and signs
-- ---------------------------------------------------------------------------

theorem exists_string (h : stringRest? input taken = some n) :
    ∃ more others, input = more ++ others ∧
    more ≠ [] ∧ taken + more.length = n ∧ ∀ rest, stringRest? (more ++ rest) taken = some n := by
  fun_induction stringRest? input taken with
  | case1 => cases h
  | case2 others taken =>
    cases h
    exact ⟨['"'], others, rfl, nofun, rfl, fun rest => rfl⟩
  | case3 others taken ih | case4 others taken ih =>
    obtain ⟨more, others, rfl, -, rfl, hagain⟩ := ih h
    exact ⟨'\\' :: _ :: more, others, rfl, nofun, by simp; omega, fun rest => hagain rest⟩
  | case5 c others taken hquote hescape hescape' ih =>
    obtain ⟨more, others, rfl, hne, rfl, hagain⟩ := ih h
    refine ⟨c :: more, others, rfl, nofun, by simp; omega, fun rest => ?_⟩
    obtain ⟨d, more, rfl⟩ := List.exists_cons_of_ne_nil hne
    rw [List.cons_append, stringRest?, hagain]
    · exact hquote
    · rintro _ rfl ⟨⟩
      exact hescape _ rfl rfl
    · rintro _ rfl ⟨⟩
      exact hescape' _ rfl rfl

theorem exists_rawId (h : rawIdRest? input = some n) : ∃ more others, input = more ++ others ∧
    more.length = n ∧ ∀ rest, rawIdRest? (more ++ rest) = some n := by
  obtain ⟨code, others, rfl, hall, hothers⟩ := exists_leading (· != '\'') input
  simp only [rawIdRest?, takeWhile_append hall hothers] at h
  split at h
  · cases h
    cases others with
    | nil => simp at *
    | cons quote others =>
      obtain rfl : quote = '\'' := by simpa using hothers.ne_cons
      refine ⟨code ++ ['\''], others, by simp, by simp, fun rest => ?_⟩
      have hquote : StartsOff (· != '\'') ('\'' :: rest) := by
        rintro _ ⟨⟩
        rfl
      rw [List.append_assoc]
      simp only [rawIdRest?, List.singleton_append, takeWhile_append hall hquote]
      simp
  · cases h

def TokenKind.goesOn (kind : TokenKind) (c : Char) : Bool :=
  match kind with
  | .operator .divide => c == '/'
  | .operator .less | .operator .greater | .assign => c == '='
  | .literal .string | .literal .rawId => false
  | .literal _ => goesOnNumber c
  | kind => kind.isWord && goesOnNumber c

theorem signRest?_of_longSigns :
    ∀ sign ∈ longSigns, ∀ rest, signRest? sign.1 ('=' :: rest) = some (sign.2, 1) := by
  simp [longSigns, signRest?]

/-- Only the signs that a second character may follow look at what comes next. -/
theorem signRest?_of_shortSigns :
    ∀ sign ∈ shortSigns, ∀ rest, StartsOff sign.2.goesOn rest →
      signRest? sign.1 rest = some (sign.2, 0) := by
  have hne (rest : List Char) (hrest : StartsOff (· == '=') rest) : ¬ rest.head? = some '=' :=
    fun heq => absurd (hrest _ heq) (by simp)
  simpa [shortSigns, signRest?] using ⟨hne, hne, hne⟩

theorem exists_sign (h : signRest? first input = some (kind, n)) : ∃ more others,
    input = more ++ others ∧ more.length = n ∧
      ∀ rest, StartsOff kind.goesOn rest → signRest? first (more ++ rest) = some (kind, n) := by
  obtain ⟨others, rfl, hlong, rfl⟩ | ⟨hshort, rfl⟩ := signRest?_cases h
  · exact ⟨['='], others, rfl, rfl, fun rest _ => signRest?_of_longSigns _ hlong rest⟩
  · exact ⟨[], input, rfl, rfl, signRest?_of_shortSigns _ hshort⟩

theorem goesOn_of_isWord {kind : TokenKind} (h : kind.isWord = true) (c : Char) :
    kind.goesOn c = goesOnNumber c := by
  cases kind with
  | literal kind => cases kind <;> first | rfl | cases h
  | operator op => cases op <;> first | rfl | cases h
  | builtin | keyword | identifier => rfl
  | assign | delimiter | newline => cases h

theorem goesOn_of_number (h : numberRest? first input = some (kind, n)) (c : Char) :
    (TokenKind.literal kind).goesOn c = goesOnNumber c := by
  have hkind : kind ≠ .string ∧ kind ≠ .rawId := by
    unfold numberRest? at h
    split at h
    · obtain ⟨_, -, ⟨⟩⟩ := Option.map_eq_some_iff.mp h
      decide
    · repeat' split at h
      all_goals cases h <;> decide
  cases kind with
  | string => exact absurd rfl hkind.1
  | rawId => exact absurd rfl hkind.2
  | _ => rfl

/-- The characters of a lexeme are there again before any text that does not go on
with it. A line break takes in the blank lines after it and is left out. -/
theorem LexemeAt.exists_spelling (h : LexemeAt first input kind n) (hne : kind ≠ .newline) :
    ∃ more others, input = more ++ others ∧ more.length = n ∧
      ∀ rest, StartsOff kind.goesOn rest → LexemeAt first (more ++ rest) kind n := by
  cases h with
  | newline => exact absurd rfl hne
  | string hfirst hn =>
    obtain ⟨more, others, rfl, -, rfl, hagain⟩ := exists_string hn
    exact ⟨more, others, rfl, by simp, fun rest _ => .string hfirst (hagain rest)⟩
  | rawId hfirst hn =>
    obtain ⟨more, others, rfl, rfl, hagain⟩ := exists_rawId hn
    exact ⟨more, others, rfl, rfl, fun rest _ => .rawId hfirst (hagain rest)⟩
  | word hfirst =>
    obtain ⟨more, others, rfl, hall, hothers⟩ := exists_leading isWordCharacter input
    rw [leading_append hall hothers, List.take_left]
    refine ⟨more, others, rfl, rfl, fun rest hrest => ?_⟩
    have hword : StartsOff isWordCharacter rest := hrest.imp fun c hc => by
      rw [goesOn_of_isWord (ofWord_isWord _), goesOnNumber, hc, Bool.true_or]
    have hagain : LexemeAt first (more ++ rest) _ _ := .word hfirst
    rwa [leading_append hall hword, List.take_left] at hagain
  | number hn =>
    obtain ⟨more, others, rfl, rfl, hagain⟩ := exists_number hn
    refine ⟨more, others, rfl, rfl, fun rest hrest => .number (hagain rest (hrest.imp ?_))⟩
    intro c hc
    rwa [goesOn_of_number hn]
  | sign hn =>
    obtain ⟨more, others, rfl, rfl, hagain⟩ := exists_sign hn
    exact ⟨more, others, rfl, rfl, fun rest hrest => .sign (hagain rest hrest)⟩

-- ---------------------------------------------------------------------------
-- Tokens before text
-- ---------------------------------------------------------------------------

theorem LexemeAt.unique (h : LexemeAt first input kind n) (h' : LexemeAt first input kind' m) :
    kind = kind' ∧ n = m := by
  have heq := (lexemeRest?_iff.mpr h).symm.trans (lexemeRest?_iff.mpr h')
  simpa using heq

theorem LexemeAt.not_blank (h : LexemeAt first input kind n) : isBlank first = false := by
  rw [Bool.eq_false_iff]
  intro hblank
  have hnone : lexemeRest? first input = none := by
    simp only [isBlank, Bool.or_eq_true, decide_eq_true_eq] at hblank
    obtain ((rfl | rfl) | rfl) | rfl := hblank <;> rfl
  rw [lexemeRest?_iff.mpr h] at hnone
  cases hnone

theorem gapLength_eq_zero (h : LexemeAt first (more ++ rest) kind more.length)
    (hrest : StartsOff kind.goesOn rest) : gapLength (first :: (more ++ rest)) = 0 := by
  have hcomment : commentLength (first :: (more ++ rest)) = 0 := by
    unfold commentLength
    split
    · rename_i others heq
      obtain ⟨rfl, heq⟩ := List.cons.inj heq
      have hdivide : lexemeRest? '/' (more ++ rest) = some (.operator .divide, 0) := rfl
      obtain ⟨rfl, hlength⟩ := h.unique (lexemeRest?_iff.mp hdivide)
      rw [List.length_eq_zero_iff.mp hlength, List.nil_append] at heq
      obtain ⟨-, rfl⟩ := List.cons.inj heq
      cases hrest.ne_cons
    · rfl
  simp [gapLength, h.not_blank, hcomment]

theorem Lexes.cons {token : Token} (ht : token.Lexed) (hne : token.kind ≠ .newline)
    (hrest : StartsOff token.kind.goesOn rest) (h : Lexes rest tokens) :
    Lexes (token.text.toList ++ rest) (token :: tokens) := by
  obtain ⟨first, input, n, hlexeme, htext⟩ := ht
  obtain ⟨more, others, rfl, rfl, hagain⟩ := hlexeme.exists_spelling hne
  rw [tokenText, if_neg hne, List.take_left] at htext
  have hlexeme := hagain rest hrest
  have hgap := gapLength_eq_zero hlexeme hrest
  have hspelled :
      token = ⟨token.kind, tokenText token.kind (first :: (more ++ rest).take more.length)⟩ := by
    rw [tokenText, if_neg hne, List.take_left, ← htext]
  rw [htext, String.toList_ofList, hspelled]
  refine .more (by rw [List.cons_append, hgap]; rfl) hlexeme ?_
  rwa [List.drop_left]

theorem Lexes.blanks {blanks : List Char} (hblanks : ∀ c ∈ blanks, isBlank c = true)
    (h : Lexes input tokens) : Lexes (blanks ++ input) tokens := by
  have hgap : gapLength (blanks ++ input) = blanks.length + gapLength input := by
    rw [gapLength, List.takeWhile_append_of_pos hblanks, List.length_append,
      List.drop_length_add_append, Nat.add_assoc]
    rfl
  have hdrop : (blanks ++ input).drop (gapLength (blanks ++ input)) =
      input.drop (gapLength input) := by
    rw [hgap, List.drop_length_add_append]
  cases h with
  | done hnil => exact .done (hdrop.trans hnil)
  | more hcons hlexeme hrest => exact .more (hdrop.trans hcons) hlexeme hrest

theorem lineBreaks_eq_zero (h : Lexes input tokens)
    (hne : ∀ token ∈ tokens.head?, token.kind ≠ .newline) : lineBreaks input 0 = 0 := by
  have hdrop (rest : List Char) : input.drop (gapLength input) ≠ '\n' :: rest := by
    intro hcons
    cases h with
    | done hnil => cases hnil.symm.trans hcons
    | more hcons' hlexeme _ =>
      cases hcons'.symm.trans hcons
      exact hne _ rfl (hlexeme.unique (.newline rfl)).1
  rw [lineBreaks]
  split
  · rename_i rest heq
    exact absurd heq (hdrop rest)
  · rfl

/-- A line break is read before a text that starts with another token. -/
theorem Lexes.newline (h : Lexes input tokens)
    (hne : ∀ token ∈ tokens.head?, token.kind ≠ .newline) :
    Lexes ('\n' :: input) (.newline :: tokens) := by
  have hlexeme : LexemeAt '\n' input .newline (lineBreaks input 0) := .newline rfl
  rw [lineBreaks_eq_zero h hne] at hlexeme
  exact .more rfl hlexeme h

end Mapsmith.Script
