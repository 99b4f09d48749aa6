import Mathlib.Data.List.Chain
import Mapsmith.Proofs.Script.Spelling

/-!
# What is left without comments

`Lexes.leaves`: the lexer passes over a text stretch by stretch: it drops the comments in gaps
and in runs of line breaks, and the rest of the text is blanks, line breaks and other lexemes.
A text from which comments are deleted has the tokens that it had before. No lexeme changes by
it, because all that a lexeme looks for behind itself are characters that stand in front of a
comment as well as of what is left there.
-/

namespace Mapsmith.Script

/-- A stretch of a text: a comment that the lexer passes over, or what is not one. -/
inductive Stretch where
  | code (chars : List Char)
  | comment (chars : List Char)
  deriving DecidableEq

namespace Stretch

def chars : Stretch → List Char
  | .code chars | .comment chars => chars

def isCode : Stretch → Bool
  | .code _ => true
  | .comment _ => false

def text (stretches : List Stretch) : List Char := stretches.flatMap chars

@[simp] theorem text_nil : text [] = [] := rfl

@[simp] theorem text_cons (stretch : Stretch) (rest : List Stretch) :
    text (stretch :: rest) = stretch.chars ++ text rest := rfl

@[simp] theorem text_append (stretches rest : List Stretch) :
    text (stretches ++ rest) = text stretches ++ text rest := List.flatMap_append

/-- What may be left of stretches when the comments among them are deleted. The carriage
returns at the end of a comment count as a part of it or of the line break. -/
inductive Leaves : List Stretch → List Char → Prop
  | nil : Leaves [] []
  | code {chars stretches left} : Leaves stretches left →
      Leaves (.code chars :: stretches) (chars ++ left)
  | comment {deleted kept stretches left} : (∀ c ∈ kept, c = '\r') → Leaves stretches left →
      Leaves (.comment (deleted ++ kept) :: stretches) (kept ++ left)

theorem leaves_append : Leaves (stretches ++ others) left ↔
    ∃ front back, left = front ++ back ∧ Leaves stretches front ∧ Leaves others back := by
  constructor
  · intro h
    induction stretches generalizing left with
    | nil => exact ⟨[], left, rfl, .nil, h⟩
    | cons stretch stretches ih =>
      cases h with
      | code h =>
        obtain ⟨front, back, rfl, hfront, hback⟩ := ih h
        exact ⟨_, back, by rw [List.append_assoc], .code hfront, hback⟩
      | comment hkept h =>
        obtain ⟨front, back, rfl, hfront, hback⟩ := ih h
        exact ⟨_, back, by rw [List.append_assoc], .comment hkept hfront, hback⟩
  · rintro ⟨front, back, rfl, hfront, hback⟩
    induction hfront with
    | nil => exact hback
    | code _ ih =>
      rw [List.append_assoc]
      exact .code ih
    | comment hkept _ ih =>
      rw [List.append_assoc]
      exact .comment hkept ih

theorem leaves_code : Leaves (.code spelling :: stretches) left ↔
    ∃ back, left = spelling ++ back ∧ Leaves stretches back := by
  constructor
  · rintro (_ | hback | _)
    exact ⟨_, rfl, hback⟩
  · rintro ⟨back, rfl, hback⟩
    exact .code hback

theorem leaves_comment : Leaves [.comment spelling] left ↔
    ∃ deleted, spelling = deleted ++ left ∧ ∀ c ∈ left, c = '\r' := by
  constructor
  · intro h
    generalize hstretches : [comment spelling] = stretches at h
    cases h with
    | nil | code => cases hstretches
    | comment hkept h =>
      cases hstretches
      cases h
      exact ⟨_, by rw [List.append_nil], by simpa using hkept⟩
  · rintro ⟨deleted, rfl, hkept⟩
    have hleaves : Leaves [.comment (deleted ++ left)] (left ++ []) := .comment hkept .nil
    rwa [List.append_nil] at hleaves

end Stretch

def gapStretches (text : List Char) : List Stretch :=
  let blanks := text.takeWhile isBlank
  let ahead := text.drop blanks.length
  .code blanks ::
    if commentLength ahead = 0 then [] else [.comment (ahead.take (commentLength ahead))]

/-- The stretches with which a run of line breaks goes on in the text ahead. -/
def runStretches (text : List Char) : List Stretch :=
  match _h : text.drop (gapLength text) with
  | '\n' :: rest => gapStretches text ++ .code ['\n'] :: runStretches rest
  | _ => []
termination_by text.length
decreasing_by
  have h := congrArg List.length ‹_›
  simp at h
  omega

/-- The stretches of a text in order: those of its gaps and runs of line breaks, and its
other lexemes. -/
def stretches (text : List Char) : List Stretch :=
  let gap := gapStretches text
  match _h : text.drop (gapLength text) with
  | [] => gap
  | first :: rest =>
    match lexemeRest? first rest with
    | none => gap ++ [.code (first :: rest)]
    | some (kind, n) =>
      gap ++ (if kind = .newline then .code [first] :: runStretches rest
        else [.code (first :: rest.take n)]) ++ stretches (rest.drop n)
termination_by text.length
decreasing_by
  have h := congrArg List.length ‹_›
  simp at h ⊢
  omega

-- ---------------------------------------------------------------------------
-- Gaps
-- ---------------------------------------------------------------------------

/-- The gap at the start of a text, and the rest of the text. -/
inductive Gap (text : List Char) : List Stretch → List Char → Prop
  | blank {blanks rest} : text = blanks ++ rest → (∀ c ∈ blanks, isBlank c = true) →
      StartsOff isBlank rest → commentLength rest = 0 → Gap text [.code blanks] rest
  | comment {blanks body rest} : text = blanks ++ '/' :: '/' :: (body ++ rest) →
      (∀ c ∈ blanks, isBlank c = true) → (∀ c ∈ body, c ≠ '\n') → StartsOff (· != '\n') rest →
      Gap text [.code blanks, .comment ('/' :: '/' :: body)] rest

theorem gapLength_blanks {blanks : List Char} (hblanks : ∀ c ∈ blanks, isBlank c = true)
    (hrest : StartsOff isBlank rest) :
    gapLength (blanks ++ rest) = blanks.length + commentLength rest := by
  simp only [gapLength, takeWhile_append hblanks hrest, List.drop_left]

theorem gapStretches_blanks {blanks : List Char} (hblanks : ∀ c ∈ blanks, isBlank c = true)
    (hrest : StartsOff isBlank rest) : gapStretches (blanks ++ rest) = .code blanks ::
      if commentLength rest = 0 then [] else [.comment (rest.take (commentLength rest))] := by
  simp only [gapStretches, takeWhile_append hblanks hrest, List.drop_left]

theorem commentLength_append {body : List Char} (hbody : ∀ c ∈ body, c ≠ '\n')
    (hrest : StartsOff (· != '\n') rest) :
    commentLength ('/' :: '/' :: (body ++ rest)) = body.length + 2 := by
  rw [commentLength, takeWhile_append (by simpa using hbody) hrest]

theorem commentLength_eq_zero_iff : commentLength (first :: rest) = 0 ↔
    ¬(first = '/' ∧ rest.head? = some '/') := by
  unfold commentLength
  split
  · simp_all
  · rename_i hne
    refine iff_of_true rfl ?_
    rintro ⟨rfl, hrest⟩
    obtain ⟨others, rfl⟩ := List.head?_eq_some_iff.mp hrest
    exact hne others rfl

theorem gap_gapStretches (text : List Char) :
    Gap text (gapStretches text) (text.drop (gapLength text)) := by
  obtain ⟨blanks, rest, rfl, hblanks, hrest⟩ := exists_leading isBlank text
  rw [gapLength_blanks hblanks hrest, gapStretches_blanks hblanks hrest,
    List.drop_length_add_append]
  by_cases hcomment : commentLength rest = 0
  · rw [if_pos hcomment, hcomment]
    exact .blank rfl hblanks hrest hcomment
  · rw [if_neg hcomment]
    unfold commentLength at hcomment
    split at hcomment
    · rename_i ahead
      obtain ⟨body, rest, rfl, hbody, hrest⟩ := exists_leading (· != '\n') ahead
      have hbody : ∀ c ∈ body, c ≠ '\n' := by simpa using hbody
      rw [commentLength_append hbody hrest]
      simp only [List.take_succ_cons, List.drop_succ_cons, List.take_left, List.drop_left]
      exact .comment rfl hblanks hbody hrest
    · exact absurd rfl hcomment

theorem Gap.text_append (h : Gap text gap rest) : Stretch.text gap ++ rest = text := by
  cases h <;> simp_all [Stretch.chars]

-- ---------------------------------------------------------------------------
-- Runs of line breaks
-- ---------------------------------------------------------------------------

theorem runStretches_newline (h : text.drop (gapLength text) = '\n' :: rest) :
    runStretches text = gapStretches text ++ .code ['\n'] :: runStretches rest := by
  rw [runStretches]
  split
  · rename_i heq
    rw [List.cons.inj (heq.symm.trans h) |>.2]
  · rename_i hne
    exact absurd h (hne rest)

theorem runStretches_eq_nil_iff : runStretches text = [] ↔
    ∀ rest, text.drop (gapLength text) ≠ '\n' :: rest := by
  constructor
  · intro hnil rest hrest
    rw [runStretches_newline hrest] at hnil
    simp at hnil
  · intro hne
    rw [runStretches]
    split
    · rename_i rest heq
      exact absurd heq (hne rest)
    · rfl

theorem exists_run (text : List Char) : ∃ ahead, text = Stretch.text (runStretches text) ++ ahead ∧
    runStretches ahead = [] ∧
      ∀ taken, lineBreaks text taken = taken + (Stretch.text (runStretches text)).length := by
  fun_induction runStretches text with
  | case1 text rest hdrop ih =>
    obtain ⟨ahead, hrest, hnil, hlength⟩ := ih
    have htext := (gap_gapStretches text).text_append
    rw [hdrop] at htext
    refine ⟨ahead, ?_, hnil, fun taken => ?_⟩
    · rw [Stretch.text_append, Stretch.text_cons, List.append_assoc, List.append_assoc, ← hrest]
      exact htext.symm
    · have hgap : (Stretch.text (gapStretches text)).length = gapLength text := by
        have hlength := congrArg List.length htext
        have hdrop := congrArg List.length hdrop
        simp only [List.length_append, List.length_drop, List.length_cons] at hlength hdrop
        omega
      rw [lineBreaks]
      split
      · rename_i heq
        rw [(List.cons.inj (heq.symm.trans hdrop)).2, hlength]
        simp [hgap, Stretch.chars]
        omega
      · rename_i hne
        exact absurd hdrop (hne rest)
  | case2 text hne =>
    refine ⟨text, rfl, runStretches_eq_nil_iff.mpr hne, fun taken => ?_⟩
    rw [lineBreaks]
    split
    · rename_i rest heq
      exact absurd heq (hne rest)
    · rfl

theorem lineBreaks_zero (text : List Char) :
    lineBreaks text 0 = (Stretch.text (runStretches text)).length := by
  obtain ⟨-, -, -, hlength⟩ := exists_run text
  rw [hlength, Nat.zero_add]

theorem take_lineBreaks (text : List Char) :
    text.take (lineBreaks text 0) = Stretch.text (runStretches text) := by
  obtain ⟨ahead, htext, -⟩ := exists_run text
  have htake := congrArg (List.take (Stretch.text (runStretches text)).length) htext
  rwa [List.take_left, ← lineBreaks_zero] at htake

theorem runStretches_drop (text : List Char) :
    runStretches (text.drop (lineBreaks text 0)) = [] := by
  obtain ⟨ahead, htext, hnil, -⟩ := exists_run text
  have hdrop := congrArg (List.drop (Stretch.text (runStretches text)).length) htext
  rw [List.drop_left, ← lineBreaks_zero] at hdrop
  rw [hdrop, hnil]

-- ---------------------------------------------------------------------------
-- Texts
-- ---------------------------------------------------------------------------

theorem stretches_done (h : text.drop (gapLength text) = []) :
    stretches text = gapStretches text := by
  rw [stretches]
  split
  · rfl
  · rename_i heq
    cases heq.symm.trans h

theorem stretches_newline (h : text.drop (gapLength text) = '\n' :: rest) :
    stretches text = gapStretches text ++ .code ['\n'] ::
      (runStretches rest ++ stretches (rest.drop (lineBreaks rest 0))) := by
  rw [stretches]
  split
  · rename_i heq
    cases heq.symm.trans h
  · rename_i heq
    cases heq.symm.trans h
    simp [lexemeRest?]

theorem stretches_lexeme (h : text.drop (gapLength text) = first :: rest)
    (hlexeme : LexemeAt first rest kind n) (hne : kind ≠ .newline) :
    stretches text = gapStretches text ++ .code (first :: rest.take n) ::
      stretches (rest.drop n) := by
  rw [stretches]
  split
  · rename_i heq
    cases heq.symm.trans h
  · rename_i heq
    cases heq.symm.trans h
    rw [lexemeRest?_iff.mpr hlexeme]
    simp [hne]

theorem LexemeAt.of_newline (h : LexemeAt first input .newline n) :
    first = '\n' ∧ n = lineBreaks input 0 := by
  generalize hkind : TokenKind.newline = kind at h
  cases h with
  | newline hfirst => exact ⟨hfirst, rfl⟩
  | string | rawId | number => cases hkind
  | word => exact absurd hkind.symm (ofWord_ne_newline _)
  | sign hsign => exact absurd hkind.symm (signRest?_name hsign).2.2

theorem text_stretches (text : List Char) : Stretch.text (stretches text) = text := by
  fun_induction stretches text with
  | case1 text gap hdrop =>
    have htext := (gap_gapStretches text).text_append
    rw [hdrop] at htext
    simpa using htext
  | case2 text gap first rest hdrop =>
    have htext := (gap_gapStretches text).text_append
    rw [hdrop] at htext
    simpa [Stretch.chars] using htext
  | case3 text gap first rest hdrop kind n hlexeme ih =>
    have htext := (gap_gapStretches text).text_append
    rw [hdrop] at htext
    rw [Stretch.text_append, Stretch.text_append, ih]
    split
    · rename_i hkind
      subst hkind
      obtain ⟨rfl, rfl⟩ := (lexemeRest?_iff.mp hlexeme).of_newline
      rw [← htext, Stretch.text_cons, ← take_lineBreaks]
      simp [Stretch.chars, gap]
    · rw [← htext]
      simp [Stretch.chars, gap]

-- ---------------------------------------------------------------------------
-- What lexemes look for behind themselves
-- ---------------------------------------------------------------------------

/-- What a word, a number or a sign may look for in the text behind it. -/
def isSought (c : Char) : Bool := goesOnNumber c || c == '='

theorem isSought_of_isWordCharacter (c : Char) (h : isWordCharacter c = true) :
    isSought c = true := by
  simp [isSought, goesOnNumber, h]

theorem isSought_of_isDigit (c : Char) (h : c.isDigit = true) : isSought c = true :=
  isSought_of_isWordCharacter c (isWordCharacter_of_isDigit h)

theorem isSought_of_isHexDigit (c : Char) (h : isHexDigit c = true) : isSought c = true :=
  isSought_of_isWordCharacter c (isWordCharacter_of_isHexDigit h)

theorem isSought_of_isOctalDigit (c : Char) (h : isOctalDigit c = true) : isSought c = true :=
  isSought_of_isDigit c (isDigit_of_isOctalDigit h)

theorem StartsOff.takeWhile (h : StartsOff p text) (q : Char → Bool) :
    StartsOff p (text.takeWhile q) := by
  cases text with
  | nil => exact h
  | cons c rest =>
    by_cases hc : q c = true
    · rw [List.takeWhile_cons_of_pos hc]
      exact h
    · rw [List.takeWhile_cons_of_neg hc]
      exact startsOff_nil

theorem leading_takeWhile (himp : ∀ c, p c = true → q c = true) (text : List Char) :
    leading p (text.takeWhile q) = leading p text := by
  obtain ⟨more, rest, rfl, hall, hrest⟩ := exists_leading p text
  rw [List.takeWhile_append_of_pos fun c hc => himp c (hall c hc),
    leading_append hall (hrest.takeWhile q),
    leading_append hall hrest]

theorem hexDigits?_takeWhile (text : List Char) :
    hexDigits? (text.takeWhile isSought) = hexDigits? text := by
  simp only [hexDigits?, leading_takeWhile isSought_of_isHexDigit]

theorem hexRest?_takeWhile (text : List Char) :
    hexRest? (text.takeWhile isSought) = hexRest? text := by
  by_cases hmark : StartsOff (fun c => c == 'x' || c == 'X') text
  · rw [hexRest?_eq_none hmark, hexRest?_eq_none (hmark.takeWhile isSought)]
  · obtain ⟨rest, rfl | rfl⟩ : ∃ rest, text = 'x' :: rest ∨ text = 'X' :: rest := by
      cases text with
      | nil => exact absurd startsOff_nil hmark
      | cons c rest => exact ⟨rest, by simpa [StartsOff, or_iff_not_imp_left] using hmark⟩
    · rw [List.takeWhile_cons_of_pos (by decide), hexRest?, hexRest?, hexDigits?_takeWhile]
    · rw [List.takeWhile_cons_of_pos (by decide), hexRest?, hexRest?, hexDigits?_takeWhile]

theorem realRest?_takeWhile (text : List Char) :
    realRest? (text.takeWhile isSought) = realRest? text := by
  obtain ⟨whole, rest, rfl, hwhole, hrest⟩ := exists_leading Char.isDigit text
  rw [List.takeWhile_append_of_pos fun c hc => isSought_of_isDigit c (hwhole c hc)]
  by_cases hpoint : StartsOff (· == '.') rest
  · have hnone : StartsOff (fun c => c.isDigit || c == '.') rest := fun c hc => by
      simp only [hrest c hc, hpoint c hc, Bool.or_self]
    rw [realRest?_eq_none hwhole hnone, realRest?_eq_none hwhole (hnone.takeWhile isSought)]
  · obtain ⟨fraction, rfl⟩ : ∃ fraction, rest = '.' :: fraction := by
      cases rest with
      | nil => exact absurd startsOff_nil hpoint
      | cons c fraction => exact ⟨fraction, by simpa [StartsOff] using hpoint⟩
    have hpoint (fraction : List Char) : StartsOff Char.isDigit ('.' :: fraction) := by
      rintro _ ⟨⟩
      rfl
    rw [List.takeWhile_cons_of_pos (by decide)]
    simp only [realRest?, leading_append hwhole (hpoint _), List.drop_left,
      leading_takeWhile isSought_of_isDigit]

theorem numberRest?_takeWhile (first : Char) (text : List Char) :
    numberRest? first (text.takeWhile isSought) = numberRest? first text := by
  simp only [numberRest?, hexDigits?_takeWhile, hexRest?_takeWhile, realRest?_takeWhile,
    leading_takeWhile isSought_of_isDigit, leading_takeWhile isSought_of_isOctalDigit]

theorem signRest?_takeWhile (first : Char) (text : List Char) :
    signRest? first (text.takeWhile isSought) = signRest? first text := by
  have hequals : (text.takeWhile isSought).head? = some '=' ↔ text.head? = some '=' := by
    cases text with
    | nil => rfl
    | cons c rest =>
      by_cases hc : isSought c = true
      · rw [List.takeWhile_cons_of_pos hc]
        simp
      · rw [List.takeWhile_cons_of_neg hc]
        refine iff_of_false nofun ?_
        rintro ⟨⟩
        exact hc (by decide)
  simp only [signRest?, hequals]

/-- A lexeme is read again wherever its characters stand before a text that looks like the
one behind it. A line break takes in the blank lines after it and is left out. -/
theorem LexemeAt.congr (h : LexemeAt first (more ++ ahead) kind more.length) (hne : kind ≠ .newline)
    (hahead : ahead'.takeWhile isSought = ahead.takeWhile isSought) :
    LexemeAt first (more ++ ahead') kind more.length := by
  have hsought : (more ++ ahead').takeWhile isSought = (more ++ ahead).takeWhile isSought := by
    simp only [List.takeWhile_append, hahead]
  generalize hinput : more ++ ahead = input at h hsought
  generalize hn : more.length = n at h ⊢
  -- What stands between quotes ends by itself, so nothing behind it matters.
  have hquoted {more' others : List Char} (heq : input = more' ++ others)
      (hlength : more'.length = n) :
      more' = more := (List.append_inj (hinput.trans heq) (hn.trans hlength.symm)).1.symm
  cases h with
  | newline => exact absurd rfl hne
  | string hfirst hrest =>
    obtain ⟨more', others, heq, -, hlength, hagain⟩ := exists_string hrest
    obtain rfl := hquoted heq (by omega)
    exact .string hfirst (hagain ahead')
  | rawId hfirst hrest =>
    obtain ⟨more', others, heq, hlength, hagain⟩ := exists_rawId hrest
    obtain rfl := hquoted heq hlength
    exact .rawId hfirst (hagain ahead')
  | word hfirst =>
    have hlead : leading isWordCharacter (more ++ ahead') = leading isWordCharacter input := by
      rw [← leading_takeWhile isSought_of_isWordCharacter, hsought,
        leading_takeWhile isSought_of_isWordCharacter]
    have hword : LexemeAt first (more ++ ahead') _ _ := .word hfirst
    rw [hlead, ← hn, List.take_left] at hword
    rwa [← hn, ← hinput, List.take_left]
  | number hnumber =>
    rw [← numberRest?_takeWhile, ← hsought, numberRest?_takeWhile] at hnumber
    exact .number hnumber
  | sign hsign =>
    rw [← signRest?_takeWhile, ← hsought, signRest?_takeWhile] at hsign
    exact .sign hsign

-- ---------------------------------------------------------------------------
-- Without comments
-- ---------------------------------------------------------------------------

theorem Gap.startsOff (h : Gap text gap rest) : StartsOff isBlank rest := by
  cases h with
  | blank _ _ hrest => exact hrest
  | comment _ _ _ hrest =>
    intro c hc
    obtain rfl : c = '\n' := by simpa using hrest c hc
    rfl

theorem Gap.commentLength_rest (h : Gap text gap rest) : commentLength rest = 0 := by
  cases h with
  | blank _ _ _ hrest => exact hrest
  | comment _ _ _ hrest =>
    cases rest with
    | nil => rfl
    | cons c rest =>
      obtain rfl : c = '\n' := by simpa using hrest c rfl
      rfl

theorem isBlank_of_leaves (h : Gap text gap rest) (hleft : Stretch.Leaves gap left) :
    ∀ c ∈ left, isBlank c = true := by
  cases h with
  | blank _ hblanks =>
    obtain ⟨_, rfl, ⟨⟩⟩ := Stretch.leaves_code.mp hleft
    simpa using hblanks
  | comment _ hblanks =>
    obtain ⟨_, rfl, hback⟩ := Stretch.leaves_code.mp hleft
    obtain ⟨-, -, hkept⟩ := Stretch.leaves_comment.mp hback
    intro c hc
    rcases List.mem_append.mp hc with hc | hc
    · exact hblanks c hc
    · rw [hkept c hc]
      rfl

/-- To a lexeme in front of it, what is left looks like the text that there was. -/
structure Alike (text left : List Char) : Prop where
  sought : left.takeWhile isSought = text.takeWhile isSought
  slash : left.head? = some '/' → text.head? = some '/'

theorem Alike.append (h : Alike text left) (more : List Char) :
    Alike (more ++ text) (more ++ left) where
  sought := by simp only [List.takeWhile_append, h.sought]
  slash := by
    cases more with
    | nil => exact h.slash
    | cons c more => exact id

theorem Alike.of_gap (h : Alike rest left) (hgap : Gap text passed rest)
    (hblanks : Stretch.Leaves passed blanks) : Alike text (blanks ++ left) := by
  cases hgap with
  | blank htext =>
    obtain ⟨_, rfl, ⟨⟩⟩ := Stretch.leaves_code.mp hblanks
    rw [htext, List.append_nil]
    exact h.append _
  | comment htext _ _ hrest =>
    obtain ⟨kept, rfl, hkept⟩ := Stretch.leaves_code.mp hblanks
    obtain ⟨-, -, hkept⟩ := Stretch.leaves_comment.mp hkept
    rw [htext, List.append_assoc]
    -- A comment is no more sought than the carriage returns or the line break after it.
    refine Alike.append ⟨?_, fun _ => rfl⟩ _
    cases kept with
    | nil =>
      rw [List.nil_append, h.sought]
      cases rest with
      | nil => rfl
      | cons c rest =>
        obtain rfl : c = '\n' := by simpa using hrest c rfl
        rfl
    | cons c kept =>
      obtain rfl := hkept c List.mem_cons_self
      rfl

theorem Lexes.runStretches_eq_nil_iff (h : Lexes text tokens) : runStretches text = [] ↔
    ∀ token ∈ tokens.head?, token.kind ≠ .newline := by
  rw [Script.runStretches_eq_nil_iff]
  cases h with
  | done hdrop =>
    rw [hdrop]
    exact iff_of_true nofun nofun
  | @more _ first _ kind _ _ hdrop hlexeme _ =>
    rw [hdrop]
    simp only [List.head?_cons, Option.mem_some_iff, forall_eq']
    constructor
    · rintro hne rfl
      exact hne _ (by rw [hlexeme.of_newline.1])
    · rintro hne rest heq
      obtain ⟨rfl, rfl⟩ := List.cons.inj heq
      exact hne (hlexeme.unique (.newline rfl)).1

theorem gap_leaves (hgap : Gap text passed rest) (hleft : Stretch.Leaves passed blanks)
    (hoff : StartsOff isBlank ahead) (hcomment : commentLength ahead = 0) :
    gapStretches (blanks ++ ahead) = [.code blanks] ∧
      (blanks ++ ahead).drop (gapLength (blanks ++ ahead)) = ahead := by
  have hblanks := isBlank_of_leaves hgap hleft
  rw [gapStretches_blanks hblanks hoff, gapLength_blanks hblanks hoff, hcomment]
  exact ⟨rfl, List.drop_left⟩

theorem runStretches_leaves (hleft : Stretch.Leaves (runStretches text) left)
    (hmore : runStretches more = []) : Stretch.text (runStretches (left ++ more)) = left ∧
      ∀ stretch ∈ runStretches (left ++ more), stretch.isCode = true := by
  fun_induction runStretches text generalizing left with
  | case1 text rest hdrop ih =>
    obtain ⟨blanks, back, rfl, hblanks, hback⟩ := Stretch.leaves_append.mp hleft
    obtain ⟨later, rfl, hlater⟩ := Stretch.leaves_code.mp hback
    obtain ⟨htext, hcode⟩ := ih hlater
    have hoff : StartsOff isBlank ('\n' :: (later ++ more)) := by
      rintro _ ⟨⟩
      rfl
    obtain ⟨hgap, hahead⟩ := gap_leaves (gap_gapStretches text) hblanks hoff rfl
    rw [List.append_assoc, List.append_assoc, List.singleton_append,
      runStretches_newline hahead, hgap]
    refine ⟨by simp [Stretch.chars, htext], ?_⟩
    simpa [Stretch.isCode] using hcode
  | case2 text hne =>
    cases hleft
    rw [List.nil_append, hmore]
    exact ⟨rfl, nofun⟩

theorem commentLength_alike (h : commentLength (first :: rest) = 0) (halike : Alike rest left) :
    commentLength (first :: left) = 0 := by
  rw [commentLength_eq_zero_iff] at h ⊢
  exact fun ⟨hfirst, hleft⟩ => h ⟨hfirst, halike.slash hleft⟩

theorem Lexes.leaves (h : Lexes text tokens) (hleft : Stretch.Leaves (stretches text) left) :
    Lexes left tokens ∧ (∀ stretch ∈ stretches left, stretch.isCode = true) ∧ Alike text left := by
  induction h generalizing left with
  | @done text hdrop =>
    have hgap := gap_gapStretches text
    rw [stretches_done hdrop] at hleft
    rw [hdrop] at hgap
    obtain ⟨hcode, hahead⟩ := gap_leaves hgap hleft startsOff_nil rfl
    have halike := Alike.of_gap ⟨rfl, id⟩ hgap hleft
    rw [List.append_nil] at hcode hahead halike
    refine ⟨.done hahead, ?_, halike⟩
    rw [stretches_done hahead, hcode]
    simp [Stretch.isCode]
  | @more text first rest kind n tokens hdrop hlexeme hlater ih =>
    have hgap := gap_gapStretches text
    rw [hdrop] at hgap
    by_cases hkind : kind = .newline
    · subst hkind
      obtain ⟨rfl, rfl⟩ := hlexeme.of_newline
      rw [stretches_newline hdrop] at hleft
      obtain ⟨blanks, tail, rfl, hblanks, htail⟩ := Stretch.leaves_append.mp hleft
      obtain ⟨back, rfl, hback⟩ := Stretch.leaves_code.mp htail
      obtain ⟨run, later, rfl, hrun, hafter⟩ := Stretch.leaves_append.mp hback
      obtain ⟨hlexes, hcode, -⟩ := ih hafter
      -- The run ends where it did, for what comes next is no line break in either text.
      have hnil : runStretches later = [] := by
        rw [hlexes.runStretches_eq_nil_iff, ← hlater.runStretches_eq_nil_iff]
        exact runStretches_drop rest
      obtain ⟨htext, hcode'⟩ := runStretches_leaves hrun hnil
      have hbreaks : lineBreaks (run ++ later) 0 = run.length := by
        rw [lineBreaks_zero, htext]
      have hagain : LexemeAt '\n' (run ++ later) .newline run.length := hbreaks ▸ .newline rfl
      have hoff : StartsOff isBlank ('\n' :: (run ++ later)) := hgap.startsOff
      have halike : Alike ('\n' :: rest) ('\n' :: (run ++ later)) := ⟨rfl, nofun⟩
      obtain ⟨hspace, hahead⟩ := gap_leaves hgap hblanks hoff rfl
      refine ⟨?_, ?_, halike.of_gap hgap hblanks⟩
      · have hmore := Lexes.more hahead hagain (by rwa [List.drop_left])
        exact hmore
      · rw [List.singleton_append, stretches_newline hahead, hspace, hbreaks, List.drop_left]
        simpa [Stretch.isCode, or_imp, forall_and] using And.intro hcode' hcode
    · obtain ⟨more, ahead, rfl, rfl, -⟩ := hlexeme.exists_spelling hkind
      rw [stretches_lexeme hdrop hlexeme hkind, List.take_left, List.drop_left] at hleft
      rw [List.drop_left] at ih
      obtain ⟨blanks, tail, rfl, hblanks, htail⟩ := Stretch.leaves_append.mp hleft
      obtain ⟨later, rfl, hback⟩ := Stretch.leaves_code.mp htail
      obtain ⟨hlexes, hcode, halike⟩ := ih hback
      have hagain := hlexeme.congr hkind halike.sought
      have hcomment := commentLength_alike hgap.commentLength_rest (halike.append more)
      have hoff : StartsOff isBlank (first :: (more ++ later)) := hgap.startsOff
      obtain ⟨hspace, hahead⟩ := gap_leaves hgap hblanks hoff hcomment
      refine ⟨?_, ?_, (halike.append (first :: more)).of_gap hgap hblanks⟩
      · have hmore := Lexes.more hahead hagain (by rwa [List.drop_left])
        rwa [List.take_left] at hmore ⊢
      · rw [List.cons_append, stretches_lexeme hahead hagain hkind, hspace, List.drop_left]
        simpa [Stretch.isCode] using hcode

-- ---------------------------------------------------------------------------
-- Line breaks among the tokens
-- ---------------------------------------------------------------------------

def Apart (tokens : List Token) : Prop :=
  tokens.IsChain fun token next => token.kind = .newline → next.kind ≠ .newline

/-- A run of line breaks ends where no other one begins. -/
theorem Lexes.apart (h : Lexes text tokens) : Apart tokens := by
  induction h with
  | done => exact .nil
  | @more text first rest kind n tokens hdrop hlexeme hlater ih =>
    refine List.isChain_cons.mpr ⟨fun next hnext hkind => ?_, ih⟩
    obtain rfl : kind = .newline := hkind
    obtain ⟨rfl, rfl⟩ := hlexeme.of_newline
    exact hlater.runStretches_eq_nil_iff.mp (runStretches_drop rest) next hnext

end Mapsmith.Script
