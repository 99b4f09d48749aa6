import Mapsmith.Proofs.Script.Stretches
import Mapsmith.Script.Comments

/-!
# Comments are what the lexer passes over

`comments_of_lexemes`: the reader of comments goes over a text by itself, character by
character, and knows only whether it is between quotes. Both take the same stretches of a text
for comments: at the start of each stretch the reader is in no literal and in no comment, and
it gets to the start of the next with the comment noted, if the stretch is one.
-/

namespace Mapsmith.Script

variable {line : Nat} {found : List (Nat × String)} {passed others : List Stretch}

namespace Stretch

/-- The comments among stretches, the first of which begins in the given line. -/
def comments (line : Nat) : List Stretch → List (Nat × String)
  | [] => []
  | .code chars :: rest => comments (line + chars.count '\n') rest
  | .comment chars :: rest => (line, commentText chars) :: comments (line + chars.count '\n') rest

theorem comments_append (line : Nat) (passed others : List Stretch) :
    comments line (passed ++ others) =
      comments line passed ++ comments (line + (text passed).count '\n') others := by
  induction passed generalizing line with
  | nil => rfl
  | cons stretch passed ih =>
    cases stretch <;> simp [comments, ih, chars, List.count_append, Nat.add_assoc]

theorem mem_comments : entry ∈ comments line passed ↔ ∃ before spelling after,
    passed = before ++ .comment spelling :: after ∧
      entry = (line + (text before).count '\n', commentText spelling) := by
  constructor
  · intro h
    induction passed generalizing line with
    | nil => cases h
    | cons stretch passed ih =>
      have hlater (h : entry ∈ comments (line + stretch.chars.count '\n') passed) :
          ∃ before spelling after, stretch :: passed = before ++ .comment spelling :: after ∧
            entry = (line + (text before).count '\n', commentText spelling) := by
        obtain ⟨before, spelling, after, rfl, rfl⟩ := ih h
        exact ⟨stretch :: before, spelling, after, rfl, by simp [List.count_append, Nat.add_assoc]⟩
      cases stretch with
      | code chars => exact hlater h
      | comment chars =>
        rcases List.mem_cons.mp h with rfl | h
        · exact ⟨[], chars, passed, rfl, rfl⟩
        · exact hlater h
  · rintro ⟨before, spelling, after, rfl, rfl⟩
    rw [comments_append, comments]
    exact List.mem_append_right _ List.mem_cons_self

theorem comments_of_isCode (h : ∀ stretch ∈ passed, stretch.isCode = true) :
    comments line passed = [] := by
  induction passed generalizing line with
  | nil => rfl
  | cons stretch passed ih =>
    obtain ⟨hcode, hrest⟩ := List.forall_mem_cons.mp h
    cases stretch with
    | code chars => exact ih hrest
    | comment chars => cases hcode

/-- Before the rest of a text, the reader goes over the stretches and notes the comments
among them, each of which ends its line. -/
structure Noted (passed : List Stretch) (rest : List Char) : Prop where
  reads : ∀ line found, commentsFrom (text passed ++ rest) .plain line found =
    commentsFrom rest .plain
    (line + (text passed).count '\n') ((comments line passed).reverse ++ found)
  ends : ∀ before spelling after, passed = before ++ .comment spelling :: after →
    ∃ body, spelling = '/' :: '/' :: body ∧ '\n' ∉ body ∧ StartsOff (· != '\n') (text after ++ rest)

theorem Noted.nil : Noted [] rest where
  reads _ _ := rfl
  ends before _ _ h := absurd h (by simp)

theorem Noted.code (h : ∀ line found, commentsFrom (spelling ++ rest) .plain line found =
    commentsFrom rest .plain (line + spelling.count '\n') found) : Noted [.code spelling] rest where
  reads line found := by simpa [chars, comments] using h line found
  ends before spelling after h := by simp [List.cons_eq_append_iff] at h

theorem Noted.append (h : Noted passed ahead) (hothers : Noted others rest)
    (hahead : ahead = text others ++ rest) : Noted (passed ++ others) rest where
  reads line found := by
    rw [text_append, List.append_assoc, ← hahead, h.reads, hahead, hothers.reads, comments_append]
    simp [List.count_append, Nat.add_assoc]
  ends before spelling after heq := by
    obtain ⟨middle, rfl, hsplit⟩ | ⟨middle, rfl, hsplit⟩ := List.append_eq_append_iff.mp heq
    · exact hothers.ends middle spelling after hsplit
    · cases middle with
      | nil => exact hothers.ends [] spelling after hsplit.symm
      | cons stretch middle =>
        obtain ⟨rfl, rfl⟩ := List.cons.inj hsplit
        obtain ⟨body, hbody, hline, hends⟩ := h.ends before spelling middle rfl
        rw [hahead, ← List.append_assoc, ← text_append] at hends
        exact ⟨body, hbody, hline, hends⟩

end Stretch

-- ---------------------------------------------------------------------------
-- Steps of the reader
-- ---------------------------------------------------------------------------

open Stretch (Noted)

theorem commentsFrom_plain (hne : c ≠ '\n') (hcomment : commentLength (c :: rest) = 0) :
    commentsFrom (c :: rest) .plain line found =
      commentsFrom rest (if c = '"' ∨ c = '\'' then .quoted c else .plain) line found := by
  rw [commentsFrom]
  · exact hne
  · rintro others rfl rfl
    cases hcomment

theorem commentsFrom_comment {body : List Char} (hbody : ∀ c ∈ body, c ≠ '\n')
    (hrest : StartsOff (· != '\n') rest) (taken : List Char) :
    commentsFrom (body ++ rest) (.comment taken) line found =
      commentsFrom rest .plain line ((line, commentText (taken.reverse ++ body)) :: found) := by
  induction body generalizing taken with
  | nil =>
    cases rest with
    | nil => simp [commentsFrom]
    | cons c rest =>
      obtain rfl : c = '\n' := by simpa using hrest c rfl
      simp [commentsFrom]
  | cons c body ih =>
    obtain ⟨hc, hbody⟩ := List.forall_mem_cons.mp hbody
    rw [List.cons_append, commentsFrom, ih hbody]
    · simp
    · exact hc

/-- A character between single quotes, or one between double quotes that no reverse stroke
stands before. -/
theorem commentsFrom_quoted (hc : c ≠ quote) (hquote : quote ≠ '\n')
    (hstroke : c = '\\' → quote ≠ '"') : commentsFrom (c :: rest) (.quoted quote) line found =
      commentsFrom rest (.quoted quote) (line + [c].count '\n') found := by
  by_cases hnewline : c = '\n'
  · subst hnewline
    rfl
  · rw [commentsFrom]
    · simp [hc, hnewline]
    · exact hnewline
    · rintro d others rfl rfl rfl
      exact hstroke rfl rfl

/-- The reader goes over a string as the lexer does, whatever strokes escape. -/
theorem commentsFrom_string (h : stringRest? input taken = some n) : ∃ more others,
    input = more ++ others ∧ taken + more.length = n ∧ ∀ line found,
      commentsFrom input (.quoted '"') line found =
        commentsFrom others .plain (line + more.count '\n') found := by
  fun_induction stringRest? input taken with
  | case1 => cases h
  | case2 others taken =>
    cases h
    exact ⟨['"'], others, rfl, rfl, fun line found => rfl⟩
  | case3 others taken ih | case4 others taken ih =>
    obtain ⟨more, others, rfl, rfl, hread⟩ := ih h
    refine ⟨'\\' :: _ :: more, others, rfl, by simp; omega, fun line found => ?_⟩
    rw [commentsFrom, hread]
    simp
  | case5 c rest taken hquote hescape hescape' ih =>
    obtain ⟨more, others, rfl, rfl, hread⟩ := ih h
    refine ⟨c :: more, others, rfl, by simp; omega, fun line found => ?_⟩
    have hcount : line + (c :: more).count '\n' = line + [c].count '\n' + more.count '\n' := by
      rw [Nat.add_assoc, ← List.count_append, List.singleton_append]
    rw [hcount, ← hread]
    by_cases hstroke : c = '\\'
    · subst hstroke
      cases hmore : more ++ others with
      | nil =>
        rw [hmore] at h
        cases h
      | cons d rest =>
        rw [hmore] at hescape hescape'
        have hquote : d ≠ '"' := fun hd => hescape rest rfl (by rw [hd])
        have hstroke : d ≠ '\\' := fun hd => hescape' rest rfl (by rw [hd])
        -- The stroke takes in a second character, but one that is nothing special by itself.
        rw [commentsFrom_quoted hquote (by decide) fun hd => absurd hd hstroke, commentsFrom]
        by_cases hd : d = '\n' <;> simp [hd]
    · exact commentsFrom_quoted hquote (by decide) fun hc => absurd hc hstroke

theorem commentsFrom_rawId (h : rawIdRest? input = some n) : ∃ more others, input = more ++ others ∧
    more.length = n ∧ ∀ line found, commentsFrom input (.quoted '\'') line found =
      commentsFrom others .plain (line + more.count '\n') found := by
  obtain ⟨code, rest, rfl, hcode, hrest⟩ := exists_leading (· != '\'') input
  simp only [rawIdRest?, takeWhile_append hcode hrest] at h
  split at h
  · cases h
    cases rest with
    | nil => simp at *
    | cons quote others =>
      obtain rfl : quote = '\'' := by simpa using hrest.ne_cons
      refine ⟨code ++ ['\''], others, by simp, by simp, fun line found => ?_⟩
      clear hrest ‹_ < _›
      induction code generalizing line with
      | nil => rfl
      | cons c code ih =>
        obtain ⟨hc, hcode⟩ := List.forall_mem_cons.mp hcode
        rw [List.cons_append, commentsFrom_quoted (by simpa using hc) (by decide)
          (fun _ => by decide), ih hcode, Nat.add_assoc, ← List.count_append]
        rfl
  · cases h

def marks : List Char := ['\n', '"', '\'', '/']

theorem not_mem_marks_of_isSought (h : isSought c = true) : c ∉ marks := by
  have hmarks : ∀ c ∈ marks, isSought c = false := by
    simp only [marks, List.forall_mem_cons]
    exact ⟨rfl, rfl, rfl, rfl, nofun⟩
  exact fun hc => absurd (hmarks c hc) (by simp [h])

theorem not_mem_marks_of_isBlank (h : isBlank c = true) : c ∉ marks := by
  have hmarks : ∀ c ∈ marks, isBlank c = false := by
    simp only [marks, List.forall_mem_cons]
    exact ⟨rfl, rfl, rfl, rfl, nofun⟩
  exact fun hc => absurd (hmarks c hc) (by simp [h])

theorem commentsFrom_skip {more : List Char} (h : ∀ c ∈ more, c ∉ marks) :
    commentsFrom (more ++ rest) .plain line found = commentsFrom rest .plain line found := by
  induction more with
  | nil => rfl
  | cons c more ih =>
    obtain ⟨hc, hmore⟩ := List.forall_mem_cons.mp h
    obtain ⟨hnewline, hstring, hrawId, hslash⟩ :
        c ≠ '\n' ∧ c ≠ '"' ∧ c ≠ '\'' ∧ c ≠ '/' := by simpa [marks] using hc
    have hcomment : commentLength (c :: (more ++ rest)) = 0 :=
      commentLength_eq_zero_iff.mpr fun h => hslash h.1
    rw [List.cons_append, commentsFrom_plain hnewline hcomment,
      if_neg (not_or.mpr ⟨hstring, hrawId⟩), ih hmore]

theorem count_newline_of_skip {more : List Char} (h : ∀ c ∈ more, c ∉ marks) :
    more.count '\n' = 0 :=
  List.count_eq_zero.mpr fun hmem => h _ hmem (by decide)

-- ---------------------------------------------------------------------------
-- The stretches of a text
-- ---------------------------------------------------------------------------

theorem isSought_of_length_le {more : List Char}
    (h : more.length ≤ ((more ++ rest).takeWhile isSought).length) :
    ∀ c ∈ more, isSought c = true := by
  intro c hc
  have hmore := List.prefix_of_prefix_length_le (List.prefix_append more rest)
    (List.takeWhile_prefix isSought) h
  exact List.all_eq_true.mp List.all_takeWhile c (hmore.subset hc)

theorem LexemeAt.isSought_of_mem (h : LexemeAt first (more ++ rest) kind more.length)
    (hnewline : kind ≠ .newline) (hstring : first ≠ '"') (hrawId : first ≠ '\'') :
    ∀ c ∈ more, isSought c = true := by
  suffices hle :
      more.length ≤ ((more ++ rest).takeWhile isSought).length from isSought_of_length_le hle
  generalize hinput : more ++ rest = input at h ⊢
  generalize hn : more.length = n at h ⊢
  cases h with
  | newline => exact absurd rfl hnewline
  | string hfirst => exact absurd hfirst hstring
  | rawId hfirst => exact absurd hfirst hrawId
  | word =>
    rw [← leading_takeWhile isSought_of_isWordCharacter]
    exact (List.takeWhile_prefix _).length_le
  | number hnumber =>
    rw [← numberRest?_takeWhile] at hnumber
    obtain ⟨more, others, heq, rfl, -⟩ := exists_number hnumber
    rw [heq, List.length_append]
    omega
  | sign hsign =>
    rw [← signRest?_takeWhile] at hsign
    obtain ⟨more, others, heq, rfl, -⟩ := exists_sign hsign
    rw [heq, List.length_append]
    omega

theorem LexemeAt.noted (h : LexemeAt first (more ++ rest) kind more.length) (hne : kind ≠ .newline)
    (hcomment : commentLength (first :: (more ++ rest)) = 0) :
    Noted [.code (first :: more)] rest := by
  refine .code fun line found => ?_
  have hnewline : first ≠ '\n' := fun hfirst => hne (h.unique (.newline hfirst)).1
  have hcount : (first :: more).count '\n' = more.count '\n' := by simp [hnewline]
  rw [hcount, List.cons_append, commentsFrom_plain hnewline hcomment]
  have hlexeme := lexemeRest?_iff.mpr h
  by_cases hstring : first = '"'
  · subst hstring
    obtain ⟨_, hstring, heq⟩ := Option.map_eq_some_iff.mp hlexeme
    obtain ⟨-, rfl⟩ := Prod.mk.inj heq
    obtain ⟨more', others, hsplit, hlength, hread⟩ := commentsFrom_string hstring
    obtain ⟨rfl, rfl⟩ := List.append_inj hsplit (by omega)
    exact hread line found
  · by_cases hrawId : first = '\''
    · subst hrawId
      obtain ⟨_, hrawId, heq⟩ := Option.map_eq_some_iff.mp hlexeme
      obtain ⟨-, rfl⟩ := Prod.mk.inj heq
      obtain ⟨more', others, hsplit, hlength, hread⟩ := commentsFrom_rawId hrawId
      obtain ⟨rfl, rfl⟩ := List.append_inj hsplit (by omega)
      exact hread line found
    · have hskip : ∀ c ∈ more, c ∉ marks := fun c hc =>
        not_mem_marks_of_isSought (h.isSought_of_mem hne hstring hrawId c hc)
      rw [if_neg (not_or.mpr ⟨hstring, hrawId⟩), commentsFrom_skip hskip,
        count_newline_of_skip hskip]
      rfl

theorem noted_newline : Noted [.code ['\n']] rest := .code fun _ _ => rfl

theorem noted_blanks {blanks : List Char} (h : ∀ c ∈ blanks, isBlank c = true) :
    Noted [.code blanks] rest := by
  have hskip : ∀ c ∈ blanks, c ∉ marks := fun c hc => not_mem_marks_of_isBlank (h c hc)
  refine .code fun line found => ?_
  rw [commentsFrom_skip hskip, count_newline_of_skip hskip]
  rfl

theorem noted_comment {body : List Char} (hbody : ∀ c ∈ body, c ≠ '\n')
    (hrest : StartsOff (· != '\n') rest) : Noted [.comment ('/' :: '/' :: body)] rest where
  reads line found := by
    have hcount : ('/' :: '/' :: body).count '\n' = 0 := by
      simpa [List.count_eq_zero] using fun hmem => hbody _ hmem rfl
    have hread : commentsFrom ('/' :: '/' :: (body ++ rest)) .plain line found =
        commentsFrom (body ++ rest) (.comment ['/', '/']) line found := rfl
    rw [Stretch.text_cons, Stretch.text_nil, List.append_nil, Stretch.chars, hcount]
    rw [List.cons_append, List.cons_append, hread, commentsFrom_comment hbody hrest]
    rfl
  ends before spelling after heq := by
    obtain ⟨rfl, hsingle⟩ | ⟨_, -, hnil⟩ := List.cons_eq_append_iff.mp heq
    · cases hsingle
      exact ⟨body, rfl, fun hmem => hbody _ hmem rfl, hrest⟩
    · simp at hnil

theorem Gap.noted (h : Gap input passed rest) : Noted passed rest := by
  cases h with
  | blank _ hblanks => exact noted_blanks hblanks
  | comment _ hblanks hbody hrest =>
    exact (noted_blanks hblanks).append (noted_comment hbody hrest) rfl

theorem runStretches_noted (h : input = Stretch.text (runStretches input) ++ ahead) :
    Noted (runStretches input) ahead := by
  fun_induction runStretches input with
  | case1 input rest hdrop ih =>
    have hgap := gap_gapStretches input
    rw [hdrop] at hgap
    have hrest : rest = Stretch.text (runStretches rest) ++ ahead := by
      rw [Stretch.text_append, List.append_assoc] at h
      exact (List.cons.inj (List.append_cancel_left (hgap.text_append.trans h))).2
    exact hgap.noted.append (noted_newline.append (ih hrest) hrest) (congrArg _ hrest)
  | case2 => exact .nil

theorem Lexes.noted (h : Lexes input tokens) : Noted (stretches input) [] := by
  induction h with
  | @done input hdrop =>
    have hgap := gap_gapStretches input
    rw [hdrop] at hgap
    rw [stretches_done hdrop]
    exact hgap.noted
  | @more input first rest kind n tokens hdrop hlexeme _ ih =>
    have hgap := gap_gapStretches input
    rw [hdrop] at hgap
    by_cases hkind : kind = .newline
    · subst hkind
      obtain ⟨rfl, rfl⟩ := hlexeme.of_newline
      rw [stretches_newline hdrop]
      have hrest : rest = Stretch.text (runStretches rest) ++ rest.drop (lineBreaks rest 0) := by
        rw [← take_lineBreaks, List.take_append_drop]
      have hlater := (runStretches_noted hrest).append ih (by simp [text_stretches])
      have hback : Noted (.code ['\n'] :: (runStretches rest ++ stretches _)) [] :=
        noted_newline.append hlater (by simpa [text_stretches] using hrest)
      exact hgap.noted.append hback (by simpa [text_stretches, Stretch.chars] using hrest)
    · obtain ⟨more, ahead, rfl, rfl, -⟩ := hlexeme.exists_spelling hkind
      rw [stretches_lexeme hdrop hlexeme hkind, List.take_left, List.drop_left]
      rw [List.drop_left] at ih
      have hspelling := hlexeme.noted hkind hgap.commentLength_rest
      have hback := hspelling.append ih (by simp [text_stretches])
      exact hgap.noted.append hback (by simp [text_stretches, Stretch.chars])

theorem Lexes.comments_eq (h : Lexes text.toList tokens) :
    comments text = Stretch.comments 1 (stretches text.toList) := by
  have hreads := h.noted.reads 1 []
  rw [text_stretches, List.append_nil, List.append_nil] at hreads
  rw [comments, hreads]
  exact List.reverse_reverse _

/-- A text that lexes has just those comments that the lexer passes over, and without them
the same tokens and none. -/
theorem comments_of_lexemes (h : lexemes text = .ok all) :
    Stretch.text (stretches text.toList) = text.toList ∧
      (∀ line comment, (line, comment) ∈ comments text ↔ ∃ before body after,
        stretches text.toList = before ++ .comment ('/' :: '/' :: body) :: after ∧
          '\n' ∉ body ∧ StartsOff (· != '\n') (Stretch.text after) ∧
          line = 1 + (Stretch.text before).count '\n' ∧
            comment = commentText ('/' :: '/' :: body)) ∧
      ∀ left, Stretch.Leaves (stretches text.toList) left → ∃ others,
        lexemes (String.ofList left) = .ok others ∧
          others.map Lexeme.token = all.map Lexeme.token ∧ comments (String.ofList left) = [] := by
  have hlexes : Lexes text.toList (all.map Lexeme.token) := lexes_iff.mpr ⟨all, h, rfl⟩
  refine ⟨text_stretches _, fun line comment => ?_, fun left hleft => ?_⟩
  · rw [hlexes.comments_eq, Stretch.mem_comments]
    constructor
    · rintro ⟨before, spelling, after, hstretches, heq⟩
      obtain ⟨rfl, rfl⟩ := Prod.mk.inj heq
      obtain ⟨body, rfl, hline, hends⟩ := hlexes.noted.ends _ _ _ hstretches
      rw [List.append_nil] at hends
      exact ⟨before, body, after, hstretches, hline, hends, rfl, rfl⟩
    · rintro ⟨before, body, after, hstretches, -, -, rfl, rfl⟩
      exact ⟨before, _, after, hstretches, rfl⟩
  · obtain ⟨hleft, hcode, -⟩ := hlexes.leaves hleft
    have hagain : Lexes (String.ofList left).toList (all.map Lexeme.token) := by
      rwa [String.toList_ofList]
    obtain ⟨others, hothers, htokens⟩ := lexes_iff.mp hagain
    refine ⟨others, hothers, htokens, ?_⟩
    rw [hagain.comments_eq, String.toList_ofList, Stretch.comments_of_isCode hcode]

/-- The two strokes of a division and of a string are no comment; in one, a quote is none.
The carriage return is kept with its line break. -/
theorem comments_of_lexemes_quoted :
    ∃ all, lexemes "x/\"//\" // '\r\n" = .ok all ∧ (1, "// '") ∈ comments "x/\"//\" // '\r\n" ∧
      ∃ others, lexemes "x/\"//\" \r\n" = .ok others ∧
        others.map Lexeme.token = all.map Lexeme.token ∧
        comments "x/\"//\" \r\n" = [] := by
  have hlexemes : lexemes "x/\"//\" // '\r\n" = .ok
      [⟨⟨.identifier, "x"⟩, ⟨1, 1, 0⟩⟩, ⟨⟨.operator .divide, "/"⟩, ⟨1, 2, 1⟩⟩,
        ⟨⟨.literal .string, "\"//\""⟩, ⟨1, 3, 2⟩⟩, ⟨.newline, ⟨1, 13, 12⟩⟩] := by decide +kernel
  let before : List Stretch := [.code [], .code ['x'], .code [], .code ['/'], .code [],
    .code ['"', '/', '/', '"'], .code [' ']]
  have hstretches : stretches "x/\"//\" // '\r\n".toList =
      before ++ .comment ('/' :: '/' :: [' ', '\'', '\r']) ::
        [.code ['\n'], .code []] := by decide +kernel
  obtain ⟨-, hcomments, hleft⟩ := comments_of_lexemes hlexemes
  refine ⟨_, hlexemes, (hcomments 1 "// '").mpr ?_, ?_⟩
  · exact ⟨before, _, _, hstretches, by decide, by rintro _ ⟨⟩; rfl, by decide, by decide⟩
  · refine hleft "x/\"//\" \r\n".toList ?_
    rw [hstretches]
    have hend : Stretch.Leaves [.comment (['/', '/', ' ', '\''] ++ ['\r']), .code ['\n'], .code []]
        ['\r', '\n'] := .comment (fun c hc => List.mem_singleton.mp hc) (.code (.code .nil))
    exact .code (.code (.code (.code (.code (.code (.code hend))))))

end Mapsmith.Script
