import Mapsmith.Proofs.Script.Tiling

/-!
# Lines by where they start

`lexemes_tile`: positions can be kept without going over every character: it is enough to know
the number of the line and the offset that it starts at. The column is then the length of what
the text has between that offset and the present one, and the line starts anew after the last
line break of each token. A lexer and a parser that do this, and that look for the last line
break of the whole text when they fail at its end, find the same tokens and the same errors,
and never take a part of the text that cuts a character.
-/

namespace Mapsmith.Script

-- ---------------------------------------------------------------------------
-- Parts of a text
-- ---------------------------------------------------------------------------

/-- The text up to so many bytes and from there on, if no character is cut. -/
def splitBytes? : List Char → Nat → Option (List Char × List Char)
  | text, 0 => some ([], text)
  | [], _ + 1 => none
  | c :: rest, n + 1 =>
    if c.utf8Size ≤ n + 1 then
      (splitBytes? rest (n + 1 - c.utf8Size)).map fun (front, back) => (c :: front, back)
    else none

def slice? (text : List Char) (start stop : Nat) : Option (List Char) := do
  let (_, ahead) ← splitBytes? text start
  if start ≤ stop then
    let (part, _) ← splitBytes? ahead (stop - start)
    return part
  else none

def lastBreak? : List Char → Option Nat
  | [] => none
  | c :: rest =>
    match lastBreak? rest with
    | some offset => some (offset + c.utf8Size)
    | none => if c = '\n' then some 0 else none

theorem splitBytes?_append (front back : List Char) :
    splitBytes? (front ++ back) (String.utf8Len front) = some (front, back) := by
  induction front with
  | nil => simp [splitBytes?]
  | cons c front ih =>
    obtain ⟨n, hn⟩ := Nat.exists_eq_add_one_of_ne_zero (Nat.ne_of_gt c.utf8Size_pos)
    have hlen : String.utf8Len (c :: front) = String.utf8Len front + n + 1 := by
      rw [String.utf8Len_cons, hn]
      omega
    rw [List.cons_append, hlen, splitBytes?, if_pos (by omega), hn, Nat.add_assoc,
      Nat.add_sub_cancel, ih]
    rfl

theorem slice?_append (before part rest : List Char) :
    slice? (before ++ part ++ rest) (String.utf8Len before) (String.utf8Len (before ++ part)) =
      some part := by
  rw [List.append_assoc, slice?, splitBytes?_append]
  simp [String.utf8Len_append, splitBytes?_append]

theorem lastBreak?_of_notMem (h : '\n' ∉ line) : lastBreak? line = none := by
  induction line with
  | nil => rfl
  | cons c line ih =>
    obtain ⟨hc, hline⟩ := not_or.mp (mt List.mem_cons.mpr h)
    rw [lastBreak?, ih hline]
    exact if_neg (Ne.symm hc)

theorem lastBreak?_append_break (h : '\n' ∉ line) (before : List Char) :
    lastBreak? (before ++ '\n' :: line) = some (String.utf8Len before) := by
  induction before with
  | nil => simp [lastBreak?, lastBreak?_of_notMem h]
  | cons c before ih => simp [lastBreak?, ih, String.utf8Len_cons]

theorem exists_last_break (text : List Char) :
    '\n' ∉ text ∨ ∃ before line, text = before ++ '\n' :: line ∧ '\n' ∉ line := by
  induction text with
  | nil => exact .inl (by simp)
  | cons c text ih =>
    obtain h | ⟨before, line, rfl, hline⟩ := ih
    · by_cases hc : c = '\n'
      · exact .inr ⟨[], text, by rw [hc]; rfl, h⟩
      · exact .inl (by simp [Ne.symm hc, h])
    · exact .inr ⟨c :: before, line, rfl, hline⟩

-- ---------------------------------------------------------------------------
-- Line starts
-- ---------------------------------------------------------------------------

structure LineStart where
  number : Nat
  start : Nat

def LineStart.after (line : LineStart) (offset : Nat) (spelling : List Char) : LineStart :=
  match lastBreak? spelling with
  | some last => ⟨line.number + spelling.count '\n', offset + last + 1⟩
  | none => line

def LineStart.last (text : List Char) : LineStart :=
  ⟨text.count '\n' + 1, ((lastBreak? text).map (· + 1)).getD 0⟩

def LineStart.position? (line : LineStart) (text : List Char) (offset : Nat) : Option Position :=
  (slice? text line.start offset).map fun passed => ⟨line.number, passed.length + 1, offset⟩

/-- It is the line in which some text ends. -/
structure LineStart.Ends (line : LineStart) (before : List Char) : Prop where
  number : line.number = before.count '\n' + 1
  start : ∃ lines, before = lines ++ lastLine before ∧ line.start = String.utf8Len lines

theorem ends_nil : LineStart.Ends ⟨1, 0⟩ [] := ⟨rfl, [], rfl, rfl⟩

theorem LineStart.Ends.append {line : LineStart} (h : line.Ends before) (hpart : '\n' ∉ part) :
    line.Ends (before ++ part) := by
  obtain ⟨lines, hlines, hstart⟩ := h.start
  refine ⟨?_, lines, ?_, hstart⟩
  · rw [h.number, List.count_append, List.count_eq_zero_of_not_mem hpart, Nat.add_zero]
  · rw [lastLine_append hpart, ← List.append_assoc, ← hlines]

theorem LineStart.Ends.after {line : LineStart} (h : line.Ends before) (spelling : List Char) :
    (line.after (String.utf8Len before) spelling).Ends (before ++ spelling) := by
  obtain hnone | ⟨front, last, rfl, hlast⟩ := exists_last_break spelling
  · rw [LineStart.after, lastBreak?_of_notMem hnone]
    exact h.append hnone
  · rw [LineStart.after, lastBreak?_append_break hlast]
    refine ⟨?_, before ++ front ++ ['\n'], ?_, ?_⟩
    · simp only [h.number, List.count_append]
      omega
    · rw [← List.append_assoc, lastLine_append_break hlast]
      simp
    · have hsize : '\n'.utf8Size = 1 := rfl
      simp [String.utf8Len_append, String.utf8Len_cons, hsize, Nat.add_assoc]

/-- The last line of a text is the one that would have been kept to its end. -/
theorem LineStart.last_eq_after (text : List Char) :
    LineStart.last text = LineStart.after ⟨1, 0⟩ 0 text := by
  obtain hnone | ⟨front, line, rfl, hline⟩ := exists_last_break text
  · simp [LineStart.last, LineStart.after, lastBreak?_of_notMem hnone,
      List.count_eq_zero_of_not_mem hnone]
  · simp [LineStart.last, LineStart.after, lastBreak?_append_break hline, Nat.add_comm]

theorem LineStart.ends_last (text : List Char) : (LineStart.last text).Ends text := by
  rw [LineStart.last_eq_after]
  exact ends_nil.after text

theorem LineStart.Ends.position? {line : LineStart} {position : Position} (h : line.Ends before)
    (hp : position.Marks before) (ahead : List Char) :
    line.position? (before ++ ahead) (String.utf8Len before) = some position := by
  obtain ⟨lines, hlines, hstart⟩ := h.start
  have hslice := slice?_append lines (lastLine before) ahead
  rw [← hlines, ← hstart] at hslice
  rw [LineStart.position?, hslice, Option.map_some, h.number, ← hp.line, ← hp.column, ← hp.offset]

-- ---------------------------------------------------------------------------
-- The lexer with line starts
-- ---------------------------------------------------------------------------

def errorAt? (text : List Char) (fault : SyntaxFault) (position : Position) : Option SyntaxError :=
  (splitBytes? text position.offset).map fun (_, ahead) =>
    ⟨fault, position, (ahead.head?.map Char.utf8Size).getD 0⟩

/-- The tokens of the text ahead, where `line` is the line that it starts in and offsets
are told by what is left of the text. -/
def lexemesByLine (text : List Char) (line : LineStart) (ahead : List Char) (found : List Lexeme) :
    Option (Except SyntaxError (List Lexeme)) :=
  match _h : ahead.drop (gapLength ahead) with
  | [] => some (.ok found.reverse)
  | first :: rest =>
    let offset := String.utf8Len text - String.utf8Len (first :: rest)
    match line.position? text offset with
    | none => none
    | some position =>
      match lexemeRest? first rest with
      | none => (errorAt? text .unexpectedCharacter position).map .error
      | some (kind, n) =>
        let spelling := first :: rest.take n
        lexemesByLine text (line.after offset spelling) (rest.drop n)
          (⟨⟨kind, tokenText kind spelling⟩, position⟩ :: found)
termination_by ahead.length
decreasing_by
  have h := congrArg List.length ‹_›
  simp at h ⊢
  omega

theorem Gap.newline_notMem (h : Gap text gap rest) : '\n' ∉ Stretch.text gap := by
  have hblank {blanks : List Char} (hblanks : ∀ c ∈ blanks, isBlank c = true) : '\n' ∉ blanks :=
    fun hmem => by cases hblanks _ hmem
  cases h with
  | blank _ hblanks => simpa [Stretch.chars] using hblank hblanks
  | comment _ hblanks hbody =>
    have hbody : '\n' ∉ _ := fun hmem => hbody _ hmem rfl
    simpa [Stretch.chars] using And.intro (hblank hblanks) hbody

theorem SyntaxError.Points.errorAt? {error : SyntaxError} (h : error.Points text) :
    errorAt? text error.fault error.position = some error := by
  obtain ⟨before, ahead, rfl, hmarks, hspan⟩ := h
  rw [Script.errorAt?, hmarks.offset, splitBytes?_append]
  simp only [Option.map_some, ← hspan]

theorem lexemesByLine_done (h : ahead.drop (gapLength ahead) = []) :
    lexemesByLine text line ahead found = some (.ok found.reverse) := by
  rw [lexemesByLine]
  split
  · rfl
  · rename_i hmore
    cases hmore.symm.trans h

theorem lexemesByLine_more (h : ahead.drop (gapLength ahead) = first :: rest)
    (hposition : line.position? text (String.utf8Len text - String.utf8Len (first :: rest)) =
      some position) :
    lexemesByLine text line ahead found =
      match lexemeRest? first rest with
      | none => (errorAt? text .unexpectedCharacter position).map .error
      | some (kind, n) =>
        lexemesByLine text
          (line.after (String.utf8Len text - String.utf8Len (first :: rest)) (first :: rest.take n))
          (rest.drop n) (⟨⟨kind, tokenText kind (first :: rest.take n)⟩, position⟩ :: found) := by
  rw [lexemesByLine]
  split
  · rename_i hdone
    cases hdone.symm.trans h
  · rename_i hmore
    obtain ⟨rfl, rfl⟩ := List.cons.inj (hmore.symm.trans h)
    simp only [hposition]

theorem position?_lexeme {line : LineStart} {position : Position} (hl : line.Ends before)
    (hp : position.Marks before) (h : ahead.drop (gapLength ahead) = rest) :
    let passed := before ++ ahead.take (gapLength ahead)
    before ++ ahead = passed ++ rest ∧ line.Ends passed ∧
      String.utf8Len (before ++ ahead) - String.utf8Len rest = String.utf8Len passed ∧
      line.position? (before ++ ahead) (String.utf8Len passed) =
        some (position.after (ahead.take (gapLength ahead))) := by
  have htext : before ++ ahead = before ++ ahead.take (gapLength ahead) ++ rest := by
    rw [← h, List.append_assoc, List.take_append_drop]
  have hends : line.Ends (before ++ ahead.take (gapLength ahead)) := by
    rw [take_gapLength]
    exact hl.append (gap_gapStretches ahead).newline_notMem
  refine ⟨htext, hends, ?_, ?_⟩
  · rw [htext, String.utf8Len_append, Nat.add_sub_cancel]
  · rw [htext]
    exact hends.position? (hp.after _) rest

/-- What is known of the line and what is known of the position stay in step, so that the
two lexers find the same. -/
theorem lexemesByLine_eq {line : LineStart} {position : Position} (hl : line.Ends before)
    (hp : position.Marks before) (ahead : List Char) (found : List Lexeme) :
    lexemesByLine (before ++ ahead) line ahead found = some (lexemesFrom position ahead found) := by
  fun_induction lexemesFrom position ahead found generalizing before line with
  | case1 position ahead found gap =>
    rename_i hdrop
    exact lexemesByLine_done hdrop
  | case2 position ahead found gap start first rest =>
    rename_i hdrop hnone
    obtain ⟨htext, hends, hoffset, hposition⟩ := position?_lexeme hl hp hdrop
    rw [lexemesByLine_more hdrop (hoffset ▸ hposition), hnone]
    have hpoints :
        SyntaxError.Points ⟨.unexpectedCharacter, start, first.utf8Size⟩ (before ++ ahead) :=
      ⟨_, _, htext, hp.after _, rfl⟩
    exact congrArg (Option.map Except.error) hpoints.errorAt?
  | case3 position ahead found gap start first rest hdrop kind n =>
    rename_i hlexeme spelling ih
    obtain ⟨htext, hends, hoffset, hposition⟩ := position?_lexeme hl hp hdrop
    rw [lexemesByLine_more hdrop (hoffset ▸ hposition), hlexeme, hoffset]
    have hagain := ih (hends.after spelling) ((hp.after _).after spelling)
    have hsplit : spelling ++ rest.drop n = first :: rest := by simp [spelling]
    rwa [List.append_assoc, hsplit, ← htext] at hagain

-- ---------------------------------------------------------------------------
-- The parser with line starts
-- ---------------------------------------------------------------------------

def errorBefore? (text : List Char) (fault : SyntaxFault) : List Lexeme → Option SyntaxError
  | [] =>
    ((LineStart.last text).position? text (String.utf8Len text)).bind (errorAt? text fault)
  | lexeme :: _ => errorAt? text fault lexeme.position

def programByLine (text : List Char) : Option (Except SyntaxError Program) :=
  (lexemesByLine text ⟨1, 0⟩ text []).bind fun
    | .error error => some (.error error)
    | .ok all =>
      match Grammar.program all with
      | .ok program _ => some (.ok program)
      | .error fault rest => (errorBefore? text fault rest).map .error

theorem lexemesByLine_lexemes (text : String) :
    lexemesByLine text.toList ⟨1, 0⟩ text.toList [] = some (lexemes text) :=
  lexemesByLine_eq ends_nil marks_start text.toList []

theorem errorBefore?_eq (hall : lexemes text = .ok all) (hrest : rest <:+ all)
    (fault : SyntaxFault) :
    errorBefore? text.toList fault rest = some (.before text fault rest) := by
  have hpoints := (points_before hall hrest fault).errorAt?
  cases rest with
  | cons lexeme rest => exact hpoints
  | nil =>
    have hmarks : (Position.start.after text.toList).Marks text.toList := marks_start.after _
    have hposition := (LineStart.ends_last text.toList).position? hmarks []
    rw [List.append_nil] at hposition
    rw [errorBefore?, hposition]
    exact hpoints

theorem programByLine_ofText (text : String) :
    programByLine text.toList = some (Program.ofText text) := by
  rw [programByLine, lexemesByLine_lexemes]
  cases hall : lexemes text with
  | error error =>
    rw [Program.ofText, hall]
    rfl
  | ok all =>
    simp only [Option.bind_some, Program.ofText, hall, bind, Except.bind]
    cases hrun : Grammar.program all with
    | ok program rest => rfl
    | error fault rest =>
      have htracks := Grammar.tracks_program all
      rw [hrun] at htracks
      exact congrArg (Option.map Except.error) (errorBefore?_eq hall htracks.error_suffix fault)

/-- The tokens of a text tile it, and no two runs of line breaks are neighbours. Errors of
the lexer and of the parser point into the text. A lexer and a parser that know lines by
where they start find the same and do not fail otherwise. -/
theorem lexemes_tile :
    (∀ text all, lexemes text = .ok all →
      Tiles [] text.toList all ∧ Apart (all.map Lexeme.token)) ∧
    (∀ text error, lexemes text = .error error → error.Points text.toList) ∧
    (∀ text error, Program.ofText text = .error error → error.Points text.toList) ∧
    ∀ text : String, lexemesByLine text.toList ⟨1, 0⟩ text.toList [] = some (lexemes text) ∧
      programByLine text.toList = some (Program.ofText text) := by
  refine ⟨fun text all h => ⟨tiles_of_lexemes h, ?_⟩, fun _ _ => points_of_lexemes,
    fun _ _ => points_of_ofText,
      fun text => ⟨lexemesByLine_lexemes text, programByLine_ofText text⟩⟩
  exact (lexes_iff.mpr ⟨all, h, rfl⟩).apart

/-- A string over two lines, a comment with a character of two bytes before a carriage
return, and a line of blanks. -/
def uneven : String := "\"é\n\" // é\r\n\t\n x"

def unevenTokens : List Lexeme :=
  [⟨⟨.literal .string, "\"é\n\""⟩, ⟨1, 1, 0⟩⟩, ⟨.newline, ⟨2, 8, 12⟩⟩,
    ⟨.identifier "x", ⟨4, 2, 16⟩⟩]

/-- The tokens of the text, a character that no token starts with after a code over two
lines, and the end of a text after a line break. -/
theorem lexemes_tile_uneven :
    (lexemes uneven = .ok unevenTokens ∧ Tiles [] uneven.toList unevenTokens) ∧
    (lexemes "x\n'\n' é" = .error ⟨.unexpectedCharacter, ⟨3, 3, 6⟩, 2⟩ ∧
      SyntaxError.Points ⟨.unexpectedCharacter, ⟨3, 3, 6⟩, 2⟩ "x\n'\n' é".toList) ∧
    Program.ofText "globals // é\n" = .error ⟨.unexpected .type none, ⟨2, 1, 14⟩, 0⟩ ∧
      SyntaxError.Points ⟨.unexpected .type none, ⟨2, 1, 14⟩, 0⟩ "globals // é\n".toList := by
  have huneven : lexemes uneven = .ok unevenTokens := by decide +kernel
  have hcharacter : lexemes "x\n'\n' é" = .error ⟨.unexpectedCharacter, ⟨3, 3, 6⟩, 2⟩ := by
    decide +kernel
  have hglobals : lexemes "globals // é\n" =
      .ok [⟨.keyword .globals, ⟨1, 1, 0⟩⟩, ⟨.newline, ⟨1, 13, 13⟩⟩] := by decide +kernel
  have hend : Program.ofText "globals // é\n" = .error ⟨.unexpected .type none, ⟨2, 1, 14⟩, 0⟩ :=
    (Program.ofText_error hglobals).mpr ⟨_, _, rfl, by decide⟩
  obtain ⟨htiles, hlexer, hparser, -⟩ := lexemes_tile
  exact ⟨⟨huneven, (htiles _ _ huneven).1⟩, ⟨hcharacter, hlexer _ _ hcharacter⟩, hend,
    hparser _ _ hend⟩

end Mapsmith.Script
