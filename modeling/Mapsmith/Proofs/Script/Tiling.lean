import Mapsmith.Proofs.Script.Offending
import Mapsmith.Proofs.Script.Stretches

/-!
# Tokens tile the text

`points_of_ofText`: a text that lexes is gaps and spellings of its tokens in turn, and nothing
else. The position of a token tells what stands before it: how many lines, how many characters
of its own line, how many bytes. Errors tell the same of the place that they are found at.
-/

namespace Mapsmith.Script

-- ---------------------------------------------------------------------------
-- Last lines
-- ---------------------------------------------------------------------------

def lastLine (text : List Char) : List Char := (text.reverse.takeWhile (· != '\n')).reverse

theorem lastLine_append (h : '\n' ∉ line) (before : List Char) :
    lastLine (before ++ line) = lastLine before ++ line := by
  have hall : ∀ c ∈ line.reverse, (c != '\n') = true := by
    simp only [List.mem_reverse, bne_iff_ne, ne_eq]
    rintro c hc rfl
    exact h hc
  rw [lastLine, List.reverse_append, List.takeWhile_append_of_pos hall, List.reverse_append,
    List.reverse_reverse, lastLine]

theorem lastLine_append_break (h : '\n' ∉ line) (before : List Char) :
    lastLine (before ++ '\n' :: line) = line := by
  rw [List.append_cons, lastLine_append h]
  simp [lastLine]

-- ---------------------------------------------------------------------------
-- Positions
-- ---------------------------------------------------------------------------

/-- The position is that of the place after some text. -/
structure Position.Marks (position : Position) (before : List Char) : Prop where
  line : position.line = before.count '\n' + 1
  column : position.column = (lastLine before).length + 1
  offset : position.offset = String.utf8Len before

theorem marks_start : Position.start.Marks [] := ⟨rfl, rfl, rfl⟩

theorem Position.Marks.advance {position : Position} (h : position.Marks before) (c : Char) :
    (position.advance c).Marks (before ++ [c]) := by
  have hoffset : position.offset + c.utf8Size = String.utf8Len (before ++ [c]) := by
    simp [String.utf8Len_append, String.utf8Len_cons, h.offset]
  by_cases hc : c = '\n'
  · subst hc
    have hlast : lastLine (before ++ ['\n']) = [] := lastLine_append_break (by simp) before
    exact ⟨by simp [Position.advance, h.line], by simp [Position.advance, hlast], hoffset⟩
  · have hlast : lastLine (before ++ [c]) = lastLine before ++ [c] :=
      lastLine_append (by simpa using Ne.symm hc) before
    rw [Position.advance, if_neg hc]
    exact ⟨by simp [h.line, hc], by simp [h.column, hlast], hoffset⟩

theorem Position.Marks.after {position : Position} (h : position.Marks before) (text : List Char) :
    (position.after text).Marks (before ++ text) := by
  induction text generalizing position before with
  | nil =>
    rw [List.append_nil]
    exact h
  | cons c text ih =>
    rw [List.append_cons]
    exact ih (h.advance c)

-- ---------------------------------------------------------------------------
-- Spellings
-- ---------------------------------------------------------------------------

/-- A run of line breaks, with nothing but gaps between each two. -/
inductive Breaks : List Char → Prop
  | single : Breaks ['\n']
  | more {ahead gap rest} : Gap ahead gap rest → Breaks rest → Breaks ('\n' :: ahead)

/-- A token stands for the text: line breaks for a run of them, any other token for its own
text. -/
inductive Spells : List Char → Token → Prop
  | breaks {spelling} : Breaks spelling → Spells spelling .newline
  | verbatim {token : Token} : token.kind ≠ .newline → Spells token.text.toList token

theorem Gap.break_congr (h : Gap text gap ('\n' :: rest)) (other : List Char) :
    Gap (Stretch.text gap ++ '\n' :: other) gap ('\n' :: other) := by
  have hhead {p : Char → Bool} (hp : StartsOff p ('\n' :: rest)) : StartsOff p ('\n' :: other) := by
    rintro _ ⟨⟩
    exact hp.ne_cons
  cases h with
  | blank _ hblanks hrest _ => exact .blank (by simp [Stretch.chars]) hblanks (hhead hrest) rfl
  | comment _ hblanks hbody hrest =>
    exact .comment (by simp [Stretch.chars]) hblanks hbody (hhead hrest)

theorem breaks_runStretches (text : List Char) :
    Breaks ('\n' :: Stretch.text (runStretches text)) := by
  fun_induction runStretches text with
  | case1 text rest hdrop ih =>
    have hgap := gap_gapStretches text
    rw [hdrop] at hgap
    rw [Stretch.text_append, Stretch.text_cons]
    exact .more (hgap.break_congr _) ih
  | case2 => exact .single

theorem LexemeAt.spells (h : LexemeAt first rest kind n) :
    Spells (first :: rest.take n) ⟨kind, tokenText kind (first :: rest.take n)⟩ := by
  by_cases hkind : kind = .newline
  · subst hkind
    obtain ⟨rfl, rfl⟩ := h.of_newline
    rw [take_lineBreaks]
    exact .breaks (breaks_runStretches rest)
  · have hspells : Spells _ ⟨kind, String.ofList (first :: rest.take n)⟩ := .verbatim hkind
    rw [tokenText, if_neg hkind]
    rwa [String.toList_ofList] at hspells

-- ---------------------------------------------------------------------------
-- Tilings
-- ---------------------------------------------------------------------------

/-- The text ahead is gaps and spellings of the tokens in turn, a gap first and last, and
each token stands after what is before it. -/
inductive Tiles : (before ahead : List Char) → List Lexeme → Prop
  | done {before ahead gap} : Gap ahead gap [] → Tiles before ahead []
  | more {before ahead gap spelling rest} {lexeme : Lexeme} {later} :
      Gap ahead gap (spelling ++ rest) → Spells spelling lexeme.token →
      lexeme.position.Marks (before ++ Stretch.text gap) →
      Tiles (before ++ Stretch.text gap ++ spelling) rest later →
      Tiles before ahead (lexeme :: later)

/-- The error is found at a character of the text or at its end, and spans that character
or nothing. -/
def SyntaxError.Points (error : SyntaxError) (text : List Char) : Prop :=
  ∃ before ahead, text = before ++ ahead ∧ error.position.Marks before ∧
    error.span = (ahead.head?.map Char.utf8Size).getD 0

theorem take_gapLength (text : List Char) :
    text.take (gapLength text) = Stretch.text (gapStretches text) := by
  have htext := (gap_gapStretches text).text_append
  exact List.append_cancel_right ((List.take_append_drop _ text).trans htext.symm)

theorem tiles_of_lexemesFrom {position : Position} (hp : position.Marks before)
    (h : lexemesFrom position ahead found = .ok all) :
    ∃ others, all = found.reverse ++ others ∧ Tiles before ahead others := by
  fun_induction lexemesFrom position ahead found generalizing before with
  | case1 position ahead found gap =>
    rename_i hdrop
    cases h
    exact ⟨[], by simp, .done (hdrop ▸ gap_gapStretches ahead)⟩
  | case2 => cases h
  | case3 position ahead found gap start first rest hdrop kind n hlexeme spelling =>
    rename_i ih
    have hgap := gap_gapStretches ahead
    have hsplit : ahead.drop gap = spelling ++ rest.drop n := by simp [hdrop, spelling]
    have hstart : start.Marks (before ++ Stretch.text (gapStretches ahead)) :=
      take_gapLength ahead ▸ hp.after _
    obtain ⟨others, rfl, htiles⟩ := ih (hstart.after spelling) h
    refine ⟨⟨⟨kind, tokenText kind spelling⟩, start⟩ :: others, by simp, ?_⟩
    exact .more (hsplit ▸ hgap) (lexemeRest?_iff.mp hlexeme).spells hstart htiles

theorem points_of_lexemesFrom {position : Position} (hp : position.Marks before)
    (h : lexemesFrom position ahead found = .error error) : error.Points (before ++ ahead) := by
  fun_induction lexemesFrom position ahead found generalizing before with
  | case1 => cases h
  | case2 position ahead found gap start first rest hdrop =>
    cases h
    refine ⟨before ++ ahead.take gap, first :: rest, ?_, hp.after _, rfl⟩
    rw [← hdrop, List.append_assoc, List.take_append_drop]
  | case3 position ahead found gap start first rest hdrop kind n hlexeme spelling =>
    rename_i ih
    have hsplit : ahead = ahead.take gap ++ (spelling ++ rest.drop n) := by
      rw [List.cons_append, List.take_append_drop, ← hdrop, List.take_append_drop]
    have hpoints := ih ((hp.after _).after spelling) h
    rwa [List.append_assoc, List.append_assoc, ← hsplit] at hpoints

theorem tiles_of_lexemes (h : lexemes text = .ok all) : Tiles [] text.toList all := by
  obtain ⟨others, rfl, htiles⟩ := tiles_of_lexemesFrom marks_start h
  exact htiles

-- ---------------------------------------------------------------------------
-- Errors of the grammar
-- ---------------------------------------------------------------------------

theorem LexemeAt.utf8Size_first (h : LexemeAt first input kind n) : first.utf8Size = 1 := by
  rw [Char.utf8Size_eq_one_iff, UInt32.le_iff_toNat_le]
  show first.toNat ≤ 127
  cases h with
  | newline h | string h | rawId h => subst h; decide
  | word h =>
    rw [isAlpha_iff] at h
    omega
  | number h =>
    obtain rfl | rfl | h := numberRest?_first h
    · decide
    · decide
    · rw [isDigit_iff] at h
      omega
  | sign h =>
    have hsmall : ∀ c ∈ signCharacters, c.toNat ≤ 127 := by simp [signCharacters]
    exact hsmall first (signRest?_first h)

theorem Spells.exists_first {token : Token} (h : Spells spelling token) (hlexed : token.Lexed) :
    ∃ first more, spelling = first :: more ∧ first.utf8Size = 1 := by
  cases h with
  | breaks h => cases h <;> exact ⟨_, _, rfl, rfl⟩
  | verbatim hkind =>
    obtain ⟨first, input, n, hlexeme, htext⟩ := hlexed
    rw [tokenText, if_neg hkind] at htext
    exact ⟨first, input.take n, by rw [htext, String.toList_ofList], hlexeme.utf8Size_first⟩

theorem Tiles.exists_of_mem (h : Tiles before ahead all) (hmem : lexeme ∈ all) :
    ∃ front spelling rest, before ++ ahead = front ++ (spelling ++ rest) ∧
      Spells spelling lexeme.token ∧ lexeme.position.Marks front := by
  induction h with
  | done => cases hmem
  | @more before ahead gap spelling rest first later hgap hspells hmarks _ ih =>
    have htext : before ++ ahead = before ++ Stretch.text gap ++ (spelling ++ rest) := by
      rw [List.append_assoc, hgap.text_append]
    obtain rfl | hmem := List.mem_cons.mp hmem
    · exact ⟨_, _, _, htext, hspells, hmarks⟩
    · obtain ⟨front, other, more, heq, hfound⟩ := ih hmem
      refine ⟨front, other, more, ?_, hfound⟩
      rw [htext, ← heq, List.append_assoc _ spelling]

theorem points_of_lexemes (h : lexemes text = .error error) : error.Points text.toList :=
  points_of_lexemesFrom marks_start h

theorem points_before (hall : lexemes text = .ok all) (hrest : rest <:+ all) (fault : SyntaxFault) :
    (SyntaxError.before text fault rest).Points text.toList := by
  cases rest with
  | nil =>
    refine ⟨text.toList, [], (List.append_nil _).symm, ?_, rfl⟩
    exact marks_start.after text.toList
  | cons lexeme rest =>
    have hmem : lexeme ∈ all := hrest.subset List.mem_cons_self
    have hlexed := (lexes_iff.mpr ⟨all, hall, rfl⟩).lexed _ (List.mem_map_of_mem hmem)
    obtain ⟨front, spelling, more, htext, hspells, hmarks⟩ :=
      (tiles_of_lexemes hall).exists_of_mem hmem
    obtain ⟨first, others, rfl, hsize⟩ := hspells.exists_first hlexed
    exact ⟨front, _, htext, hmarks, by simp [SyntaxError.before, hsize]⟩

theorem points_of_ofText (h : Program.ofText text = .error error) : error.Points text.toList := by
  cases hall : lexemes text with
  | error e =>
    obtain rfl : e = error := by
      rw [Program.ofText, hall] at h
      exact Except.error.inj h
    exact points_of_lexemes hall
  | ok all =>
    obtain ⟨fault, rest, hrun, rfl⟩ := (Program.ofText_error hall).mp h
    have htracks := Grammar.tracks_program all
    rw [hrun] at htracks
    exact points_before hall htracks.error_suffix fault

end Mapsmith.Script
