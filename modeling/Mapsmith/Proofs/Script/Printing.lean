import Mapsmith.Proofs.Script.Spacing

/-!
# Reading what was written

`lexes_text`: the text of a script is read as the tokens of its parts, if these may be written
after one another. Lines are indented and tokens are spaced, which the lexer does not see.
-/

namespace Mapsmith.Script

-- ---------------------------------------------------------------------------
-- Characters
-- ---------------------------------------------------------------------------

def afterChars : Piece → Line → List Char
  | _, [] => []
  | left, right :: rest =>
    (if spaced left right then [' '] else []) ++ (right.token.text.toList ++ afterChars right rest)

def lineChars (depth : Nat) : Line → List Char
  | [] => ['\n']
  | first :: rest => List.replicate (4 * indentation depth (first :: rest)) ' ' ++
      (first.token.text.toList ++ (afterChars first rest ++ ['\n']))

def linesChars : Nat → List Line → List Char
  | _, [] => []
  | depth, line :: rest => lineChars depth line ++ linesChars (depthAfter depth line) rest

theorem toList_writeAfter (written : String) (left : Piece) (line : Line) :
    (writeAfter written left line).toList = written.toList ++ afterChars left line := by
  induction line generalizing written left with
  | nil => simp [writeAfter, afterChars]
  | cons right rest ih =>
    rw [writeAfter, afterChars, ih]
    split <;> simp

theorem toList_indent (written : String) (n : Nat) :
    (Nat.repeat (· ++ "    ") n written).toList = written.toList ++ List.replicate (4 * n) ' ' := by
  induction n with
  | zero => simp [Nat.repeat]
  | succ n ih =>
    have hblanks : "    ".toList = List.replicate 4 ' ' := rfl
    rw [Nat.repeat, String.toList_append, ih, hblanks, List.append_assoc,
      List.replicate_append_replicate, Nat.mul_succ]

theorem toList_writeLine (written : String) (depth : Nat) (line : Line) :
    (writeLine written depth line).toList = written.toList ++ lineChars depth line := by
  have hbreak : "\n".toList = ['\n'] := rfl
  cases line with
  | nil => simp [writeLine, lineChars, hbreak]
  | cons first rest =>
    simp [writeLine, lineChars, hbreak, toList_writeAfter, toList_indent]

theorem toList_writeLines (written : String) (depth : Nat) (all : List Line) :
    (writeLines written depth all).toList = written.toList ++ linesChars depth all := by
  induction all generalizing written depth with
  | nil => simp [writeLines, linesChars]
  | cons line rest ih => rw [writeLines, linesChars, ih, toList_writeLine, List.append_assoc]

theorem toList_text (script : Script) : script.text.toList = linesChars 0 script.lines := by
  rw [text, toList_writeLines]
  rfl

-- ---------------------------------------------------------------------------
-- What a piece is read as
-- ---------------------------------------------------------------------------

/-- The token that a piece is read as: the kind of a word is settled by its letters. -/
def Piece.read (piece : Piece) : Token :=
  if piece.token.kind.isWord then ⟨.ofWord piece.token.text, piece.token.text⟩ else piece.token

theorem isWord_of_number (h : numberRest? first input = some (kind, n)) :
    (TokenKind.literal kind).isWord = false := by
  unfold numberRest? at h
  split at h
  · obtain ⟨_, -, ⟨⟩⟩ := Option.map_eq_some_iff.mp h
    rfl
  · repeat' split at h
    all_goals cases h <;> rfl

theorem isWord_of_sign (h : signRest? first input = some (kind, n)) : kind.isWord = false := by
  have hsigns : ∀ sign ∈ longSigns ++ shortSigns, sign.2.isWord = false := by decide
  refine hsigns (first, kind) (List.mem_append.mpr ?_)
  obtain ⟨_, -, hlong, -⟩ | ⟨hshort, -⟩ := signRest?_cases h
  · exact .inl hlong
  · exact .inr hshort

theorem LexemeAt.ofWord (h : LexemeAt first input kind n) (hword : kind.isWord = true) :
    kind = .ofWord (String.ofList (first :: input.take n)) := by
  cases h with
  | newline | string | rawId => cases hword
  | word => rfl
  | number h => rw [isWord_of_number h] at hword; cases hword
  | sign h => rw [isWord_of_sign h] at hword; cases hword

namespace Piece

variable {piece left right : Piece}

theorem text_read (piece : Piece) : piece.read.text = piece.token.text := by
  unfold read
  split <;> rfl

theorem read_of_isWord (h : piece.token.kind.isWord = true) :
    piece.read = ⟨.ofWord piece.token.text, piece.token.text⟩ := if_pos h

theorem read_of_not_isWord (h : ¬ piece.token.kind.isWord = true) : piece.read = piece.token :=
  if_neg h

theorem read_ne_newline (h : piece.token.kind ≠ .newline) : piece.read.kind ≠ .newline := by
  by_cases hword : piece.token.kind.isWord = true
  · rw [read_of_isWord hword]
    exact ofWord_ne_newline _
  · rwa [read_of_not_isWord hword]

theorem read_ofToken {token : Token} (h : token.Lexed) : (ofToken token).read = token := by
  by_cases hword : token.kind.isWord = true
  · obtain ⟨first, input, n, hlexeme, htext⟩ := h
    have hkind := hlexeme.ofWord hword
    have hne : token.kind ≠ .newline := hkind ▸ ofWord_ne_newline _
    rw [tokenText, if_neg hne] at htext
    rw [read_of_isWord hword]
    show (⟨.ofWord token.text, token.text⟩ : Token) = token
    rw [htext, ← hkind, ← htext]
  · exact read_of_not_isWord hword

theorem read_newline (h : piece.token.kind = .newline) (hlexed : piece.read.Lexed) :
    piece.read = .newline := by
  have hread : piece.read = piece.token := read_of_not_isWord (by simp [h, TokenKind.isWord])
  exact hlexed.canonical.eq Token.fixed_newline.canonical (by rw [hread, h]; rfl) trivial

end Piece

/-- A word keeps apart from signs only. -/
theorem TokenKind.apart_of_isWord {left : TokenKind} (h : left.isWord = true) (right : TokenKind) :
    left.apart right = right.isSign := by
  cases left with
  | literal kind => cases kind <;> first | rfl | cases h
  | operator op => cases op <;> first | rfl | cases h
  | builtin | keyword | identifier => rfl
  | assign | delimiter | newline => cases h

theorem TokenKind.apart_word (left : TokenKind) {right : TokenKind} (h : right.isWord = true) :
    left.apart right = left.apart .identifier := by
  have hne (kind : TokenKind) (hk : kind.isWord = false) : right ≠ kind := by
    rintro rfl
    rw [h] at hk
    cases hk
  have hdivide : (right != .operator .divide) = true := bne_iff_ne.mpr (hne _ rfl)
  have hequals : (right != .assign && right != .operator .equal) = true :=
    Bool.and_eq_true_iff.mpr ⟨bne_iff_ne.mpr (hne _ rfl), bne_iff_ne.mpr (hne _ rfl)⟩
  have hsign : right.isSign = false := not_isSign_of_isWord h
  cases left with
  | literal kind => cases kind <;> first | rfl | exact hsign
  | operator op => cases op <;> first | rfl | exact hsign | exact hdivide | exact hequals
  | assign => exact hequals
  | builtin | keyword | identifier => exact hsign
  | delimiter | newline => rfl

theorem Piece.apart_read (left right : Piece) :
    left.read.kind.apart right.read.kind = left.token.kind.apart right.token.kind := by
  have hright (kind : TokenKind) : kind.apart right.read.kind = kind.apart right.token.kind := by
    by_cases hword : right.token.kind.isWord = true
    · rw [read_of_isWord hword, TokenKind.apart_word kind (ofWord_isWord _),
        TokenKind.apart_word kind hword]
    · rw [read_of_not_isWord hword]
  rw [hright]
  by_cases hword : left.token.kind.isWord = true
  · rw [read_of_isWord hword, TokenKind.apart_of_isWord (ofWord_isWord _),
      TokenKind.apart_of_isWord hword]
  · rw [read_of_not_isWord hword]

-- ---------------------------------------------------------------------------
-- Lines
-- ---------------------------------------------------------------------------

/-- Each piece may be written after the one before it. -/
def Chained (part : List Piece) : Prop := part.IsChain fun left right => adjoins left right = true

/-- What a line has to be if it is to be read as its pieces and a line break. -/
structure Readable (line : Line) : Prop where
  ne_nil : line ≠ []
  chained : Chained line
  ne_newline : ∀ piece ∈ line, piece.token.kind ≠ .newline
  lexed : ∀ piece ∈ line, piece.read.Lexed

/-- What stands for a line or a part. -/
def tokensOf (line : Line) : List Token := line.map Piece.read ++ [.newline]

theorem goesOn_blank (kind : TokenKind) : kind.goesOn ' ' = false ∧ kind.goesOn '\n' = false := by
  cases kind with
  | literal kind => cases kind <;> exact ⟨rfl, rfl⟩
  | operator op => cases op <;> exact ⟨rfl, rfl⟩
  | _ => exact ⟨rfl, rfl⟩

theorem spaced_or_apart {left right : Piece} (h : adjoins left right = true)
    (hleft : left.token.kind ≠ .newline) (hright : right.token.kind ≠ .newline) :
    spaced left right = true ∨ left.read.kind.apart right.read.kind = true := by
  rwa [adjoins, if_neg (not_or.mpr ⟨hleft, hright⟩), Bool.or_eq_true, ← Piece.apart_read] at h

/-- A token does not go on with one that it keeps apart from. -/
theorem Token.Lexed.startsOff {token : Token} (h : token.Lexed) (hne : token.kind ≠ .newline)
    {left : TokenKind} (hapart : left.apart token.kind = true) (rest : List Char) :
    StartsOff left.goesOn (token.text.toList ++ rest) := by
  obtain ⟨first, input, n, hlexeme, htext⟩ := h
  rw [htext, tokenText, if_neg hne, String.toList_ofList]
  rintro _ ⟨⟩
  exact goesOn_of_apart hlexeme hapart

theorem startsOff_after {left : Piece} {line : Line} (hchain : Chained (left :: line))
    (hne : ∀ piece ∈ left :: line, piece.token.kind ≠ .newline)
    (hlexed : ∀ piece ∈ line, piece.read.Lexed) (rest : List Char) :
    StartsOff left.read.kind.goesOn (afterChars left line ++ '\n' :: rest) := by
  cases line with
  | nil =>
    rintro _ ⟨⟩
    exact (goesOn_blank _).2
  | cons right line =>
    obtain ⟨hleft, hright, -⟩ := List.forall_mem_cons.mp hne |>.imp_right List.forall_mem_cons.mp
    obtain ⟨hlexed, -⟩ := List.forall_mem_cons.mp hlexed
    obtain ⟨hadjoins, -⟩ := List.isChain_cons_cons.mp hchain
    rw [afterChars, ← right.text_read]
    by_cases hspaced : spaced left right = true
    · rw [if_pos hspaced]
      rintro _ ⟨⟩
      exact (goesOn_blank _).1
    · have hapart := (spaced_or_apart hadjoins hleft hright).resolve_left hspaced
      rw [if_neg hspaced, List.nil_append, List.append_assoc]
      exact hlexed.startsOff (Piece.read_ne_newline hright) hapart _

theorem lexes_after {left : Piece} {line : Line} (hchain : Chained (left :: line))
    (hne : ∀ piece ∈ left :: line, piece.token.kind ≠ .newline)
    (hlexed : ∀ piece ∈ line, piece.read.Lexed) (h : Lexes ('\n' :: rest) others) :
    Lexes (afterChars left line ++ '\n' :: rest) (line.map Piece.read ++ others) := by
  induction line generalizing left with
  | nil => exact h
  | cons right line ih =>
    obtain ⟨-, hchain⟩ := List.isChain_cons_cons.mp hchain
    obtain ⟨-, hne⟩ := List.forall_mem_cons.mp hne
    obtain ⟨hright, hlexed⟩ := List.forall_mem_cons.mp hlexed
    have hnext := Lexes.cons hright (Piece.read_ne_newline (hne right List.mem_cons_self))
      (startsOff_after hchain hne hlexed rest) (ih hchain hne hlexed)
    rw [afterChars, ← right.text_read, List.append_assoc, List.append_assoc]
    refine Lexes.blanks (fun c hc => ?_) hnext
    split at hc
    · cases List.mem_singleton.mp hc
      rfl
    · cases hc

theorem Readable.lexes {line : Line} (hline : Readable line) (h : Lexes rest others)
    (hothers : ∀ token ∈ others.head?, token.kind ≠ .newline) (depth : Nat) :
    Lexes (lineChars depth line ++ rest) (tokensOf line ++ others) := by
  obtain ⟨hnil, hchain, hne, hlexed⟩ := hline
  cases line with
  | nil => exact absurd rfl hnil
  | cons first line =>
    obtain ⟨hfirst, hafter⟩ := List.forall_mem_cons.mp hlexed
    have hrest := lexes_after hchain hne hafter (h.newline hothers)
    have hnext := Lexes.cons hfirst (Piece.read_ne_newline (hne first List.mem_cons_self))
      (startsOff_after hchain hne hafter rest) hrest
    have hblanks : ∀ c ∈ List.replicate (4 * indentation depth (first :: line)) ' ',
        isBlank c = true := by
      intro c hc
      cases List.eq_of_mem_replicate hc
      rfl
    simpa [lineChars, tokensOf, Piece.text_read] using hnext.blanks hblanks

theorem lexes_lines {all : List Line} (h : ∀ line ∈ all, Readable line) (depth : Nat) :
    Lexes (linesChars depth all) (all.flatMap tokensOf) := by
  induction all generalizing depth with
  | nil => exact .done rfl
  | cons line rest ih =>
    obtain ⟨hline, hrest⟩ := List.forall_mem_cons.mp h
    refine hline.lexes (ih hrest _) ?_ depth
    -- The next line starts with a token, so the line break is not joined to another one.
    intro token htoken
    cases rest with
    | nil => cases htoken
    | cons next rest =>
      obtain ⟨hnext, -⟩ := List.forall_mem_cons.mp hrest
      obtain ⟨first, next, rfl⟩ := List.exists_cons_of_ne_nil hnext.ne_nil
      cases htoken
      exact Piece.read_ne_newline (hnext.ne_newline first List.mem_cons_self)

-- ---------------------------------------------------------------------------
-- Parts
-- ---------------------------------------------------------------------------

/-- What a part has to be if its lines are to be read as its pieces. -/
structure Neat (part : List Piece) : Prop where
  ne_nil : part ≠ []
  chained : Chained part
  head : ∀ piece ∈ part.head?, piece.token.kind ≠ .newline
  last : ∀ piece ∈ part.getLast?, piece.token.kind ≠ .newline

/-- A part is one line, or a line, a line break and a part. -/
theorem Neat.cases {part : List Piece} (h : Neat part) :
    (∀ piece ∈ part, piece.token.kind ≠ .newline) ∨ ∃ line sep rest, part = line ++ sep :: rest ∧
      line ≠ [] ∧ Chained line ∧ (∀ piece ∈ line, piece.token.kind ≠ .newline) ∧
      sep.token.kind = .newline ∧ Neat rest := by
  cases hfind : part.find? fun piece => piece.token.kind = .newline with
  | none => exact .inl (by simpa using hfind)
  | some sep =>
    obtain ⟨hsep, line, rest, rfl, hline⟩ := List.find?_eq_some_iff_append.mp hfind
    have hsep : sep.token.kind = .newline := by simpa using hsep
    obtain ⟨-, hchained, hhead, hlast⟩ := h
    obtain ⟨hchain, hchain', -⟩ := List.isChain_append.mp hchained
    have hnil : line ≠ [] := by
      rintro rfl
      exact hhead sep rfl hsep
    have hrest : rest ≠ [] := by
      rintro rfl
      exact hlast sep (by simp) hsep
    refine .inr ⟨line, sep, rest, rfl, hnil, hchain, by simpa using hline, hsep, hrest, ?_, ?_, ?_⟩
    · exact hchain'.tail
    · obtain ⟨next, rest, rfl⟩ := List.exists_cons_of_ne_nil hrest
      obtain ⟨hnext, -⟩ := List.isChain_cons_cons.mp hchain'
      rintro _ ⟨⟩ hkind
      simp [adjoins, hsep, hkind] at hnext
    · intro piece hpiece
      refine hlast piece ?_
      simp [List.getLast?_append, List.getLast?_cons, Option.mem_def.mp hpiece]

theorem readable_linesOf (part : List Piece) (h : Neat part)
    (hlexed : ∀ piece ∈ part, piece.read.Lexed) :
    (∀ line ∈ linesOf part, Readable line) ∧ (linesOf part).flatMap tokensOf = tokensOf part := by
  -- Up to the first line break the part is a line, and the rest of it is a shorter part.
  obtain hne | ⟨line, sep, rest, rfl, hnil, hchain, hne, hsep, hrest⟩ := h.cases
  · have hlines : linesOf part = [part] :=
      List.splitOnP_eq_singleton fun piece hp => decide_eq_false (hne piece hp)
    rw [hlines]
    exact ⟨by simpa using ⟨h.ne_nil, h.chained, hne, hlexed⟩, by simp⟩
  · have hlines : linesOf (line ++ sep :: rest) = line :: linesOf rest :=
      List.splitOnP_append_cons_of_forall_mem (fun piece hp => decide_eq_false (hne piece hp)) sep
        (decide_eq_true hsep) rest
    obtain ⟨hline, hlexed⟩ := List.forall_mem_append.mp hlexed
    obtain ⟨hbreak, hlexed⟩ := List.forall_mem_cons.mp hlexed
    obtain ⟨hreadable, htokens⟩ := readable_linesOf rest hrest hlexed
    rw [hlines, List.flatMap_cons, htokens]
    refine ⟨List.forall_mem_cons.mpr ⟨⟨hnil, hchain, hne, hline⟩, hreadable⟩, ?_⟩
    simp [tokensOf, Piece.read_newline hsep hbreak]
termination_by part.length

theorem lexes_text {script : Script} (h : ∀ part ∈ script.parts, Neat part)
    (hlexed : ∀ part ∈ script.parts, ∀ piece ∈ part, piece.read.Lexed) :
    Lexes script.text.toList (script.parts.flatMap tokensOf) := by
  have hpart (part : List Piece) (hp : part ∈ script.parts) :=
    readable_linesOf part (h part hp) (hlexed part hp)
  have htokens : script.lines.flatMap tokensOf = script.parts.flatMap tokensOf := by
    rw [lines, List.flatMap_assoc]
    exact List.flatMap_congr fun part hp => (hpart part hp).2
  rw [toList_text, ← htokens]
  refine lexes_lines (fun line hline => ?_) 0
  obtain ⟨part, hp, hline⟩ := List.mem_flatMap.mp hline
  exact (hpart part hp).1 line hline

end Mapsmith.Script
