import Mapsmith.Proofs.Outcome
import Mapsmith.Proofs.Script.Acceptance
import Mapsmith.Proofs.Script.Pieces

/-!
# Formatting a script

`lexemes_text_of_ofText`, `ofText_text_of_ofText`: the text of a script that was read has the
tokens of the program it was read from, in the order of the collections, and is read as the
same script. So formatting drops and adds nothing, and to format twice is to format once.
-/

namespace Mapsmith.Script

-- ---------------------------------------------------------------------------
-- Parts, line by line
-- ---------------------------------------------------------------------------

def lineOf (tokens : List Token) : List Token := tokens ++ [.newline]

/-- The parts are read as the tokens. -/
structure ShowsAll (parts : List (List Piece)) (tokens : List Token) : Prop where
  neat : ∀ part ∈ parts, Neat part
  lexed : ∀ part ∈ parts, ∀ piece ∈ part, piece.read.Lexed
  read : parts.flatMap tokensOf = tokens

theorem ShowsAll.nil : ShowsAll [] [] := ⟨nofun, nofun, rfl⟩

theorem ShowsAll.append (h : ShowsAll left before) (h' : ShowsAll right after) :
    ShowsAll (left ++ right) (before ++ after) where
  neat := List.forall_mem_append.mpr ⟨h.neat, h'.neat⟩
  lexed := List.forall_mem_append.mpr ⟨h.lexed, h'.lexed⟩
  read := by rw [List.flatMap_append, h.read, h'.read]

theorem Shows.all (h : Shows part tokens) (ht : ∀ token ∈ tokens, token.Lexed) :
    ShowsAll [part] (lineOf tokens) := by
  obtain ⟨hneat, rfl⟩ := h
  exact ⟨by simpa using hneat, by simpa using ht, by simp [tokensOf, lineOf]⟩

theorem showsAll_word {word : Keyword} (ht : (Token.keyword word).Lexed) :
    ShowsAll [[.keyword word]] (lineOf [.keyword word]) :=
  (shows_ofToken ht (keyword_ne_newline _)).all (by simpa using ht)

theorem showsAll_flatMap {items : List α} {parts : α → List (List Piece)} {tokens : α → List Token}
    (h : ∀ a ∈ items, ShowsAll (parts a) (tokens a)) :
    ShowsAll (items.flatMap parts) (items.flatMap tokens) := by
  induction items with
  | nil => exact .nil
  | cons a items ih =>
    obtain ⟨ha, hitems⟩ := List.forall_mem_cons.mp h
    exact ha.append (ih hitems)

theorem showsAll_map {items : List α} (part : α → List Piece) (tokens : α → List Token)
    (h : ∀ a ∈ items, Shows (part a) (tokens a))
    (ht : ∀ a ∈ items, ∀ token ∈ tokens a, token.Lexed) :
    ShowsAll (items.map part) (items.flatMap fun a => lineOf (tokens a)) := by
  rw [List.map_eq_flatMap]
  exact showsAll_flatMap fun a ha => (h a ha).all (ht a ha)

theorem showsAll_filterMap {items : List α} (keep : α → Option β) (part : β → List Piece)
    {tokens : α → List Token} (h : ∀ a ∈ items, ∀ b, keep a = some b → Shows (part b) (tokens a))
    (ht : ∀ a ∈ items, ∀ token ∈ tokens a, token.Lexed) :
    ShowsAll ((items.filterMap keep).map part)
      ((items.filter fun a => (keep a).isSome).flatMap fun a => lineOf (tokens a)) := by
  induction items with
  | nil => exact .nil
  | cons a items ih =>
    obtain ⟨ha, hitems⟩ := List.forall_mem_cons.mp h
    obtain ⟨hta, htitems⟩ := List.forall_mem_cons.mp ht
    cases hkeep : keep a with
    | none => simpa [hkeep] using ih hitems htitems
    | some b => simpa [hkeep] using ((ha b hkeep).all hta).append (ih hitems htitems)

-- ---------------------------------------------------------------------------
-- Functions
-- ---------------------------------------------------------------------------

theorem FunctionDeclaration.shows {f : FunctionDeclaration} (h : f.Fits n)
    (ht : ∀ token ∈ f.tokens, token.Lexed) : ShowsAll f.symbol.parts (lineOf f.tokens) := by
  obtain ⟨constant, position, s, locals, body, finish⟩ := f
  obtain ⟨hlocals, hbody⟩ := h
  simp only [tokens, Block.tokens_eq, List.forall_mem_append, List.forall_mem_cons,
    List.forall_mem_flatMap] at ht
  obtain ⟨hconstant, hfunction, hs, -, htlocals, htbody, hend, -⟩ := ht
  have hhead :=
    (((s.shows hs).word hfunction (keyword_ne_newline _) rfl).constant hconstant).all (by
    simpa only [List.forall_mem_append, List.forall_mem_cons] using ⟨hconstant, hfunction, hs⟩)
  have hlocal (declared : VariableDeclaration) (hd : declared ∈ locals) :
      Shows (.keyword .localWord :: declared.symbol.pieces)
      (.keyword .localWord :: declared.tokens) :=
    (VariableDeclaration.shows (hlocals declared hd) (htlocals declared hd).2.1).word
      (htlocals declared hd).1 (keyword_ne_newline _) rfl
  have hdeclared := showsAll_map (fun v => .keyword .localWord :: v.symbol.pieces)
    (fun declared => .keyword .localWord :: declared.tokens) hlocal
    (fun declared hd => List.forall_mem_cons.mpr
      ⟨(htlocals declared hd).1, (htlocals declared hd).2.1⟩)
  have hstatements := showsAll_map (fun s : Statement => Fragment.pieces s.tokens) Statement.tokens
    (fun statement hmem => Statement.shows (Block.fits_iff body |>.mp hbody statement hmem)
      (htbody statement hmem).1) (fun statement hmem => (htbody statement hmem).1)
  have hall := hhead.append (hdeclared.append (hstatements.append (showsAll_word hend)))
  simpa [symbol, tokens, Function.parts, Callable.pieces, lineOf, Block.tokens_eq,
    List.map_map, Function.comp_def, Piece.keyword] using hall

-- ---------------------------------------------------------------------------
-- Programs by their collections
-- ---------------------------------------------------------------------------

def Declaration.members : Declaration → List GlobalDeclaration
  | globals _ members => members
  | _ => []

namespace Program

def types (program : Program) : List Declaration :=
  program.declarations.filter fun d => d.type?.isSome

def natives (program : Program) : List Declaration :=
  program.declarations.filter fun d => d.native?.isSome

def members (program : Program) : List GlobalDeclaration :=
  program.declarations.flatMap Declaration.members

/-- The program with its declarations by their kinds and one block of globals. -/
def arranged (program : Program) : Program where
  declarations := program.types ++ program.natives ++ [.globals .start program.members]
  functions := program.functions

/-- The tokens of the program, each declaration with a line break after it. -/
def lineTokens (program : Program) : List Token :=
  (program.declarations.flatMap fun d => lineOf d.tokens) ++
    program.functions.flatMap fun f => lineOf f.tokens

theorem lineTokens_arranged (program : Program) : program.arranged.lineTokens =
    (program.types.flatMap fun d => lineOf d.tokens) ++
    (program.natives.flatMap fun d => lineOf d.tokens) ++
    lineOf [.keyword .globals] ++ (program.members.flatMap fun member => lineOf member.tokens) ++
    lineOf [.keyword .endglobals] ++ program.functions.flatMap fun f => lineOf f.tokens := by
  simp [lineTokens, arranged, Declaration.tokens, lineOf]

theorem lines_flatMap {tokens : α → List Token} (others : List Token → Prop) (items : List α)
    (h : others rest) :
    Lines tokens others items ((items.flatMap fun a => lineOf (tokens a)) ++ rest) := by
  induction items with
  | nil => exact .nil h
  | cons a items ih => simpa [lineOf] using Lines.cons ih

theorem spelled_lineTokens (program : Program) : program.Spelled program.lineTokens := by
  refine lines_flatMap _ _ ?_
  simpa using lines_flatMap (· = []) program.functions rfl

theorem Fits.members {program : Program} (h : program.Fits n) :
    ∀ member ∈ program.members, member.Fits n := by
  intro member hm
  obtain ⟨d, hd, hm⟩ := List.mem_flatMap.mp hm
  have hfits := h.declarations d hd
  cases d with
  | globals position members => exact hfits member hm
  | type | native => cases hm

theorem Fits.arranged {program : Program} (h : program.Fits n) : program.arranged.Fits n := by
  refine ⟨fun d hd => ?_, h.functions⟩
  simp only [Program.arranged, types, natives, List.mem_append, List.mem_filter,
    List.mem_singleton] at hd
  obtain (⟨hd, -⟩ | ⟨hd, -⟩) | rfl := hd
  · exact h.declarations d hd
  · exact h.declarations d hd
  · exact h.members

end Program

theorem mem_of_lines {tokens : α → List Token} (h : Lines tokens others items ts) (ha : a ∈ items) :
    ∀ token ∈ tokens a, token ∈ ts := by
  induction h with
  | nil => cases ha
  | last =>
    cases List.mem_singleton.mp ha
    exact fun _ => id
  | cons _ ih =>
    intro token ht
    obtain rfl | ha := List.mem_cons.mp ha
    · exact List.mem_append_left _ ht
    · exact List.mem_append_right _ (List.mem_cons_of_mem _ (ih ha token ht))

theorem Lines.exists_others {tokens : α → List Token} (h : Lines tokens others items ts) :
    ∃ rest, others rest ∧ ∀ token ∈ rest, token ∈ ts := by
  induction h with
  | nil hrest => exact ⟨_, hrest, fun _ => id⟩
  | last hnil => exact ⟨[], hnil, nofun⟩
  | cons _ ih =>
    obtain ⟨rest, hrest, hmem⟩ := ih
    exact ⟨rest, hrest, fun token ht => List.mem_append_right _
      (List.mem_cons_of_mem _ (hmem token ht))⟩

/-- All tokens of the declarations and the functions have been read. -/
structure Program.Lexed (program : Program) : Prop where
  declarations : ∀ d ∈ program.declarations, ∀ token ∈ d.tokens, token.Lexed
  functions : ∀ f ∈ program.functions, ∀ token ∈ f.tokens, token.Lexed

theorem Program.Spelled.lexed {program : Program} (h : program.Spelled ts)
    (ht : ∀ token ∈ ts, token.Lexed) :
    program.Lexed := by
  obtain ⟨rest, hrest, hmem⟩ := Lines.exists_others h
  exact ⟨fun d hd token htoken => ht _ (mem_of_lines h hd token htoken),
    fun f hf token htoken => ht _ (hmem _ (mem_of_lines hrest hf token htoken))⟩

-- ---------------------------------------------------------------------------
-- What is written
-- ---------------------------------------------------------------------------

theorem globals_ofProgram (program : Program) :
    (ofProgram program).globals = program.members.map GlobalDeclaration.symbol := by
  rw [Program.members, List.map_flatMap]
  refine List.flatMap_congr fun d _ => ?_
  cases d <;> rfl

theorem Program.Lexed.members {program : Program} (h : program.Lexed) :
    ∀ member ∈ program.members, ∀ token ∈ member.tokens, token.Lexed := by
  intro member hm token ht
  obtain ⟨d, hd, hm⟩ := List.mem_flatMap.mp hm
  refine h.declarations d hd token ?_
  cases d with
  | globals position members =>
    simp only [Declaration.tokens, List.mem_cons, List.mem_append, List.mem_flatMap]
    exact .inr (.inr (.inl ⟨member, hm, .inl ht⟩))
  | type | native => cases hm

theorem showsAll_ofProgram {program : Program} (hf : program.Fits n) (ht : program.Lexed) :
    ShowsAll (ofProgram program).parts program.arranged.lineTokens := by
  have htypes := showsAll_filterMap Declaration.type? TypeSymbol.pieces
    (fun d hd symbol heq => Declaration.shows_type heq (ht.declarations d hd)) ht.declarations
  have hnatives := showsAll_filterMap Declaration.native? (Callable.pieces .native)
    (fun d hd symbol heq => Declaration.shows_native heq (ht.declarations d hd)) ht.declarations
  have hopen : (Token.keyword .globals).Lexed := ⟨'g', "lobals".toList, 6, .word rfl, rfl⟩
  have hclose : (Token.keyword .endglobals).Lexed := ⟨'e', "ndglobals".toList, 9, .word rfl, rfl⟩
  have hglobals := showsAll_map (fun member => (GlobalDeclaration.symbol member).pieces) _
    (fun member hm => GlobalDeclaration.shows (hf.members member hm) (ht.members member hm))
    ht.members
  have hfunctions := showsAll_flatMap fun f hm =>
    FunctionDeclaration.shows (hf.functions f hm) (ht.functions f hm)
  have hall := htypes.append (hnatives.append ((showsAll_word hopen).append
    (hglobals.append ((showsAll_word hclose).append hfunctions))))
  have hparts : (ofProgram program).parts =
      (program.declarations.filterMap Declaration.type?).map TypeSymbol.pieces ++
      ((program.declarations.filterMap Declaration.native?).map (Callable.pieces .native) ++
        ([[.keyword .globals]] ++ (program.members.map (fun member => member.symbol.pieces) ++
          ([[.keyword .endglobals]] ++ program.functions.flatMap fun f => f.symbol.parts)))) := by
    rw [parts, globals_ofProgram]
    simp [ofProgram, List.flatMap_map]
  rw [Program.lineTokens_arranged, hparts, Program.types, Program.natives]
  simpa only [List.append_assoc] using hall

-- ---------------------------------------------------------------------------
-- Positions
-- ---------------------------------------------------------------------------

theorem filterMap_filter_isSome (keep : α → Option β) (items : List α) :
    (items.filter fun a => (keep a).isSome).filterMap keep = items.filterMap keep := by
  rw [List.filterMap_filter]
  refine List.filterMap_congr fun a _ => ?_
  cases keep a <;> rfl

theorem Program.not_native_of_mem_types {program : Program} (hd : d ∈ program.types) :
    d.native? = none ∧ d.members = [] := by
  cases d with
  | type => exact ⟨rfl, rfl⟩
  | native | globals => cases (List.mem_filter.mp hd).2

theorem Program.not_type_of_mem_natives {program : Program} (hd : d ∈ program.natives) :
    d.type? = none ∧ d.members = [] := by
  cases d with
  | native => exact ⟨rfl, rfl⟩
  | type | globals => cases (List.mem_filter.mp hd).2

theorem ofProgram_arranged (program : Program) :
    ofProgram program.arranged = ofProgram program := by
  have htypes : (ofProgram program.arranged).types = (ofProgram program).types := by
    have hnatives : program.natives.filterMap Declaration.type? = [] :=
      List.filterMap_eq_nil_iff.mpr fun d hd => (Program.not_type_of_mem_natives hd).1
    simp only [ofProgram, Program.arranged, List.filterMap_append, hnatives, List.append_nil]
    exact (List.append_nil _).trans (filterMap_filter_isSome _ _)
  have hnatives : (ofProgram program.arranged).natives = (ofProgram program).natives := by
    have htypes : program.types.filterMap Declaration.native? = [] :=
      List.filterMap_eq_nil_iff.mpr fun d hd => (Program.not_native_of_mem_types hd).1
    simp only [ofProgram, Program.arranged, List.filterMap_append, htypes, List.nil_append]
    exact (List.append_nil _).trans (filterMap_filter_isSome _ _)
  have hmembers : program.arranged.members = program.members := by
    have htypes : program.types.flatMap Declaration.members = [] :=
      List.flatMap_eq_nil_iff.mpr fun d hd => (Program.not_native_of_mem_types hd).2
    have hnatives : program.natives.flatMap Declaration.members = [] :=
      List.flatMap_eq_nil_iff.mpr fun d hd => (Program.not_type_of_mem_natives hd).2
    rw [Program.members, Program.arranged, List.flatMap_append, List.flatMap_append, htypes,
      hnatives]
    exact List.append_nil _
  rw [Script.mk.injEq]
  exact ⟨htypes, hnatives, by rw [globals_ofProgram, globals_ofProgram, hmembers], rfl⟩

theorem Declaration.unplaced_symbols (d : Declaration) :
    d.unplaced.type?.map TypeSymbol.unplaced = d.type?.map TypeSymbol.unplaced ∧
    d.unplaced.native?.map Callable.unplaced = d.native?.map Callable.unplaced ∧
    d.unplaced.declaredGlobals.map Global.unplaced = d.declaredGlobals.map Global.unplaced := by
  cases d with
  | type position id parent => exact ⟨rfl, rfl, rfl⟩
  | native constant position s => cases constant <;> exact ⟨rfl, rfl, rfl⟩
  | globals position members =>
    refine ⟨rfl, rfl, ?_⟩
    simp only [unplaced, declaredGlobals, List.map_map]
    refine List.map_congr_left fun member _ => ?_
    cases member <;> rfl

theorem FunctionDeclaration.unplaced_symbol (f : FunctionDeclaration) :
    f.unplaced.symbol.unplaced = f.symbol.unplaced := by
  obtain ⟨constant, position, s, locals, body, finish⟩ := f
  simp [unplaced, symbol, Function.unplaced, Variable.unplaced, VariableDeclaration.symbol,
    VariableDeclaration.unplaced]

theorem unplaced_ofProgram (program : Program) : (ofProgram program).unplaced =
    (ofProgram ⟨program.declarations.map Declaration.unplaced,
      program.functions.map FunctionDeclaration.unplaced⟩).unplaced := by
  simp only [unplaced, ofProgram, List.map_filterMap, List.filterMap_map, List.map_flatMap,
    List.flatMap_map, List.map_map, Function.comp_def]
  simp only [fun d : Declaration => d.unplaced_symbols.1,
    fun d : Declaration => d.unplaced_symbols.2.1,
    fun d : Declaration => d.unplaced_symbols.2.2, FunctionDeclaration.unplaced_symbol]

theorem same_ofProgram {a b : Program}
    (hd : a.declarations.map Declaration.unplaced = b.declarations.map Declaration.unplaced)
    (hf : a.functions.map FunctionDeclaration.unplaced =
      b.functions.map FunctionDeclaration.unplaced) :
    (ofProgram a).Same (ofProgram b) := by
  rw [Same, unplaced_ofProgram a, unplaced_ofProgram b, hd, hf]

theorem text_unplaced (script : Script) : script.unplaced.text = script.text := by
  have hfunction (symbol : Function) : symbol.unplaced.parts = symbol.parts := by
    simp only [Function.parts, Function.unplaced, List.map_map]
    rfl
  have hparts : script.unplaced.parts = script.parts := by
    simp only [parts, unplaced, List.map_map, List.flatMap_map, hfunction]
    rfl
  rw [text, text, lines, lines, hparts]

theorem Same.text {a b : Script} (h : a.Same b) : a.text = b.text := by
  rw [← text_unplaced a, ← text_unplaced b, h]

-- ---------------------------------------------------------------------------
-- Texts
-- ---------------------------------------------------------------------------

theorem exists_program_of_ofText (h : ofText input = .ok script) : ∃ program all,
    lexemes input = .ok all ∧ Program.ofText input = .ok program ∧
    (program.Spelled (all.map Lexeme.token) ∨
      ∃ tokens, all.map Lexeme.token = .newline :: tokens ∧ program.Spelled tokens) ∧
    program.Fits maxLevels ∧ program.Lexed ∧ script = ofProgram program := by
  obtain ⟨program, hprogram, heq⟩ := bind_ok.mp h
  cases heq
  obtain ⟨all, rest, hall, hp⟩ := Program.ofText_ok.mp hprogram
  obtain ⟨-, hfits, hspelled⟩ := Grammar.spelled_of_program (canonical_of_lexemes hall) hp
  have hlexed := (lexes_iff.mpr ⟨all, hall, rfl⟩).lexed
  refine ⟨program, all, hall, hprogram, hspelled, hfits, ?_, rfl⟩
  obtain hs | ⟨tokens, heq, hs⟩ := hspelled
  · exact hs.lexed hlexed
  · rw [heq] at hlexed
    exact hs.lexed (List.forall_mem_cons.mp hlexed).2

theorem lexemes_text {program : Program} (hf : program.Fits n) (ht : program.Lexed) :
    ∃ written, lexemes (ofProgram program).text = .ok written ∧
      written.map Lexeme.token = program.arranged.lineTokens := by
  have hshows := showsAll_ofProgram hf ht
  have hlexes := lexes_text hshows.neat hshows.lexed
  rw [hshows.read] at hlexes
  exact lexes_iff.mp hlexes

theorem ofText_of_spelled {program : Program} (hf : program.Fits maxLevels)
    (hall : lexemes input = .ok all) (hs : program.Spelled (all.map Lexeme.token)) :
    ∃ found, ofText input = .ok found ∧ found.Same (ofProgram program) := by
  have ha : Ahead (all.map Lexeme.token) all [] := ahead_iff.mpr ⟨all, by simp, rfl⟩
  obtain ⟨again, hp, hd, hfs⟩ := Grammar.program_of_spelled hf hs (.inl ha)
  exact ⟨ofProgram again, bind_ok.mpr ⟨again, Program.ofText_ok.mpr ⟨all, [], hall, hp⟩, rfl⟩,
    same_ofProgram hd hfs⟩

/-- The text of a script that was read has the tokens of what was declared and nothing
else: the types, the natives, the globals of all blocks in one block, and the functions,
each in order and with a line break after it. -/
theorem lexemes_text_of_ofText (h : ofText input = .ok script) : ∃ program all written,
    lexemes input = .ok all ∧ Program.ofText input = .ok program ∧
    (program.Spelled (all.map Lexeme.token) ∨
      ∃ tokens, all.map Lexeme.token = .newline :: tokens ∧ program.Spelled tokens) ∧
    lexemes script.text = .ok written ∧ written.map Lexeme.token =
      (program.types.flatMap fun d => lineOf d.tokens) ++
      (program.natives.flatMap fun d => lineOf d.tokens) ++
      lineOf [.keyword .globals] ++ (program.members.flatMap fun member => lineOf member.tokens) ++
      lineOf [.keyword .endglobals] ++ program.functions.flatMap fun f => lineOf f.tokens := by
  obtain ⟨program, all, hall, hprogram, hspelled, hfits, hlexed, rfl⟩ := exists_program_of_ofText h
  obtain ⟨written, hwritten, htokens⟩ := lexemes_text hfits hlexed
  rw [program.lineTokens_arranged] at htokens
  exact ⟨program, all, written, hall, hprogram, hspelled, hwritten, htokens⟩

/-- A native and a global before the type that they use. -/
def mixed : String :=
  "native f takes nothing returns a\nglobals\na x=null\nendglobals\ntype a extends handle"

def mixedScript : Script where
  types := [⟨"a", "handle", some ⟨5, 1, 61⟩⟩]
  natives := [⟨⟨"f", [], some "a"⟩, false, some ⟨1, 1, 0⟩⟩]
  globals := [⟨⟨"a", "x", false, some [⟨.literal .null, "null"⟩], some ⟨3, 1, 41⟩⟩, false⟩]
  functions := []

theorem lexemes_text_of_mixed : ofText mixed = .ok mixedScript ∧ ∃ program written,
    Program.ofText mixed = .ok program ∧ lexemes mixedScript.text = .ok written ∧
      written.map Lexeme.token = program.arranged.lineTokens := by
  have h : ofText mixed = .ok mixedScript := by decide +kernel
  obtain ⟨program, -, written, -, hprogram, -, hwritten, htokens⟩ := lexemes_text_of_ofText h
  exact ⟨h, program, written, hprogram, hwritten, htokens.trans program.lineTokens_arranged.symm⟩

/-- The text of a script that was read is read as the same script, which has the same
text. -/
theorem ofText_text_of_ofText (h : ofText input = .ok script) :
    ∃ again, ofText script.text = .ok again ∧ again.Same script ∧ again.text = script.text := by
  obtain ⟨program, -, -, -, -, hfits, hlexed, rfl⟩ := exists_program_of_ofText h
  obtain ⟨written, hwritten, htokens⟩ := lexemes_text hfits hlexed
  -- What was written spells the arranged program, which has the same script.
  obtain ⟨again, hagain, hsame⟩ := ofText_of_spelled hfits.arranged hwritten
    (htokens ▸ program.arranged.spelled_lineTokens)
  rw [ofProgram_arranged] at hsame
  exact ⟨again, hagain, hsame, hsame.text⟩

theorem ofText_text_of_mixed : ofText mixed = .ok mixedScript ∧
    ∃ again, ofText mixedScript.text = .ok again ∧ again.Same mixedScript ∧
      again.text = mixedScript.text := by
  have h : ofText mixed = .ok mixedScript := by decide +kernel
  exact ⟨h, ofText_text_of_ofText h⟩

end Mapsmith.Script
