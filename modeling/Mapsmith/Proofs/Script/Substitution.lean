import Mapsmith.Proofs.Script.Binding
import Mapsmith.Proofs.Script.Formatting

/-!
# Renaming in the text of a script

`lexemes_text_rename`: a value may be renamed in a script or in its text, with the same tokens.
What a script is written as after the renaming has the layout that it had before, piece by
piece, and each piece is read as the renamed token. For this no type, parameter or local
variable may have the old name, as these keep theirs, and the new name has to be read as one.
-/

namespace Mapsmith.Script

-- ---------------------------------------------------------------------------
-- Names
-- ---------------------------------------------------------------------------

/-- A letter, then letters, digits and underscores. -/
def IsWord : List Char → Prop
  | [] => False
  | first :: rest => first.isAlpha = true ∧ ∀ c ∈ rest, isWordCharacter c = true

instance (chars : List Char) : Decidable (IsWord chars) :=
  match chars with
  | [] => .isFalse id
  -- Among all instances for such a statement, the one that goes through the list.
  | _ :: rest => @instDecidableAnd _ _ inferInstance (List.decidableBAll _ rest)

def IsIdentifier (name : String) : Prop := IsWord name.toList ∧ TokenKind.ofWord? name = none

instance (name : String) : Decidable (IsIdentifier name) :=
  inferInstanceAs (Decidable (IsWord name.toList ∧ TokenKind.ofWord? name = none))

theorem lexed_ofWord {word : String} (h : IsWord word.toList) :
    Token.Lexed ⟨.ofWord word, word⟩ := by
  cases hchars : word.toList with
  | nil => exact (hchars ▸ h).elim
  | cons first rest =>
    rw [hchars] at h
    have hlength : leading isWordCharacter rest = rest.length := by
      simpa using leading_append h.2 startsOff_nil
    have hname : String.ofList (first :: rest) = word := by rw [← hchars, String.ofList_toList]
    have hlexeme : LexemeAt first rest (.ofWord word) rest.length := by
      have hfound : LexemeAt first rest _ _ := .word h.1
      simpa only [hlength, List.take_length, hname] using hfound
    refine ⟨first, rest, rest.length, hlexeme, ?_⟩
    rw [List.take_length, tokenText, if_neg (ofWord_ne_newline word), hname]

theorem IsIdentifier.lexed {name : String} (h : IsIdentifier name) :
    (Token.identifier name).Lexed := by
  have hlexed := lexed_ofWord h.1
  rwa [TokenKind.ofWord, h.2] at hlexed

/-- The names in a signature that are not its own. -/
def Signature.keptNames (signature : Signature) : List String :=
  signature.takes.flatMap (fun parameter => [parameter.type, parameter.id]) ++
  signature.returns.toList

/-- The names that the renaming of a value leaves as they are: those of types, parameters
and local variables. -/
def keptNames (script : Script) : List String :=
  script.types.flatMap (fun symbol => [symbol.id, symbol.parent]) ++
    script.natives.flatMap (fun symbol => symbol.signature.keptNames) ++
    script.globals.map (fun symbol => symbol.type) ++
    script.functions.flatMap fun symbol =>
      symbol.signature.keptNames ++ symbol.locals.flatMap fun v => [v.type, v.id]

-- ---------------------------------------------------------------------------
-- Pieces
-- ---------------------------------------------------------------------------

/-- The piece is written like another one, and read as its token renamed. -/
structure Piece.Renamed (old new : String) (before after : Piece) : Prop where
  kind : after.token.kind = before.token.kind
  beforeName : after.beforeName = before.beforeName
  read : after.read = before.read.rename old new

abbrev PartRenamed (old new : String) : List Piece → List Piece → Prop :=
  List.Forall₂ (Piece.Renamed old new)

section

variable {old new : String} {piece : Piece} {part part' : List Piece}

theorem renamed_self (h : piece.read ≠ .identifier old) : piece.Renamed old new piece :=
  ⟨rfl, rfl, (if_neg h).symm⟩

theorem renamed_of_text_ne (h : piece.token.text ≠ old) : piece.Renamed old new piece := by
  refine renamed_self fun heq => h ?_
  rw [← piece.text_read, heq]
  rfl

theorem renamed_of_kind_ne (h : piece.read.kind ≠ .identifier) : piece.Renamed old new piece :=
  renamed_self fun heq => h (congrArg Token.kind heq)

theorem renamed_keyword (word : Keyword) :
    (Piece.keyword word).Renamed old new (.keyword word) := by
  refine renamed_of_kind_ne ?_
  cases word <;> decide

theorem read_identifier {name : String} (h : TokenKind.ofWord? name = none) :
    (Piece.identifier name).read = .identifier name := by
  show (⟨.ofWord name, name⟩ : Token) = _
  rw [TokenKind.ofWord, h]
  rfl

theorem renamed_identifier (hold : TokenKind.ofWord? old = none)
    (hnew : TokenKind.ofWord? new = none) (name : String) :
    (Piece.identifier name).Renamed old new (.identifier (renamed old new name)) := by
  by_cases hname : name = old
  · subst hname
    refine ⟨rfl, rfl, ?_⟩
    rw [renamed, if_pos rfl, read_identifier hold, read_identifier hnew, Token.rename, if_pos rfl]
  · rw [renamed, if_neg hname]
    exact renamed_of_text_ne hname

theorem renamed_ofToken (hnew : TokenKind.ofWord? new = none) {token : Token} (h : token.Lexed) :
    (Piece.ofToken token).Renamed old new (.ofToken (token.rename old new)) := by
  by_cases htoken : token = .identifier old
  · subst htoken
    rw [Token.rename, if_pos rfl]
    refine ⟨rfl, rfl, ?_⟩
    rw [Piece.read_ofToken h, Token.rename, if_pos rfl]
    exact read_identifier hnew
  · rw [Token.rename, if_neg htoken]
    exact renamed_self fun heq => htoken ((Piece.read_ofToken h).symm.trans heq)

theorem partRenamed_fragment (hnew : TokenKind.ofWord? new = none) {fragment : Fragment}
    (h : ∀ token ∈ fragment, token.Lexed) :
    PartRenamed old new fragment.pieces (fragment.rename old new).pieces := by
  have hall : fragment.Forall₂ (fun token token' =>
      (Piece.ofToken token).Renamed old new (.ofToken (token'.rename old new))) fragment :=
    List.forall₂_same.mpr fun token ht => renamed_ofToken hnew (h token ht)
  simpa [PartRenamed, Fragment.pieces, Fragment.rename] using hall

-- ---------------------------------------------------------------------------
-- Declarations
-- ---------------------------------------------------------------------------

theorem TypeSymbol.partRenamed {symbol : TypeSymbol} (hid : symbol.id ≠ old)
    (hparent : symbol.parent ≠ old) :
    PartRenamed old new symbol.pieces symbol.pieces :=
  .cons (renamed_keyword _) (.cons (renamed_of_text_ne hid)
    (.cons (renamed_keyword _) (.cons (renamed_of_text_ne hparent) .nil)))

theorem Parameter.renamed {p : Parameter} (htype : p.type ≠ old) (hid : p.id ≠ old) :
    ∀ piece ∈ p.pieces, piece.Renamed old new piece := by
  simpa [pieces] using ⟨renamed_of_text_ne htype, renamed_of_text_ne hid⟩

theorem Signature.partRenamed_taken {s : Signature} (h : old ∉ s.keptNames) :
    PartRenamed old new s.takenPieces s.takenPieces := by
  have hparameter : ∀ p ∈ s.takes, ∀ piece ∈ p.pieces, piece.Renamed old new piece := by
    intro p hp
    refine Parameter.renamed (fun heq => h ?_) fun heq => h ?_
    · exact List.mem_append_left _ (List.mem_flatMap.mpr ⟨p, hp, by simp [heq]⟩)
    · exact List.mem_append_left _ (List.mem_flatMap.mpr ⟨p, hp, by simp [heq]⟩)
  have hcomma :
      (Piece.ofToken (.delimiter .comma)).Renamed old new (.ofToken (.delimiter .comma)) :=
    renamed_of_kind_ne nofun
  obtain ⟨id, takes, returns⟩ := s
  refine List.forall₂_same.mpr ?_
  cases takes with
  | nil => simpa [takenPieces] using renamed_keyword .nothing
  | cons first more =>
    rw [takenPieces_cons, List.forall_mem_append, List.forall_mem_flatMap]
    obtain ⟨hfirst, hmore⟩ := List.forall_mem_cons.mp hparameter
    exact ⟨hfirst, fun p hp => List.forall_mem_cons.mpr ⟨hcomma, hmore p hp⟩⟩

theorem renamed_returned {returns : Option String} (h : old ∉ returns.toList) :
    ((returns.map Piece.identifier).getD (.keyword .nothing)).Renamed old new
      ((returns.map Piece.identifier).getD (.keyword .nothing)) := by
  cases returns with
  | none => exact renamed_keyword _
  | some type =>
    refine renamed_of_text_ne fun heq => h ?_
    rw [← show type = old from heq]
    exact List.mem_singleton_self type

theorem Signature.partRenamed (hold : TokenKind.ofWord? old = none)
    (hnew : TokenKind.ofWord? new = none)
    {s : Signature} (h : old ∉ s.keptNames) :
    PartRenamed old new s.pieces (s.renameId old new).pieces := by
  have hreturned : PartRenamed old new [.keyword .returns, _] [.keyword .returns, _] :=
    .cons (renamed_keyword _)
    (.cons (renamed_returned fun hr => h (List.mem_append_right _ hr)) .nil)
  exact .cons (renamed_identifier hold hnew s.id)
    (.cons (renamed_keyword _) (List.rel_append (partRenamed_taken h) hreturned))

theorem partRenamed_constant (constant : Bool) :
    PartRenamed old new (constantPieces constant) (constantPieces constant) := by
  cases constant with
  | false => exact .nil
  | true => exact .cons (renamed_keyword _) .nil

theorem Callable.partRenamed (hold : TokenKind.ofWord? old = none)
    (hnew : TokenKind.ofWord? new = none)
    {symbol : Callable} (h : old ∉ symbol.signature.keptNames) (word : Keyword) :
    PartRenamed old new (symbol.pieces word) ((symbol.renameId old new).pieces word) :=
  List.rel_append (partRenamed_constant _)
    (.cons (renamed_keyword _) (Signature.partRenamed hold hnew h))

theorem Variable.partRenamed (hnew : TokenKind.ofWord? new = none) {v : Variable}
    (htype : v.type ≠ old) (hid : (Piece.identifier v.id).Renamed old new (.identifier name))
    (hinitial : ∀ fragment ∈ v.initial, ∀ token ∈ fragment, token.Lexed) :
    PartRenamed old new v.pieces { v.renameUses old new with id := name }.pieces := by
  obtain ⟨type, before, array, initial, position⟩ := v
  have harray : PartRenamed old new (if array then [.keyword .array] else [])
      (if array then [.keyword .array] else []) := by
    cases array with
    | false => exact .nil
    | true => exact .cons (renamed_keyword _) .nil
  refine .cons (renamed_of_text_ne htype) (List.rel_append harray (.cons hid ?_))
  cases initial with
  | none => exact .nil
  | some fragment =>
    exact .cons (renamed_of_kind_ne nofun) (partRenamed_fragment hnew (hinitial fragment rfl))

theorem Global.partRenamed (hold : TokenKind.ofWord? old = none)
    (hnew : TokenKind.ofWord? new = none) {symbol : Global} (htype : symbol.type ≠ old)
    (hinitial : ∀ fragment ∈ symbol.initial, ∀ token ∈ fragment, token.Lexed) :
    PartRenamed old new symbol.pieces (symbol.renameValue old new).pieces :=
  List.rel_append (partRenamed_constant _)
    (Variable.partRenamed hnew htype (renamed_identifier hold hnew symbol.id) hinitial)

theorem partsRenamed_map {items : List α} {before after : α → List Piece}
    (h : ∀ a ∈ items, PartRenamed old new (before a) (after a)) :
    (items.map before).Forall₂ (PartRenamed old new) (items.map after) := by
  rw [List.forall₂_map_left_iff, List.forall₂_map_right_iff, List.forall₂_same]
  exact h

theorem Function.partsRenamed (hold : TokenKind.ofWord? old = none)
    (hnew : TokenKind.ofWord? new = none)
    {symbol : Function} (hsignature : old ∉ symbol.signature.keptNames)
    (hlocals : ∀ v ∈ symbol.locals, v.type ≠ old ∧ v.id ≠ old)
    (hlexed : ∀ fragment ∈ symbol.fragments, ∀ token ∈ fragment, token.Lexed) :
    symbol.parts.Forall₂ (PartRenamed old new) (symbol.renameValue old new).parts := by
  obtain ⟨hinitial, hstatements⟩ := List.forall_mem_append.mp hlexed
  have hlocal (v : Variable) (hv : v ∈ symbol.locals) : PartRenamed old new
      (.keyword .localWord :: v.pieces) (.keyword .localWord :: (v.renameUses old new).pieces) := by
    refine .cons (renamed_keyword _) (Variable.partRenamed hnew (hlocals v hv).1
      (renamed_of_text_ne (hlocals v hv).2) fun fragment hf => ?_)
    exact hinitial fragment (List.mem_filterMap.mpr ⟨v, hv, hf⟩)
  have hstatement (fragment : Fragment) (hf : fragment ∈ symbol.statements) :
      PartRenamed old new fragment.pieces (fragment.rename old new).pieces :=
    partRenamed_fragment hnew (hstatements fragment hf)
  have hend :
      [[Piece.keyword .endfunction]].Forall₂ (PartRenamed old new) [[.keyword .endfunction]] :=
    .cons (.cons (renamed_keyword _) .nil) .nil
  have hall :=
    List.rel_append (List.rel_append (partsRenamed_map hlocal) (partsRenamed_map hstatement)) hend
  refine .cons (Callable.partRenamed hold hnew hsignature .function) ?_
  simpa [Function.renameValue, Function.comp_def] using hall

theorem partsRenamed (hold : TokenKind.ofWord? old = none) (hnew : TokenKind.ofWord? new = none)
    {script : Script} (hkept : old ∉ script.keptNames)
    (hlexed : ∀ fragment ∈ script.fragments, ∀ token ∈ fragment, token.Lexed) :
    script.parts.Forall₂ (PartRenamed old new) (script.renameValue old new).parts := by
  simp only [keptNames, List.mem_append, List.mem_flatMap, List.mem_map, not_or, not_exists,
    not_and] at hkept
  obtain ⟨⟨⟨htypes, hnatives⟩, hglobals⟩, hfunctions⟩ := hkept
  obtain ⟨hinitial, hfragments⟩ := List.forall_mem_append.mp hlexed
  have htype (symbol : TypeSymbol) (hs : symbol ∈ script.types) :
      PartRenamed old new symbol.pieces symbol.pieces :=
    TypeSymbol.partRenamed (fun heq => htypes symbol hs (by simp [heq])) fun heq =>
      htypes symbol hs (by simp [heq])
  have hnative (symbol : Callable) (hs : symbol ∈ script.natives) :=
    Callable.partRenamed hold hnew (hnatives symbol hs) .native
  have hglobal (symbol : Global) (hs : symbol ∈ script.globals) :=
    Global.partRenamed hold hnew (hglobals symbol hs) fun fragment hf =>
      hinitial fragment (List.mem_filterMap.mpr ⟨symbol, hs, hf⟩)
  have hfunction : (script.functions.flatMap Function.parts).Forall₂ (PartRenamed old new)
      ((script.functions.map (Function.renameValue old new)).flatMap Function.parts) := by
    rw [List.flatMap_map]
    refine List.rel_flatMap (R := fun a b => a ∈ script.functions ∧ a = b)
      (List.forall₂_same.mpr fun symbol hs => ⟨hs, rfl⟩) ?_
    rintro symbol _ ⟨hs, rfl⟩
    have hkept := hfunctions symbol hs
    refine Function.partsRenamed hold hnew hkept.1 (fun v hv => ?_) fun fragment hf => ?_
    · have hv := hkept.2 v hv
      simpa [eq_comm] using hv
    · exact hfragments fragment (List.mem_flatMap.mpr ⟨symbol, hs, hf⟩)
  have hword (word : Keyword) : PartRenamed old new [.keyword word] [.keyword word] :=
    .cons (renamed_keyword word) .nil
  have hall := List.rel_append (List.rel_append (partsRenamed_map htype) (partsRenamed_map hnative))
    (.cons (hword .globals) (List.rel_append (partsRenamed_map hglobal)
      (.cons (hword .endglobals) hfunction)))
  simpa [parts, renameValue, Function.comp_def] using hall

-- ---------------------------------------------------------------------------
-- Lines
-- ---------------------------------------------------------------------------

theorem adjoins_renamed {left left' right right' : Piece} (hleft : left.Renamed old new left')
    (hright : right.Renamed old new right') : adjoins left' right' = adjoins left right := by
  rw [adjoins, adjoins, spaced, spaced, Piece.hasSpaceAfter, Piece.hasSpaceAfter,
    Piece.hasSpaceBefore, Piece.hasSpaceBefore, hleft.kind, hright.kind, hleft.beforeName]

theorem Chained.renamed (h : PartRenamed old new part part') (hchained : Chained part) :
    Chained part' := by
  induction h with
  | nil => exact .nil
  | cons hleft hrest ih =>
    cases hrest with
    | nil => exact .singleton _
    | cons hright =>
      obtain ⟨hadjoins, hchained⟩ := List.isChain_cons_cons.mp hchained
      exact List.isChain_cons_cons.mpr ⟨(adjoins_renamed hleft hright).trans hadjoins, ih hchained⟩

theorem kinds_renamed (h : PartRenamed old new part part') :
    (part'.map fun piece => piece.token.kind) = part.map fun piece => piece.token.kind := by
  induction h with
  | nil => rfl
  | cons hpiece _ ih => rw [List.map_cons, List.map_cons, hpiece.kind, ih]

theorem Neat.renamed (h : PartRenamed old new part part') (hneat : Neat part) : Neat part' := by
  obtain ⟨hnil, hchained, hhead, hlast⟩ := hneat
  have hkinds := kinds_renamed h
  refine ⟨?_, hchained.renamed h, fun piece hp => ?_, fun piece hp => ?_⟩
  · rintro rfl
    exact hnil (List.map_eq_nil_iff.mp hkinds.symm)
  · have hheads := congrArg List.head? hkinds
    rw [List.head?_map, List.head?_map, Option.mem_def.mp hp] at hheads
    obtain ⟨before, hbefore, hkind⟩ := Option.map_eq_some_iff.mp hheads.symm
    exact fun hpiece => hhead before hbefore (hkind.trans hpiece)
  · have hlasts := congrArg List.getLast? hkinds
    rw [List.getLast?_map, List.getLast?_map, Option.mem_def.mp hp] at hlasts
    obtain ⟨before, hbefore, hkind⟩ := Option.map_eq_some_iff.mp hlasts.symm
    exact fun hpiece => hlast before hbefore (hkind.trans hpiece)

theorem lexed_rename (hnew : (Token.identifier new).Lexed) {token : Token} (h : token.Lexed) :
    (token.rename old new).Lexed := by
  unfold Token.rename
  split
  · exact hnew
  · exact h

theorem lexed_renamed (hnew : (Token.identifier new).Lexed) (h : PartRenamed old new part part')
    (hlexed : ∀ piece ∈ part, piece.read.Lexed) : ∀ piece ∈ part', piece.read.Lexed := by
  induction h with
  | nil => exact nofun
  | cons hpiece _ ih =>
    obtain ⟨hfirst, hlexed⟩ := List.forall_mem_cons.mp hlexed
    exact List.forall_mem_cons.mpr ⟨hpiece.read ▸ lexed_rename hnew hfirst, ih hlexed⟩

theorem tokensOf_renamed (h : PartRenamed old new part part') :
    tokensOf part' = (tokensOf part).map (Token.rename old new) := by
  have hread : part'.map Piece.read = (part.map Piece.read).map (Token.rename old new) := by
    induction h with
    | nil => rfl
    | cons hpiece _ ih => rw [List.map_cons, ih, hpiece.read, List.map_cons, List.map_cons]
  rw [tokensOf, tokensOf, hread, List.map_append]
  rfl

theorem ShowsAll.renamed {parts parts' : List (List Piece)} (hnew : (Token.identifier new).Lexed)
    (h : parts.Forall₂ (PartRenamed old new) parts') (hshows : ShowsAll parts tokens) :
    ShowsAll parts' (tokens.map (Token.rename old new)) := by
  obtain ⟨hneat, hlexed, rfl⟩ := hshows
  induction h with
  | nil => exact .nil
  | cons hpart _ ih =>
    obtain ⟨hfirst, hneat⟩ := List.forall_mem_cons.mp hneat
    obtain ⟨hfirst', hlexed⟩ := List.forall_mem_cons.mp hlexed
    obtain ⟨hneat, hlexed, hread⟩ := ih hneat hlexed
    refine ⟨List.forall_mem_cons.mpr ⟨hfirst.renamed hpart, hneat⟩,
      List.forall_mem_cons.mpr ⟨lexed_renamed hnew hpart hfirst', hlexed⟩, ?_⟩
    rw [List.flatMap_cons, List.flatMap_cons, List.map_append, tokensOf_renamed hpart, hread]

end

-- ---------------------------------------------------------------------------
-- Scripts that were read
-- ---------------------------------------------------------------------------

theorem VariableDeclaration.lexed_initial {declared : VariableDeclaration}
    (h : ∀ token ∈ declared.tokens, token.Lexed) :
    ∀ fragment ∈ declared.symbol.initial, ∀ token ∈ fragment, token.Lexed := by
  obtain ⟨position, type, id, initial⟩ := declared
  cases initial with
  | array | unset => exact nofun
  | value value =>
    rintro _ ⟨⟩ token ht
    exact h token (List.mem_cons_of_mem _ (List.mem_cons_of_mem _ (List.mem_cons_of_mem _ ht)))

theorem VariableDeclaration.lexed_id {declared : VariableDeclaration}
    (h : ∀ token ∈ declared.tokens, token.Lexed) : (Token.identifier declared.id).Lexed := by
  obtain ⟨position, type, id, initial⟩ := declared
  refine h _ (List.mem_cons_of_mem _ ?_)
  cases initial with
  | array => exact List.mem_cons_of_mem _ List.mem_cons_self
  | unset | value => exact List.mem_cons_self

theorem GlobalDeclaration.lexed_declared {member : GlobalDeclaration}
    (h : ∀ token ∈ member.tokens, token.Lexed) : ∀ token ∈ member.declared.tokens, token.Lexed := by
  cases member with
  | constant => exact (List.forall_mem_cons.mp h).2
  | plain => exact h

theorem FunctionDeclaration.lexed_fragments {f : FunctionDeclaration}
    (h : ∀ token ∈ f.tokens, token.Lexed) :
    ∀ fragment ∈ f.symbol.fragments, ∀ token ∈ fragment, token.Lexed := by
  simp only [tokens, Block.tokens_eq, List.forall_mem_append, List.forall_mem_cons,
    List.forall_mem_flatMap] at h
  obtain ⟨-, -, -, -, hlocals, hbody, -⟩ := h
  refine List.forall_mem_append.mpr ⟨fun fragment hf => ?_, fun fragment hf => ?_⟩
  · obtain ⟨v, hv, hinitial⟩ := List.mem_filterMap.mp hf
    obtain ⟨declared, hd, rfl⟩ := List.mem_map.mp hv
    exact declared.lexed_initial (hlocals declared hd).2.1 fragment hinitial
  · obtain ⟨statement, hs, rfl⟩ := List.mem_map.mp hf
    exact (hbody statement hs).1

theorem Program.Lexed.fragments {program : Program} (h : program.Lexed) :
    ∀ fragment ∈ (ofProgram program).fragments, ∀ token ∈ fragment, token.Lexed := by
  refine List.forall_mem_append.mpr ⟨fun fragment hf => ?_, fun fragment hf => ?_⟩
  · obtain ⟨symbol, hs, hinitial⟩ := List.mem_filterMap.mp hf
    rw [globals_ofProgram] at hs
    obtain ⟨member, hm, rfl⟩ := List.mem_map.mp hs
    exact VariableDeclaration.lexed_initial (GlobalDeclaration.lexed_declared (h.members member hm))
      fragment hinitial
  · obtain ⟨symbol, hs, hf⟩ := List.mem_flatMap.mp hf
    obtain ⟨f, hfm, rfl⟩ := List.mem_map.mp hs
    exact FunctionDeclaration.lexed_fragments (h.functions f hfm) fragment hf

theorem Signature.lexed_id {s : Signature} (h : ∀ token ∈ s.tokens, token.Lexed) :
    (Token.identifier s.id).Lexed := h _ List.mem_cons_self

theorem Program.Lexed.ids {program : Program} (h : program.Lexed) :
    ∀ id ∈ (ofProgram program).ids, (Token.identifier id).Lexed := by
  have htype : ∀ symbol ∈ (ofProgram program).types, (Token.identifier symbol.id).Lexed := by
    intro symbol hs
    obtain ⟨d, hd, heq⟩ := List.mem_filterMap.mp hs
    have hlexed := h.declarations d hd
    cases d with
    | type position id parent =>
      cases heq
      exact hlexed _ (List.mem_cons_of_mem _ List.mem_cons_self)
    | native | globals => cases heq
  have hnative : ∀ symbol ∈ (ofProgram program).natives,
      (Token.identifier symbol.signature.id).Lexed := by
    intro symbol hs
    obtain ⟨d, hd, heq⟩ := List.mem_filterMap.mp hs
    have hlexed := h.declarations d hd
    cases d with
    | native constant position s =>
      cases heq
      simp only [Declaration.tokens, List.forall_mem_append, List.forall_mem_cons] at hlexed
      exact s.lexed_id hlexed.2.2
    | type | globals => cases heq
  have hglobal : ∀ symbol ∈ (ofProgram program).globals, (Token.identifier symbol.id).Lexed := by
    intro symbol hs
    rw [globals_ofProgram] at hs
    obtain ⟨member, hm, rfl⟩ := List.mem_map.mp hs
    exact VariableDeclaration.lexed_id (GlobalDeclaration.lexed_declared (h.members member hm))
  have hfunction : ∀ symbol ∈ (ofProgram program).functions,
      (Token.identifier symbol.signature.id).Lexed := by
    intro symbol hs
    obtain ⟨f, hf, rfl⟩ := List.mem_map.mp hs
    have hlexed := h.functions f hf
    simp only [FunctionDeclaration.tokens, List.forall_mem_append, List.forall_mem_cons] at hlexed
    exact Signature.lexed_id hlexed.2.2.1
  intro id hid
  obtain ⟨symbol, hs, rfl⟩ := List.mem_map.mp hid
  simp only [symbols, List.mem_append, List.mem_map] at hs
  obtain ((⟨symbol, hs, rfl⟩ | ⟨symbol, hs, rfl⟩) | ⟨symbol, hs, rfl⟩) | ⟨symbol, hs, rfl⟩ := hs
  · exact htype symbol hs
  · exact hnative symbol hs
  · exact hglobal symbol hs
  · exact hfunction symbol hs

theorem rename_of_notMem_keptNames {script : Script} (hid : old ∈ script.ids)
    (hkept : old ∉ script.keptNames)
    (new : String) : script.rename old new = .ok (script.renameValue old new) := by
  refine rename_of_not_namesType hid (fun ⟨declared, hd, heq⟩ => hkept ?_) new
  simp only [keptNames, List.mem_append, List.mem_flatMap]
  exact .inl (.inl (.inl ⟨declared, hd, by simp [heq]⟩))

theorem rename_identifier_ne (h : new ≠ old) (token : Token) :
    token.rename old new ≠ .identifier old := by
  unfold Token.rename
  split
  · exact fun heq => h (congrArg Token.text heq)
  · assumption

/-- To rename a symbol of a script that was read is to rename the identifiers in its text:
the text of the result has the same tokens, with the new name wherever the old one
stood. -/
theorem lexemes_text_rename (h : ofText input = .ok script) (hid : old ∈ script.ids)
    (hkept : old ∉ script.keptNames) (hnew : IsIdentifier new) :
    ∃ result before after, script.rename old new = .ok result ∧ lexemes script.text = .ok before ∧
      lexemes result.text = .ok after ∧
      after.map Lexeme.token = (before.map Lexeme.token).map (fun token =>
        if token = .identifier old then .identifier new else token) ∧
      (new ≠ old → .identifier old ∉ after.map Lexeme.token) := by
  obtain ⟨program, -, -, -, -, hfits, hlexed, rfl⟩ := exists_program_of_ofText h
  have hold : TokenKind.ofWord? old = none := (hlexed.ids old hid).canonical
  have hshows := showsAll_ofProgram hfits hlexed
  have hrenamed := hshows.renamed hnew.lexed (partsRenamed hold hnew.2 hkept hlexed.fragments)
  obtain ⟨before, hbefore, htokens⟩ :=
    lexes_iff.mp (hshows.read ▸ lexes_text hshows.neat hshows.lexed)
  obtain ⟨after, hafter, htokens'⟩ :=
    lexes_iff.mp (hrenamed.read ▸ lexes_text hrenamed.neat hrenamed.lexed)
  rw [← htokens] at htokens'
  refine ⟨_, before, after, rename_of_notMem_keptNames hid hkept new, hbefore, hafter, htokens',
    fun hne hmem => ?_⟩
  rw [htokens'] at hmem
  obtain ⟨token, -, heq⟩ := List.mem_map.mp hmem
  exact rename_identifier_ne hne token heq

/-- A native that a global and a function call, beside a string with its name in it. -/
def calling : String :=
  "native f takes nothing returns integer\nglobals\nstring s=\"f\"\ninteger n=f()\nendglobals\n" ++
    "function g takes nothing returns nothing\nloop\ncall f()\nendloop\nendfunction"

def callingScript : Script where
  types := []
  natives := [⟨⟨"f", [], some "integer"⟩, false, some ⟨1, 1, 0⟩⟩]
  globals := [
    ⟨⟨"string", "s", false, some [⟨.literal .string, "\"f\""⟩], some ⟨3, 1, 47⟩⟩, false⟩,
    ⟨⟨"integer", "n", false, some [.identifier "f", .delimiter .openParen, .delimiter .closeParen],
      some ⟨4, 1, 60⟩⟩, false⟩]
  functions := [⟨⟨⟨"g", [], none⟩, false, some ⟨6, 1, 85⟩⟩, [],
    [[.keyword .loop, .newline, .keyword .call, .identifier "f", .delimiter .openParen,
      .delimiter .closeParen, .newline, .keyword .endloop]]⟩]

theorem lexemes_text_rename_calling : ofText calling = .ok callingScript ∧ "f" ∈ callingScript.ids ∧
    "f" ∉ callingScript.keptNames ∧ IsIdentifier "f_2" ∧
    ∃ result before after, callingScript.rename "f" "f_2" = .ok result ∧
      lexemes callingScript.text = .ok before ∧ lexemes result.text = .ok after ∧
      after.map Lexeme.token = (before.map Lexeme.token).map (fun token =>
        if token = .identifier "f" then .identifier "f_2" else token) ∧
      .identifier "f" ∉ after.map Lexeme.token := by
  have h : ofText calling = .ok callingScript := by decide +kernel
  have hid : "f" ∈ callingScript.ids := by decide
  have hkept : "f" ∉ callingScript.keptNames := by decide
  have hnew : IsIdentifier "f_2" := by decide
  obtain ⟨result, before, after, hrename, hbefore, hafter, htokens, hnone⟩ :=
    lexemes_text_rename h hid hkept hnew
  exact ⟨h, hid, hkept, hnew, result, before, after, hrename, hbefore, hafter, htokens,
    hnone (by decide)⟩

end Mapsmith.Script
