import Mapsmith.Proofs.Script.Formatting

/-!
# Indentation by blocks

`text_indented`: lines are indented by a count that goes over them and looks at the first word
of each. The lines of a tree have blocks around them. For a script that was read, the two
agree: the count is never taken below zero, and it is back at zero in the end.
-/

namespace Mapsmith.Script

-- ---------------------------------------------------------------------------
-- Tokens within a line
-- ---------------------------------------------------------------------------

mutual

theorem Expression.ne_newline : ∀ e : Expression, ∀ token ∈ e.tokens, token.kind ≠ .newline
  | .chain first rest => by
    rw [Expression.tokens, List.forall_mem_append]
    exact ⟨first.ne_newline, rest.ne_newline⟩

theorem Links.ne_newline : ∀ links : Links, ∀ token ∈ links.tokens, token.kind ≠ .newline
  | .nil => nofun
  | .cons op operand rest => by
    rw [Links.tokens, List.forall_mem_cons, List.forall_mem_append]
    exact ⟨nofun, operand.ne_newline, rest.ne_newline⟩

theorem Operand.ne_newline : ∀ e : Operand, ∀ token ∈ e.tokens, token.kind ≠ .newline
  | .unary op operand => by
    rw [Operand.tokens, List.forall_mem_cons]
    exact ⟨nofun, operand.ne_newline⟩
  | .literal kind text => List.forall_mem_singleton.mpr nofun
  | .name id => List.forall_mem_singleton.mpr nofun
  | .call id arguments => by
    rw [Operand.tokens, List.forall_mem_cons, List.forall_mem_cons, List.forall_mem_append,
      List.forall_mem_singleton]
    exact ⟨nofun, nofun, arguments.ne_newline, nofun⟩
  | .element id index => by
    rw [Operand.tokens, List.forall_mem_cons, List.forall_mem_cons, List.forall_mem_append,
      List.forall_mem_singleton]
    exact ⟨nofun, nofun, index.ne_newline, nofun⟩
  | .function id => List.forall_mem_cons.mpr ⟨nofun, List.forall_mem_singleton.mpr nofun⟩
  | .parens inner => by
    rw [Operand.tokens, List.forall_mem_cons, List.forall_mem_append, List.forall_mem_singleton]
    exact ⟨nofun, inner.ne_newline, nofun⟩

theorem Arguments.ne_newline : ∀ arguments : Arguments, ∀ token ∈
    arguments.tokens, token.kind ≠ .newline
  | .nil => nofun
  | .cons argument rest => by
    rw [Arguments.tokens, List.forall_mem_append]
    exact ⟨argument.ne_newline, rest.moreTokens_ne_newline⟩

theorem Arguments.moreTokens_ne_newline :
    ∀ arguments : Arguments, ∀ token ∈ arguments.moreTokens, token.kind ≠ .newline
  | .nil => nofun
  | .cons argument rest => by
    rw [Arguments.moreTokens, List.forall_mem_cons, List.forall_mem_append]
    exact ⟨nofun, argument.ne_newline, rest.moreTokens_ne_newline⟩

end

-- ---------------------------------------------------------------------------
-- Lines with the blocks around them
-- ---------------------------------------------------------------------------

mutual

/-- The lines of a statement that stands in so many blocks, each with the blocks that it stands
in. -/
def Statement.nested (n : Nat) : Statement → List (Nat × Line)
  | .action action => action.nested n []
  | .debug action => action.nested n [.keyword .debug]
  | .exitwhen condition => [(n, .keyword .exitwhen :: Fragment.pieces condition.tokens)]
  | .returns none => [(n, [.keyword .returnWord])]
  | .returns (some value) => [(n, .keyword .returnWord :: Fragment.pieces value.tokens)]

/-- The first line has other pieces before those of the action. -/
def Action.nested (n : Nat) (before : Line) : Action → List (Nat × Line)
  | .set id index value => [(n, before ++ Fragment.pieces (Action.set id index value).tokens)]
  | .call id arguments => [(n, before ++ Fragment.pieces (Action.call id arguments).tokens)]
  | .branch condition body alternative =>
    (n, before ++ .keyword .ifWord :: (Fragment.pieces condition.tokens ++ [.keyword .thenWord])) ::
      (body.nested (n + 1) ++ alternative.nested n)
  | .loop body =>
    (n, before ++ [.keyword .loop]) :: (body.nested (n + 1) ++ [(n, [.keyword .endloop])])

def Block.nested (n : Nat) : Block → List (Nat × Line)
  | .nil => []
  | .cons statement rest => statement.nested n ++ rest.nested n

def Alternative.nested (n : Nat) : Alternative → List (Nat × Line)
  | .nothing => [(n, [.keyword .endif])]
  | .otherwise body =>
    (n, [.keyword .elseWord]) :: (body.nested (n + 1) ++ [(n, [.keyword .endif])])
  | .elseif condition body alternative =>
    (n, .keyword .elseif :: (Fragment.pieces condition.tokens ++ [.keyword .thenWord])) ::
      (body.nested (n + 1) ++ alternative.nested n)

end

/-- The lines of a function. Its local variables and its body are in a block. -/
def FunctionDeclaration.nested (declaration : FunctionDeclaration) : List (Nat × Line) :=
  (0, declaration.symbol.toCallable.pieces .function) ::
    (declaration.locals.map (fun declared => (1, .keyword .localWord :: declared.symbol.pieces)) ++
      declaration.body.nested 1 ++ [(0, [.keyword .endfunction])])

/-- The lines of a program: its types, its natives, one block of all globals and its functions. -/
def Program.nested (program : Program) : List (Nat × Line) :=
  (program.declarations.filterMap Declaration.type?).map (fun symbol => (0, symbol.pieces)) ++
    (program.declarations.filterMap Declaration.native?).map
      (fun symbol => (0, symbol.pieces .native)) ++
    (0, [.keyword .globals]) ::
      (program.members.map (fun member => (1, member.symbol.pieces)) ++
        (0, [.keyword .endglobals]) :: program.functions.flatMap FunctionDeclaration.nested)

-- ---------------------------------------------------------------------------
-- They are the lines that are written
-- ---------------------------------------------------------------------------

theorem linesOf_of_ne_newline {part : List Piece}
    (h : ∀ piece ∈ part, piece.token.kind ≠ .newline) :
    linesOf part = [part] :=
  List.splitOnP_eq_singleton fun piece hp => decide_eq_false (h piece hp)

theorem linesOf_append (before after : List Piece) :
    linesOf (before ++ .ofToken .newline :: after) = linesOf before ++ linesOf after :=
  List.splitOnP_append_cons before after (decide_eq_true rfl)

@[simp] theorem pieces_nil : Fragment.pieces [] = [] := rfl

@[simp] theorem pieces_cons (token : Token) (fragment : Fragment) :
    Fragment.pieces (token :: fragment) = .ofToken token :: fragment.pieces := rfl

@[simp] theorem pieces_append (before after : Fragment) :
    Fragment.pieces (before ++ after) = before.pieces ++ after.pieces := List.map_append

theorem pieces_ne_newline {fragment : Fragment} (h : ∀ token ∈ fragment, token.kind ≠ .newline) :
    ∀ piece ∈ fragment.pieces, piece.token.kind ≠ .newline := List.forall_mem_map.mpr h

theorem linesOf_opening {line : Line} (h : ∀ piece ∈ line, piece.token.kind ≠ .newline)
    (rest : List Piece) : linesOf (line ++ .ofToken .newline :: rest) = line :: linesOf rest := by
  rw [linesOf_append, linesOf_of_ne_newline h, List.singleton_append]

theorem word_ne_newline (word : Keyword) :
    ∀ piece ∈ [Piece.keyword word], piece.token.kind ≠ .newline :=
  List.forall_mem_singleton.mpr (keyword_ne_newline word)

theorem guard_ne_newline (word : Keyword) (condition : Expression) :
    ∀ piece ∈ Piece.keyword word :: (Fragment.pieces condition.tokens ++ [.keyword .thenWord]),
      piece.token.kind ≠ .newline := by
  rw [List.forall_mem_cons, List.forall_mem_append, List.forall_mem_singleton]
  exact ⟨keyword_ne_newline _, pieces_ne_newline condition.ne_newline, keyword_ne_newline _⟩

theorem Action.set_ne_newline (id : String) (index : Option Expression) (value : Expression) :
    ∀ token ∈ (Action.set id index value).tokens, token.kind ≠ .newline := by
  cases index with
  | none =>
    simp only [Action.tokens, List.forall_mem_cons]
    exact ⟨nofun, nofun, nofun, value.ne_newline⟩
  | some index =>
    simp only [Action.tokens, List.forall_mem_cons, List.forall_mem_append]
    exact ⟨nofun, nofun, nofun, index.ne_newline, nofun, nofun, value.ne_newline⟩

theorem Action.call_ne_newline (id : String) (arguments : Arguments) :
    ∀ token ∈ (Action.call id arguments).tokens, token.kind ≠ .newline :=
  List.forall_mem_cons.mpr ⟨nofun, (Operand.call id arguments).ne_newline⟩

mutual

theorem Statement.linesOf_tokens (n : Nat) : ∀ statement : Statement,
    linesOf (Fragment.pieces statement.tokens) = (statement.nested n).map Prod.snd
  | .action action => action.linesOf_tokens n [] nofun
  | .debug action => action.linesOf_tokens n [.keyword .debug] (word_ne_newline .debug)
  | .exitwhen condition =>
    linesOf_of_ne_newline
      (pieces_ne_newline (List.forall_mem_cons.mpr ⟨nofun, condition.ne_newline⟩))
  | .returns none => rfl
  | .returns (some value) =>
    linesOf_of_ne_newline (pieces_ne_newline (List.forall_mem_cons.mpr ⟨nofun, value.ne_newline⟩))

theorem Action.linesOf_tokens (n : Nat) (before : Line)
    (h : ∀ piece ∈ before, piece.token.kind ≠ .newline) : ∀ action : Action,
    linesOf (before ++ Fragment.pieces action.tokens) = (action.nested n before).map Prod.snd
  | .set id index value => linesOf_of_ne_newline
    (List.forall_mem_append.mpr ⟨h, pieces_ne_newline (Action.set_ne_newline id index value)⟩)
  | .call id arguments => linesOf_of_ne_newline
    (List.forall_mem_append.mpr ⟨h, pieces_ne_newline (Action.call_ne_newline id arguments)⟩)
  | .branch condition body alternative => by
    have hline := List.forall_mem_append.mpr ⟨h, guard_ne_newline .ifWord condition⟩
    have hlines := linesOf_opening hline
      (Fragment.pieces body.tokens ++ Fragment.pieces alternative.tokens)
    rw [body.linesOf_tokens (n + 1), alternative.linesOf_tokens n] at hlines
    simpa [Action.tokens, Action.nested, Piece.keyword] using hlines
  | .loop body => by
    have hline := List.forall_mem_append.mpr ⟨h, word_ne_newline .loop⟩
    have hlines := linesOf_opening hline (Fragment.pieces body.tokens ++ [.keyword .endloop])
    rw [body.linesOf_tokens (n + 1), linesOf_of_ne_newline (word_ne_newline .endloop)] at hlines
    simpa [Action.tokens, Action.nested, Piece.keyword] using hlines

theorem Block.linesOf_tokens (n : Nat) : ∀ (block : Block) (rest : List Piece),
    linesOf (Fragment.pieces block.tokens ++ rest) = (block.nested n).map Prod.snd ++ linesOf rest
  | .nil, rest => rfl
  | .cons statement block, rest => by
    rw [Block.tokens, Block.nested, pieces_append, pieces_cons, List.append_assoc, List.cons_append,
      linesOf_append, statement.linesOf_tokens n, block.linesOf_tokens n, List.map_append,
      List.append_assoc]

theorem Alternative.linesOf_tokens (n : Nat) : ∀ alternative : Alternative,
    linesOf (Fragment.pieces alternative.tokens) = (alternative.nested n).map Prod.snd
  | .nothing => rfl
  | .otherwise body => by
    have hlines := linesOf_opening (word_ne_newline .elseWord)
      (Fragment.pieces body.tokens ++ [.keyword .endif])
    rw [body.linesOf_tokens (n + 1), linesOf_of_ne_newline (word_ne_newline .endif)] at hlines
    simpa [Alternative.tokens, Alternative.nested, Piece.keyword] using hlines
  | .elseif condition body alternative => by
    have hlines := linesOf_opening (guard_ne_newline .elseif condition)
      (Fragment.pieces body.tokens ++ Fragment.pieces alternative.tokens)
    rw [body.linesOf_tokens (n + 1), alternative.linesOf_tokens n] at hlines
    simpa [Alternative.tokens, Alternative.nested, Piece.keyword] using hlines

end

theorem Block.nested_eq (n : Nat) : ∀ block : Block, block.nested n =
    block.toList.flatMap (Statement.nested n)
  | .nil => rfl
  | .cons _ rest => by rw [nested, toList, List.flatMap_cons, nested_eq n rest]

theorem Signature.ne_newline (s : Signature) : ∀ piece ∈ s.pieces, piece.token.kind ≠ .newline := by
  obtain ⟨id, takes, returns⟩ := s
  have hparameter (p : Parameter) : ∀ piece ∈ p.pieces, piece.token.kind ≠ .newline :=
    List.forall_mem_cons.mpr
      ⟨ofWord_ne_newline p.type, List.forall_mem_singleton.mpr (identifier_ne_newline p.id)⟩
  have htaken : ∀ piece ∈ takenPieces ⟨id, takes, returns⟩, piece.token.kind ≠ .newline := by
    cases takes with
    | nil => exact word_ne_newline .nothing
    | cons first more =>
      rw [takenPieces_cons, List.forall_mem_append, List.forall_mem_flatMap]
      exact ⟨hparameter first, fun p _ => List.forall_mem_cons.mpr ⟨nofun, hparameter p⟩⟩
  rw [pieces, List.forall_mem_append, List.forall_mem_append]
  refine ⟨⟨List.forall_mem_cons.mpr ⟨identifier_ne_newline id, word_ne_newline .takes⟩, htaken⟩,
    List.forall_mem_cons.mpr ⟨keyword_ne_newline .returns, List.forall_mem_singleton.mpr ?_⟩⟩
  cases returns with
  | none => exact keyword_ne_newline .nothing
  | some type => exact identifier_ne_newline type

theorem constant_ne_newline (constant : Bool) :
    ∀ piece ∈ constantPieces constant, piece.token.kind ≠ .newline := by
  cases constant
  · exact nofun
  · exact word_ne_newline .constant

theorem Callable.ne_newline (word : Keyword) (symbol : Callable) :
    ∀ piece ∈ symbol.pieces word, piece.token.kind ≠ .newline := by
  rw [Callable.pieces, List.forall_mem_append, List.forall_mem_cons]
  exact ⟨constant_ne_newline symbol.constant, keyword_ne_newline word, symbol.signature.ne_newline⟩

theorem VariableDeclaration.ne_newline (declared : VariableDeclaration) :
    ∀ piece ∈ declared.symbol.pieces, piece.token.kind ≠ .newline := by
  obtain ⟨position, type, id, initial⟩ := declared
  have hid : ∀ piece ∈ [Piece.identifier id], piece.token.kind ≠ .newline :=
    List.forall_mem_singleton.mpr (identifier_ne_newline id)
  refine List.forall_mem_cons.mpr ⟨ofWord_ne_newline type, ?_⟩
  cases initial with
  | array => exact List.forall_mem_cons.mpr ⟨keyword_ne_newline .array, hid⟩
  | unset => exact hid
  | value value =>
    exact List.forall_mem_cons.mpr ⟨identifier_ne_newline id,
      List.forall_mem_cons.mpr ⟨nofun, pieces_ne_newline value.ne_newline⟩⟩

theorem GlobalDeclaration.ne_newline (member : GlobalDeclaration) :
    ∀ piece ∈ member.symbol.pieces, piece.token.kind ≠ .newline :=
  List.forall_mem_append.mpr ⟨constant_ne_newline member.isConstant, member.declared.ne_newline⟩

theorem TypeSymbol.ne_newline (symbol : TypeSymbol) :
    ∀ piece ∈ symbol.pieces, piece.token.kind ≠ .newline := by
  simp only [pieces, List.forall_mem_cons]
  exact ⟨nofun, nofun, nofun, nofun, nofun⟩

theorem flatMap_linesOf {items : List α} {part : α → List Piece}
    (h : ∀ a ∈ items, ∀ piece ∈ part a, piece.token.kind ≠ .newline) :
    (items.map part).flatMap linesOf = items.map part := by
  rw [List.flatMap_map, List.map_eq_flatMap]
  exact List.flatMap_congr fun a ha => linesOf_of_ne_newline (h a ha)

theorem FunctionDeclaration.flatMap_linesOf_parts (declaration : FunctionDeclaration) :
    declaration.symbol.parts.flatMap linesOf = declaration.nested.map Prod.snd := by
  have hhead := linesOf_of_ne_newline (declaration.symbol.toCallable.ne_newline .function)
  have hlocals :
      (declaration.symbol.locals.map fun v => .keyword .localWord :: v.pieces).flatMap linesOf =
      declaration.locals.map fun declared => .keyword .localWord :: declared.symbol.pieces := by
    rw [symbol, List.map_map]
    exact flatMap_linesOf fun declared _ =>
      List.forall_mem_cons.mpr ⟨keyword_ne_newline .localWord, declared.ne_newline⟩
  have hbody : (declaration.symbol.statements.map Fragment.pieces).flatMap linesOf =
      (declaration.body.nested 1).map Prod.snd := by
    rw [symbol, List.map_map, Block.nested_eq, List.flatMap_map, List.map_flatMap]
    exact List.flatMap_congr fun statement _ => statement.linesOf_tokens 1
  rw [Function.parts, List.flatMap_cons, List.flatMap_append, List.flatMap_append, hhead,
    hlocals, hbody, List.flatMap_singleton, linesOf_of_ne_newline (word_ne_newline .endfunction)]
  simp [nested]

theorem lines_ofProgram (program : Program) :
    (ofProgram program).lines = program.nested.map Prod.snd := by
  have htypes : ((ofProgram program).types.map TypeSymbol.pieces).flatMap linesOf = _ :=
    flatMap_linesOf fun symbol _ => symbol.ne_newline
  have hnatives : ((ofProgram program).natives.map (Callable.pieces .native)).flatMap linesOf = _ :=
    flatMap_linesOf fun symbol _ => symbol.ne_newline .native
  have hglobals : ((ofProgram program).globals.map Global.pieces).flatMap linesOf =
      program.members.map fun member => member.symbol.pieces := by
    rw [globals_ofProgram, List.map_map]
    exact flatMap_linesOf fun member _ => member.ne_newline
  have hfunctions : ((ofProgram program).functions.flatMap Function.parts).flatMap linesOf =
      (program.functions.flatMap FunctionDeclaration.nested).map Prod.snd := by
    rw [ofProgram, List.flatMap_map, List.flatMap_assoc, List.map_flatMap]
    exact List.flatMap_congr fun declaration _ => declaration.flatMap_linesOf_parts
  rw [lines, parts]
  simp only [List.flatMap_append, List.flatMap_cons, htypes, hnatives, hglobals, hfunctions,
    linesOf_of_ne_newline (word_ne_newline _)]
  simp [Program.nested, ofProgram, Function.comp_def]

-- ---------------------------------------------------------------------------
-- The count
-- ---------------------------------------------------------------------------

/-- The count goes over the lines from one depth to another, never below zero, and indents each
line by its number. -/
inductive Counts : Nat → List (Nat × Line) → Nat → Prop
  | nil {depth} : Counts depth [] depth
  | cons {depth n line rest last} : (closesBlock line = true → 0 < depth) →
      indentation depth line = n →
      Counts (depthAfter depth line) rest last → Counts depth ((n, line) :: rest) last

section

variable {n depth last : Nat} {line before : Line} {all others : List (Nat × Line)} {word : Keyword}

theorem Counts.append (h : Counts n all depth) (h' : Counts depth others last) :
    Counts n (all ++ others) last := by
  induction h with
  | nil => exact h'
  | cons hclamp hn _ ih => exact .cons hclamp hn (ih h')

theorem counts_plain (hcloses : closesBlock line = false) (hopens : opensBlock line = false) :
    Counts n [(n, line)] n := by
  have hn : indentation n line = n := by simp [indentation, hcloses]
  refine .cons (fun h => absurd h (by simp [hcloses])) hn ?_
  rw [depthAfter, hn, hopens]
  exact .nil

theorem Counts.opening (hcloses : closesBlock line = false) (hopens : opensBlock line = true)
    (h : Counts (n + 1) all last) : Counts n ((n, line) :: all) last := by
  have hn : indentation n line = n := by simp [indentation, hcloses]
  refine .cons (fun h => absurd h (by simp [hcloses])) hn ?_
  rwa [depthAfter, hn, hopens]

theorem counts_closing (hcloses : closesBlock line = true) (hopens : opensBlock line = false) :
    Counts (n + 1) [(n, line)] n := by
  have hn : indentation (n + 1) line = n := by simp [indentation, hcloses]
  refine .cons (fun _ => n.succ_pos) hn ?_
  rw [depthAfter, hn, hopens]
  exact .nil

/-- A line that ends a block and starts the next one. -/
theorem Counts.next (hcloses : closesBlock line = true) (hopens : opensBlock line = true)
    (h : Counts (n + 1) all last) : Counts (n + 1) ((n, line) :: all) last := by
  have hn : indentation (n + 1) line = n := by simp [indentation, hcloses]
  refine .cons (fun _ => n.succ_pos) hn ?_
  rwa [depthAfter, hn, hopens]

def Overlooked (before : Line) : Prop := ∀ line, leadingKind? (before ++ line) = leadingKind? line

theorem overlooked_nil : Overlooked [] := fun _ => rfl

theorem overlooked_debug : Overlooked [.keyword .debug] := fun _ => rfl

theorem overlooked_constant (constant : Bool) : Overlooked (constantPieces constant) := by
  cases constant <;> exact fun _ => rfl

theorem Overlooked.closesBlock (h : Overlooked before) (line : Line) :
    closesBlock (before ++ line) = Script.closesBlock line := by
  rw [Script.closesBlock, h, Script.closesBlock]

theorem Overlooked.opensBlock (h : Overlooked before) (line : Line) :
    opensBlock (before ++ line) = Script.opensBlock line := by
  rw [Script.opensBlock, h, Script.opensBlock]

theorem Overlooked.counts_plain (h : Overlooked before) (hcloses : Script.closesBlock line = false)
    (hopens : Script.opensBlock line = false) : Counts n [(n, before ++ line)] n :=
  Script.counts_plain ((h.closesBlock line).trans hcloses) ((h.opensBlock line).trans hopens)

theorem Overlooked.opening (h : Overlooked before) (hcloses : Script.closesBlock line = false)
    (hopens : Script.opensBlock line = true) (hall : Counts (n + 1) all last) :
    Counts n ((n, before ++ line) :: all) last :=
  hall.opening ((h.closesBlock line).trans hcloses) ((h.opensBlock line).trans hopens)

end

mutual

theorem Statement.counts (n : Nat) : ∀ statement : Statement, Counts n (statement.nested n) n
  | .action action => action.counts n overlooked_nil
  | .debug action => action.counts n overlooked_debug
  | .exitwhen _ | .returns none | .returns (some _) => counts_plain rfl rfl

theorem Action.counts (n : Nat) {before : Line} (h : Overlooked before) : ∀ action : Action,
    Counts n (action.nested n before) n
  | .set _ none _ | .set _ (some _) _ | .call _ _ => h.counts_plain rfl rfl
  | .branch _ body alternative =>
    h.opening rfl rfl ((body.counts (n + 1)).append (alternative.counts n))
  | .loop body => h.opening rfl rfl ((body.counts (n + 1)).append (counts_closing rfl rfl))

theorem Block.counts (n : Nat) : ∀ block : Block, Counts n (block.nested n) n
  | .nil => .nil
  | .cons statement rest => (statement.counts n).append (rest.counts n)

/-- An alternative closes the block before it. -/
theorem Alternative.counts (n : Nat) : ∀ alternative : Alternative,
    Counts (n + 1) (alternative.nested n) n
  | .nothing => counts_closing rfl rfl
  | .otherwise body => ((body.counts (n + 1)).append (counts_closing rfl rfl)).next rfl rfl
  | .elseif _ body alternative =>
    ((body.counts (n + 1)).append (alternative.counts n)).next rfl rfl

end

theorem counts_flatMap {items : List α} {nested : α → List (Nat × Line)} (n : Nat)
    (h : ∀ a ∈ items, Counts n (nested a) n) : Counts n (items.flatMap nested) n := by
  induction items with
  | nil => exact .nil
  | cons a items ih =>
    obtain ⟨ha, hitems⟩ := List.forall_mem_cons.mp h
    exact ha.append (ih hitems)

theorem counts_map {items : List α} {line : α → Line} (n : Nat)
    (h : ∀ a ∈ items, Counts n [(n, line a)] n) :
    Counts n (items.map fun a => (n, line a)) n := by
  rw [List.map_eq_flatMap]
  exact counts_flatMap n h

theorem FunctionDeclaration.counts (declaration : FunctionDeclaration) :
    Counts 0 declaration.nested 0 := by
  have hlocals : Counts 1 (declaration.locals.map fun declared =>
      (1, .keyword .localWord :: declared.symbol.pieces)) 1 :=
    counts_map 1 fun _ _ => counts_plain rfl rfl
  exact (overlooked_constant _).opening rfl rfl
    ((hlocals.append (declaration.body.counts 1)).append (counts_closing rfl rfl))

/-- The name of a type that was read is not one of the words that blocks are told by. -/
theorem counts_type {name : String} (h : (Token.typeName name).Lexed) (rest : Line) :
    closesBlock (.type name :: rest) = false ∧ opensBlock (.type name :: rest) = false := by
  have hkind : TokenKind.ofWord name = .identifier ∨
      ∃ type, TokenKind.ofWord name = .builtin type := by
    have hword : TokenKind.ofWord name = (Token.typeName name).kind :=
      congrArg Token.kind (typeName_eq_ofWord h)
    rw [hword, Token.typeName]
    split
    · exact .inr ⟨_, rfl⟩
    · exact .inl rfl
  have hlead : leadingKind? (.type name :: rest) = some (.ofWord name) := by
    obtain hname | ⟨type, hname⟩ := hkind <;> simp [leadingKind?, Piece.type, hname]
  rw [closesBlock, opensBlock, hlead]
  obtain hname | ⟨type, hname⟩ := hkind <;> rw [hname] <;> exact ⟨rfl, rfl⟩

theorem GlobalDeclaration.counts {member : GlobalDeclaration}
    (h : ∀ token ∈ member.tokens, token.Lexed) :
    Counts 1 [(1, member.symbol.pieces)] 1 := by
  have htype : (Token.typeName member.declared.type).Lexed := by
    cases member with
    | constant position type id value => exact h _ (List.mem_cons_of_mem _ List.mem_cons_self)
    | plain declared => exact h _ List.mem_cons_self
  obtain ⟨hcloses, hopens⟩ := counts_type htype _
  exact (overlooked_constant member.isConstant).counts_plain hcloses hopens

theorem Program.Lexed.counts {program : Program} (h : program.Lexed) :
    Counts 0 program.nested 0 := by
  have htypes : Counts 0 ((program.declarations.filterMap Declaration.type?).map fun symbol =>
      (0, symbol.pieces)) 0 := counts_map 0 fun _ _ => counts_plain rfl rfl
  have hnatives : Counts 0 ((program.declarations.filterMap Declaration.native?).map fun symbol =>
      (0, symbol.pieces .native)) 0 :=
    counts_map 0 fun symbol _ => (overlooked_constant symbol.constant).counts_plain rfl rfl
  have hmembers : Counts 1 (program.members.map fun member => (1, member.symbol.pieces)) 1 :=
    counts_map 1 fun member hm => GlobalDeclaration.counts (h.members member hm)
  have hfunctions : Counts 0 (program.functions.flatMap FunctionDeclaration.nested) 0 :=
    counts_flatMap 0 fun declaration _ => declaration.counts
  have hclosing : Counts 1 [(0, [Piece.keyword .endglobals])] 0 := counts_closing rfl rfl
  exact (htypes.append hnatives).append
    ((hmembers.append (hclosing.append hfunctions)).opening rfl rfl)

-- ---------------------------------------------------------------------------
-- The text
-- ---------------------------------------------------------------------------

def bareChars : Line → List Char
  | [] => []
  | first :: rest => first.token.text.toList ++ afterChars first rest

theorem Counts.linesChars (h : Counts depth all last) (hne : ∀ line ∈ all.map Prod.snd, line ≠ []) :
    linesChars depth (all.map Prod.snd) =
      all.flatMap fun (n, line) => List.replicate (4 * n) ' ' ++ bareChars line ++ ['\n'] := by
  induction h with
  | nil => rfl
  | @cons depth n line rest last _ hn _ ih =>
    obtain ⟨hline, hrest⟩ := List.forall_mem_cons.mp hne
    obtain ⟨first, more, rfl⟩ := List.exists_cons_of_ne_nil hline
    simp only [List.map_cons, Script.linesChars, List.flatMap_cons, ih hrest, lineChars, hn,
      bareChars, List.append_assoc]

theorem ShowsAll.readable (h : ShowsAll written tokens) :
    ∀ line ∈ written.flatMap linesOf, Readable line := by
  intro line hline
  obtain ⟨part, hpart, hline⟩ := List.mem_flatMap.mp hline
  exact (readable_linesOf part (h.neat part hpart) (h.lexed part hpart)).1 line hline

theorem Readable.bareChars {line : Line} (h : Readable line) :
    ∃ first rest, bareChars line = first :: rest ∧ isBlank first = false := by
  obtain ⟨piece, more, rfl⟩ := List.exists_cons_of_ne_nil h.ne_nil
  obtain ⟨first, input, n, hlexeme, htext⟩ := h.lexed piece List.mem_cons_self
  have hne := Piece.read_ne_newline (h.ne_newline piece List.mem_cons_self)
  rw [piece.text_read, tokenText, if_neg hne] at htext
  refine ⟨first, input.take n ++ afterChars piece more, ?_, hlexeme.not_blank⟩
  rw [Script.bareChars, htext, String.toList_ofList, List.cons_append]

/-- The text of a script that was read has the lines of the program, each after four spaces for
each block that it is in, and the count by which they are indented is exact. -/
theorem text_indented (h : ofText input = .ok script) :
    ∃ program, Program.ofText input = .ok program ∧
    script.lines = program.nested.map Prod.snd ∧ Counts 0 program.nested 0 ∧
    (∀ line ∈ script.lines, ∃ first rest, bareChars line = first :: rest ∧ isBlank first = false) ∧
    script.text.toList =
      program.nested.flatMap fun (n, line) => List.replicate (4 * n) ' ' ++ bareChars line ++
        ['\n'] := by
  obtain ⟨program, -, -, hprogram, -, hfits, hlexed, rfl⟩ := exists_program_of_ofText h
  have hlines := lines_ofProgram program
  have hreadable : ∀ line ∈ (ofProgram program).lines, Readable line :=
    (showsAll_ofProgram hfits hlexed).readable
  refine ⟨program, hprogram, hlines, hlexed.counts,
    fun line hline => (hreadable line hline).bareChars, ?_⟩
  rw [toList_text, hlines]
  exact hlexed.counts.linesChars fun line hline => (hreadable line (hlines ▸ hline)).ne_nil

/-- A function with a block of each kind, and a string with a line break. -/
def branching : String :=
  "constant function f takes nothing returns nothing\nlocal string s=\"a\nb\"\ndebug if true then\nloop\n" ++
    "exitwhen true\nendloop\nelse\nset s=null\nendif\nendfunction"

def branchingScript : Script where
  types := []
  natives := []
  globals := []
  functions := [⟨⟨⟨"f", [], none⟩, true, some ⟨1, 1, 0⟩⟩,
    [⟨"string", "s", false, some [⟨.literal .string, "\"a\nb\""⟩], some ⟨2, 1, 50⟩⟩],
    [[.keyword .debug, .keyword .ifWord, ⟨.literal .boolean, "true"⟩, .keyword .thenWord, .newline,
      .keyword .loop, .newline, .keyword .exitwhen, ⟨.literal .boolean, "true"⟩, .newline,
      .keyword .endloop, .newline, .keyword .elseWord, .newline, .keyword .set, .identifier "s",
      .assign, ⟨.literal .null, "null"⟩, .newline, .keyword .endif]]⟩]

theorem text_indented_branching : ofText branching = .ok branchingScript ∧
    (∃ program, Program.ofText branching = .ok program ∧
      branchingScript.lines = program.nested.map Prod.snd ∧ Counts 0 program.nested 0) ∧
    branchingScript.text =
      "globals\nendglobals\nconstant function f takes nothing returns nothing\n" ++
      "    local string s = \"a\nb\"\n    debug if true then\n        loop\n            exitwhen true\n" ++
      "        endloop\n    else\n        set s = null\n    endif\nendfunction\n" := by
  have h : ofText branching = .ok branchingScript := by decide +kernel
  obtain ⟨program, hprogram, hlines, hcounts, -, -⟩ := text_indented h
  exact ⟨h, ⟨program, hprogram, hlines, hcounts⟩, by decide +kernel⟩

end Mapsmith.Script
