import Mapsmith.Proofs.Script.Levels

/-!
# Depths

The depth of a tree is the number of levels that are open at once where it nests
deepest. Each of these takes a level: a block, parentheses, an argument of a call, a
unary operator and the index of an element. How many the index of what is set takes is
given by `target`.

With none for it, the depth decides how many levels a tree fits.
-/

namespace Mapsmith.Script

-- ---------------------------------------------------------------------------
-- Expressions and statements
-- ---------------------------------------------------------------------------

mutual

def Expression.depth : Expression → Nat
  | .chain first rest => max first.depth rest.depth

def Links.depth : Links → Nat
  | .nil => 0
  | .cons _ operand rest => max operand.depth rest.depth

def Operand.depth : Operand → Nat
  | .unary _ operand => operand.depth + 1
  | .literal .. | .name _ | .function _ => 0
  | .call _ arguments => arguments.depth
  | .element _ index => index.depth + 1
  | .parens inner => inner.depth + 1

def Arguments.depth : Arguments → Nat
  | .nil => 0
  | .cons argument rest => max (argument.depth + 1) rest.depth

end

mutual

def Statement.depth (target : Nat) : Statement → Nat
  | .action action | .debug action => action.depth target
  | .exitwhen condition => condition.depth
  | .returns none => 0
  | .returns (some value) => value.depth

def Action.depth (target : Nat) : Action → Nat
  | .set _ none value => value.depth
  | .set _ (some index) value => max (index.depth + target) value.depth
  | .call _ arguments => arguments.depth
  | .branch condition body alternative =>
    max condition.depth (max (body.depth target + 1) (alternative.depth target))
  | .loop body => body.depth target + 1

def Block.depth (target : Nat) : Block → Nat
  | .nil => 0
  | .cons statement rest => max (statement.depth target) (rest.depth target)

def Alternative.depth (target : Nat) : Alternative → Nat
  | .nothing => 0
  | .otherwise body => body.depth target + 1
  | .elseif condition body alternative =>
    max condition.depth (max (body.depth target + 1) (alternative.depth target))

end

-- ---------------------------------------------------------------------------
-- Declarations
-- ---------------------------------------------------------------------------

def deepest (depth : α → Nat) (items : List α) : Nat := (items.map depth).foldr max 0

def VariableDeclaration.depth (declared : VariableDeclaration) : Nat :=
  match declared.initial with
  | .array | .unset => 0
  | .value value => value.depth

def GlobalDeclaration.depth : GlobalDeclaration → Nat
  | constant _ _ _ value => value.depth
  | plain declared => declared.depth

def Declaration.depth : Declaration → Nat
  | type .. | native .. => 0
  | globals _ members => deepest GlobalDeclaration.depth members

def FunctionDeclaration.depth (target : Nat) (declaration : FunctionDeclaration) : Nat :=
  max (deepest VariableDeclaration.depth declaration.locals) (declaration.body.depth target)

def Program.depth (target : Nat) (program : Program) : Nat :=
  max (deepest Declaration.depth program.declarations)
    (deepest (FunctionDeclaration.depth target) program.functions)

theorem deepest_le {depth : α → Nat} {items : List α} :
    deepest depth items ≤ n ↔ ∀ item ∈ items, depth item ≤ n := by
  induction items with
  | nil => simp [deepest]
  | cons item items ih => rw [List.forall_mem_cons, ← ih, ← Nat.max_le]; rfl

-- ---------------------------------------------------------------------------
-- Levels that are enough
-- ---------------------------------------------------------------------------

theorem below_iff {P : Nat → Prop} (h : ∀ m, P m ↔ d ≤ m) :
    (∃ m, n = m + 1 ∧ P m) ↔ d + 1 ≤ n := by
  constructor
  · rintro ⟨m, rfl, hm⟩
    exact Nat.succ_le_succ ((h m).mp hm)
  · intro hd
    obtain ⟨m, rfl⟩ := Nat.exists_eq_add_of_le' (Nat.one_le_of_lt hd)
    exact ⟨m, rfl, (h m).mpr (Nat.le_of_succ_le_succ hd)⟩

mutual

theorem Expression.fits_iff_depth : ∀ (e : Expression) (n : Nat), e.Fits n ↔ e.depth ≤ n
  | .chain first rest, n => by
    rw [Expression.Fits, Expression.depth, Nat.max_le, first.fits_iff_depth, rest.fits_iff_depth]

theorem Links.fits_iff_depth : ∀ (links : Links) (n : Nat), links.Fits n ↔ links.depth ≤ n
  | .nil, n => iff_of_true trivial n.zero_le
  | .cons _ operand rest, n => by
    rw [Links.Fits, Links.depth, Nat.max_le, operand.fits_iff_depth, rest.fits_iff_depth]

theorem Operand.fits_iff_depth : ∀ (e : Operand) (n : Nat), e.Fits n ↔ e.depth ≤ n
  | .unary _ operand, _ => below_iff operand.fits_iff_depth
  | .literal .., n | .name _, n | .function _, n => iff_of_true trivial n.zero_le
  | .call _ arguments, n => arguments.fits_iff_depth n
  | .element _ index, _ => below_iff index.fits_iff_depth
  | .parens inner, _ => below_iff inner.fits_iff_depth

theorem Arguments.fits_iff_depth :
    ∀ (arguments : Arguments) (n : Nat), arguments.Fits n ↔ arguments.depth ≤ n
  | .nil, n => iff_of_true trivial n.zero_le
  | .cons argument rest, n => by
    rw [Arguments.Fits, Arguments.depth, Nat.max_le, below_iff argument.fits_iff_depth,
      rest.fits_iff_depth]

end

-- Levels do not tell where loops may be left, so of statements the depth decides only
-- between numbers of levels.
mutual

theorem Statement.fits_iff_depth : ∀ {n inLoop} (statement : Statement),
    statement.Fits n inLoop → ∀ m, statement.Fits m inLoop ↔ statement.depth 0 ≤ m
  | _, _, .action action, h, m | _, _, .debug action, h, m => action.fits_iff_depth h m
  | _, _, .exitwhen condition, ⟨hloop, _⟩, m =>
    (and_iff_right hloop).trans (condition.fits_iff_depth m)
  | _, _, .returns none, _, m => iff_of_true trivial m.zero_le
  | _, _, .returns (some value), _, m => value.fits_iff_depth m

theorem Action.fits_iff_depth : ∀ {n inLoop} (action : Action),
    action.Fits n inLoop → ∀ m, action.Fits m inLoop ↔ action.depth 0 ≤ m
  | _, _, .set _ none value, _, m => value.fits_iff_depth m
  | _, _, .set _ (some index) value, _, m => by
    rw [Action.Fits, Action.depth, Nat.max_le, index.fits_iff_depth, value.fits_iff_depth,
      Nat.add_zero]
  | _, _, .call _ arguments, _, m => arguments.fits_iff_depth m
  | _, _, .branch condition body alternative, ⟨_, ⟨_, _, hbody⟩, halternative⟩, m => by
    rw [Action.Fits, Action.depth, Nat.max_le, Nat.max_le, condition.fits_iff_depth,
      below_iff (body.fits_iff_depth hbody), alternative.fits_iff_depth halternative]
  | _, _, .loop body, ⟨_, _, hbody⟩, _ => below_iff (body.fits_iff_depth hbody)

theorem Block.fits_iff_depth : ∀ {n inLoop} (block : Block),
    block.Fits n inLoop → ∀ m, block.Fits m inLoop ↔ block.depth 0 ≤ m
  | _, _, .nil, _, m => iff_of_true trivial m.zero_le
  | _, _, .cons statement rest, ⟨hstatement, hrest⟩, m => by
    rw [Block.Fits, Block.depth, Nat.max_le, statement.fits_iff_depth hstatement,
      rest.fits_iff_depth hrest]

theorem Alternative.fits_iff_depth : ∀ {n inLoop} (alternative : Alternative),
    alternative.Fits n inLoop → ∀ m, alternative.Fits m inLoop ↔ alternative.depth 0 ≤ m
  | _, _, .nothing, _, m => iff_of_true trivial m.zero_le
  | _, _, .otherwise body, ⟨_, _, hbody⟩, _ => below_iff (body.fits_iff_depth hbody)
  | _, _, .elseif condition body alternative, ⟨_, ⟨_, _, hbody⟩, halternative⟩, m => by
    rw [Alternative.Fits, Alternative.depth, Nat.max_le, Nat.max_le, condition.fits_iff_depth,
      below_iff (body.fits_iff_depth hbody), alternative.fits_iff_depth halternative]

end

theorem VariableDeclaration.fits_iff_depth (declared : VariableDeclaration) (n : Nat) :
    declared.Fits n ↔ declared.depth ≤ n := by
  obtain ⟨position, type, id, initial⟩ := declared
  cases initial with
  | array | unset => exact iff_of_true nofun n.zero_le
  | value value =>
    rw [Fits, depth, ← value.fits_iff_depth]
    exact ⟨fun h => h value rfl, by rintro h _ ⟨⟩; exact h⟩

theorem GlobalDeclaration.fits_iff_depth (member : GlobalDeclaration) (n : Nat) :
    member.Fits n ↔ member.depth ≤ n := by
  cases member with
  | constant position type id value => exact value.fits_iff_depth n
  | plain declared => exact declared.fits_iff_depth n

theorem Declaration.fits_iff_depth {d : Declaration} (h : d.Fits n) (m : Nat) :
    d.Fits m ↔ d.depth ≤ m := by
  cases d with
  | type => exact iff_of_true h m.zero_le
  | native => exact iff_of_true trivial m.zero_le
  | globals position members =>
    rw [Fits, depth, deepest_le]
    exact forall₂_congr fun member _ => member.fits_iff_depth m

theorem FunctionDeclaration.fits_iff_depth {f : FunctionDeclaration} (h : f.Fits n) (m : Nat) :
    f.Fits m ↔ f.depth 0 ≤ m := by
  rw [Fits, depth, Nat.max_le, deepest_le, f.body.fits_iff_depth h.2]
  exact and_congr_left' (forall₂_congr fun declared _ => declared.fits_iff_depth m)

theorem Program.fits_iff_depth {program : Program} (h : program.Fits n) (m : Nat) :
    program.Fits m ↔ program.depth 0 ≤ m := by
  have hdeclarations : (∀ d ∈ program.declarations, d.Fits m) ↔
      ∀ d ∈ program.declarations, d.depth ≤ m :=
    forall₂_congr fun d hd => Declaration.fits_iff_depth (h.declarations d hd) m
  have hfunctions : (∀ f ∈ program.functions, f.Fits m) ↔
      ∀ f ∈ program.functions, f.depth 0 ≤ m :=
    forall₂_congr fun f hf => FunctionDeclaration.fits_iff_depth (h.functions f hf) m
  rw [depth, Nat.max_le, deepest_le, deepest_le, ← hdeclarations, ← hfunctions]
  exact ⟨fun h => ⟨h.declarations, h.functions⟩, fun h => ⟨h.1, h.2⟩⟩

-- ---------------------------------------------------------------------------
-- The level of a target
-- ---------------------------------------------------------------------------

mutual

theorem Statement.depth_target (statement : Statement) :
    statement.depth 0 ≤ statement.depth 1 ∧ statement.depth 1 ≤ statement.depth 0 + 1 := by
  cases statement with
  | action action | debug action => exact action.depth_target
  | exitwhen condition => exact ⟨Nat.le_refl _, Nat.le_succ _⟩
  | returns value => cases value <;> exact ⟨Nat.le_refl _, Nat.le_succ _⟩

theorem Action.depth_target (action : Action) :
    action.depth 0 ≤ action.depth 1 ∧ action.depth 1 ≤ action.depth 0 + 1 := by
  cases action with
  | set id index value =>
    cases index with
    | none => exact ⟨Nat.le_refl _, Nat.le_succ _⟩
    | some index =>
      rw [Action.depth, Action.depth]
      omega
  | call id arguments => exact ⟨Nat.le_refl _, Nat.le_succ _⟩
  | branch condition body alternative =>
    have hbody := body.depth_target
    have halternative := alternative.depth_target
    rw [Action.depth, Action.depth]
    omega
  | loop body =>
    have hbody := body.depth_target
    rw [Action.depth, Action.depth]
    omega

theorem Block.depth_target (block : Block) :
    block.depth 0 ≤ block.depth 1 ∧ block.depth 1 ≤ block.depth 0 + 1 := by
  cases block with
  | nil => exact ⟨Nat.le_refl _, Nat.le_succ _⟩
  | cons statement rest =>
    have hstatement := statement.depth_target
    have hrest := rest.depth_target
    rw [Block.depth, Block.depth]
    omega

theorem Alternative.depth_target (alternative : Alternative) :
    alternative.depth 0 ≤ alternative.depth 1 ∧ alternative.depth 1 ≤ alternative.depth 0 + 1 := by
  cases alternative with
  | nothing => exact ⟨Nat.le_refl _, Nat.le_succ _⟩
  | otherwise body =>
    have hbody := body.depth_target
    rw [Alternative.depth, Alternative.depth]
    omega
  | elseif condition body alternative =>
    have hbody := body.depth_target
    have halternative := alternative.depth_target
    rw [Alternative.depth, Alternative.depth]
    omega

end

theorem deepest_le_of_le {depth depth' : α → Nat} {items : List α}
    (h : ∀ item, depth item ≤ depth' item) : deepest depth items ≤ deepest depth' items :=
  deepest_le.mpr fun item hmem => Nat.le_trans (h item) (deepest_le.mp (Nat.le_refl _) item hmem)

theorem Program.depth_target (program : Program) :
    program.depth 0 ≤ program.depth 1 ∧ program.depth 1 ≤ program.depth 0 + 1 := by
  have hfunction (f : FunctionDeclaration) : f.depth 0 ≤ f.depth 1 ∧ f.depth 1 ≤ f.depth 0 + 1 := by
    have hbody := f.body.depth_target
    rw [FunctionDeclaration.depth, FunctionDeclaration.depth]
    omega
  have hle : deepest (FunctionDeclaration.depth 0) program.functions ≤
      deepest (FunctionDeclaration.depth 1) program.functions :=
    deepest_le_of_le fun f => (hfunction f).1
  have hsucc : deepest (FunctionDeclaration.depth 1) program.functions ≤
      deepest (FunctionDeclaration.depth 0) program.functions + 1 :=
    deepest_le.mpr fun f hmem =>
      Nat.le_trans (hfunction f).2 (Nat.succ_le_succ (deepest_le.mp (Nat.le_refl _) f hmem))
  rw [depth, depth]
  omega

-- ---------------------------------------------------------------------------
-- Positions
-- ---------------------------------------------------------------------------

theorem deepest_congr {depth : α → Nat} {f : α → α} (hdepth : ∀ item, depth (f item) = depth item)
    (h : items.map f = others.map f) : deepest depth items = deepest depth others := by
  have hmap (items : List α) : deepest depth (items.map f) = deepest depth items := by
    rw [deepest, List.map_map, Function.comp_def, deepest]
    simp only [hdepth]
  rw [← hmap items, h, hmap]

theorem Declaration.depth_unplaced (d : Declaration) : d.unplaced.depth = d.depth := by
  cases d with
  | type | native => rfl
  | globals position members =>
    have hmember (member : GlobalDeclaration) : member.unplaced.depth = member.depth := by
      cases member <;> rfl
    rw [unplaced, depth, depth, deepest, List.map_map, Function.comp_def, deepest]
    simp only [hmember]

theorem FunctionDeclaration.depth_unplaced (f : FunctionDeclaration) :
    f.unplaced.depth target = f.depth target := by
  rw [depth, depth, unplaced, deepest, List.map_map]
  rfl

theorem Program.depth_congr {first second : Program}
    (hdeclarations : first.declarations.map Declaration.unplaced =
      second.declarations.map Declaration.unplaced)
    (hfunctions : first.functions.map FunctionDeclaration.unplaced =
      second.functions.map FunctionDeclaration.unplaced) :
    first.depth target = second.depth target := by
  rw [depth, depth, deepest_congr Declaration.depth_unplaced hdeclarations,
    deepest_congr FunctionDeclaration.depth_unplaced hfunctions]

end Mapsmith.Script
