import Mapsmith.Script.Grammar

/-!
# Trees within levels

A tree fits so many levels if no more are open at once anywhere in it, and if its
loops are left only where one is open. `tokens` lists the tokens of the trees that
stand for declarations, as it does of those that stand for statements.
-/

namespace Mapsmith.Script

-- ---------------------------------------------------------------------------
-- Expressions and statements
-- ---------------------------------------------------------------------------

mutual

def Expression.Fits (n : Nat) : Expression → Prop
  | .chain first rest => first.Fits n ∧ rest.Fits n

def Links.Fits (n : Nat) : Links → Prop
  | .nil => True
  | .cons _ operand rest => operand.Fits n ∧ rest.Fits n

/-- A unary operator takes a level, as parentheses and an index do. -/
def Operand.Fits (n : Nat) : Operand → Prop
  | .unary _ operand => ∃ m, n = m + 1 ∧ operand.Fits m
  | .literal .. | .name _ | .function _ => True
  | .call _ arguments => arguments.Fits n
  | .element _ index => ∃ m, n = m + 1 ∧ index.Fits m
  | .parens inner => ∃ m, n = m + 1 ∧ inner.Fits m

def Arguments.Fits (n : Nat) : Arguments → Prop
  | .nil => True
  | .cons argument rest => (∃ m, n = m + 1 ∧ argument.Fits m) ∧ rest.Fits n

end

mutual

def Statement.Fits (n : Nat) (inLoop : Bool) : Statement → Prop
  | .action action | .debug action => action.Fits n inLoop
  | .exitwhen condition => inLoop = true ∧ condition.Fits n
  | .returns none => True
  | .returns (some value) => value.Fits n

/-- A block takes a level; the index of what is set takes none. -/
def Action.Fits (n : Nat) (inLoop : Bool) : Action → Prop
  | .set _ none value => value.Fits n
  | .set _ (some index) value => index.Fits n ∧ value.Fits n
  | .call _ arguments => arguments.Fits n
  | .branch condition body alternative =>
    condition.Fits n ∧ (∃ m, n = m + 1 ∧ body.Fits m inLoop) ∧ alternative.Fits n inLoop
  | .loop body => ∃ m, n = m + 1 ∧ body.Fits m true

def Block.Fits (n : Nat) (inLoop : Bool) : Block → Prop
  | .nil => True
  | .cons statement rest => statement.Fits n inLoop ∧ rest.Fits n inLoop

def Alternative.Fits (n : Nat) (inLoop : Bool) : Alternative → Prop
  | .nothing => True
  | .otherwise body => ∃ m, n = m + 1 ∧ body.Fits m inLoop
  | .elseif condition body alternative =>
    condition.Fits n ∧ (∃ m, n = m + 1 ∧ body.Fits m inLoop) ∧ alternative.Fits n inLoop

end

-- ---------------------------------------------------------------------------
-- Lists within trees
-- ---------------------------------------------------------------------------

@[simp] theorem Links.toList_ofList (items : List (BinaryOperator × Operand)) :
    (ofList items).toList = items := by
  induction items with
  | nil => rfl
  | cons item items ih => rw [ofList, toList, ih]

@[simp] theorem Links.ofList_toList : ∀ links : Links, ofList links.toList = links
  | .nil => rfl
  | .cons _ _ rest => by rw [toList, ofList, ofList_toList rest]

theorem Links.tokens_eq : ∀ links : Links, links.tokens =
    links.toList.flatMap fun link => .operator link.1 :: link.2.tokens
  | .nil => rfl
  | .cons _ _ rest => by rw [tokens, toList, List.flatMap_cons, tokens_eq rest]; rfl

theorem Links.fits_iff : ∀ links : Links, links.Fits n ↔ ∀ link ∈ links.toList, link.2.Fits n
  | .nil => by simp [Fits, toList]
  | .cons _ _ rest => by rw [Fits, toList, List.forall_mem_cons, fits_iff rest]

@[simp] theorem Arguments.toList_ofList (items : List Expression) :
    (ofList items).toList = items := by
  induction items with
  | nil => rfl
  | cons item items ih => rw [ofList, toList, ih]

@[simp] theorem Arguments.ofList_toList :
    ∀ arguments : Arguments, ofList arguments.toList = arguments
  | .nil => rfl
  | .cons _ rest => by rw [toList, ofList, ofList_toList rest]

theorem Arguments.moreTokens_eq : ∀ arguments : Arguments, arguments.moreTokens =
    arguments.toList.flatMap fun argument => .delimiter .comma :: argument.tokens
  | .nil => rfl
  | .cons _ rest => by rw [moreTokens, toList, List.flatMap_cons, moreTokens_eq rest]; rfl

theorem Arguments.fits_iff : ∀ arguments : Arguments, arguments.Fits n ↔
    ∀ argument ∈ arguments.toList, ∃ m, n = m + 1 ∧ argument.Fits m
  | .nil => by simp [Fits, toList]
  | .cons _ rest => by rw [Fits, toList, List.forall_mem_cons, fits_iff rest]

@[simp] theorem Block.toList_ofList (items : List Statement) : (ofList items).toList = items := by
  induction items with
  | nil => rfl
  | cons item items ih => rw [ofList, toList, ih]

@[simp] theorem Block.ofList_toList : ∀ block : Block, ofList block.toList = block
  | .nil => rfl
  | .cons _ rest => by rw [toList, ofList, ofList_toList rest]

theorem Block.tokens_eq : ∀ block : Block, block.tokens =
    block.toList.flatMap fun statement => statement.tokens ++ [.newline]
  | .nil => rfl
  | .cons _ rest => by
    rw [tokens, toList, List.flatMap_cons, tokens_eq rest, List.append_assoc]
    rfl

theorem Block.fits_iff : ∀ block : Block, block.Fits n inLoop ↔
    ∀ statement ∈ block.toList, statement.Fits n inLoop
  | .nil => by simp [Fits, toList]
  | .cons _ rest => by rw [Fits, toList, List.forall_mem_cons, fits_iff rest]

def Alternative.conditions : Alternative → List (Expression × Block)
  | .nothing | .otherwise _ => []
  | .elseif condition body alternative => (condition, body) :: alternative.conditions

def Alternative.last? : Alternative → Option Block
  | .nothing => none
  | .otherwise body => some body
  | .elseif _ _ alternative => alternative.last?

@[simp] theorem Alternative.ofList_conditions : ∀ alternative : Alternative,
    ofList alternative.last? alternative.conditions = alternative
  | .nothing => rfl
  | .otherwise _ => rfl
  | .elseif _ _ alternative => by rw [last?, conditions, ofList, ofList_conditions alternative]

@[simp] theorem Alternative.conditions_ofList (last : Option Block)
    (items : List (Expression × Block)) : (ofList last items).conditions = items := by
  induction items with
  | nil => cases last <;> rfl
  | cons item items ih => rw [ofList, conditions, ih]

@[simp] theorem Alternative.last?_ofList (last : Option Block)
    (items : List (Expression × Block)) : (ofList last items).last? = last := by
  induction items with
  | nil => cases last <;> rfl
  | cons item items ih => rw [ofList, last?, ih]

def guardedTokens (part : Expression × Block) : List Token :=
  part.1.tokens ++ .keyword .thenWord :: .newline :: part.2.tokens

/-- The tokens of the alternative without a condition, if there is one. -/
def otherwiseTokens : Option Block → List Token
  | none => []
  | some body => .keyword .elseWord :: .newline :: body.tokens

theorem Alternative.tokens_eq : ∀ alternative : Alternative, alternative.tokens =
    alternative.conditions.flatMap (fun part => .keyword .elseif :: guardedTokens part) ++
      (otherwiseTokens alternative.last? ++ [.keyword .endif])
  | .nothing => rfl
  | .otherwise _ => rfl
  | .elseif _ _ alternative => by
    rw [tokens, conditions, last?, List.flatMap_cons, tokens_eq alternative]
    simp [guardedTokens]

/-- A block that stands one level deeper. -/
def Block.FitsBelow (n : Nat) (inLoop : Bool) (block : Block) : Prop :=
  ∃ m, n = m + 1 ∧ block.Fits m inLoop

theorem Alternative.fits_iff : ∀ alternative : Alternative, alternative.Fits n inLoop ↔
    (∀ part ∈ alternative.conditions, part.1.Fits n ∧ part.2.FitsBelow n inLoop) ∧
      ∀ body ∈ alternative.last?, body.FitsBelow n inLoop
  | .nothing => by simp [Fits, conditions, last?]
  | .otherwise _ => by simp [Fits, conditions, last?, Block.FitsBelow]
  | .elseif _ _ alternative => by
    rw [Fits, conditions, last?, List.forall_mem_cons, fits_iff alternative, Block.FitsBelow]
    simp only [and_assoc]

-- ---------------------------------------------------------------------------
-- Declarations
-- ---------------------------------------------------------------------------

def Parameter.tokens (parameter : Parameter) : List Token :=
  [.typeName parameter.type, .identifier parameter.id]

def takenTokens : List Parameter → List Token
  | [] => [.keyword .nothing]
  | first :: rest =>
    first.tokens ++ rest.flatMap fun parameter => .delimiter .comma :: parameter.tokens

def returnedToken : Option String → Token
  | none => .keyword .nothing
  | some type => .typeName type

def Signature.tokens (signature : Signature) : List Token :=
  .identifier signature.id :: .keyword .takes ::
    (takenTokens signature.takes ++ [.keyword .returns, returnedToken signature.returns])

namespace VariableDeclaration

def tokens (declared : VariableDeclaration) : List Token :=
  .typeName declared.type ::
    match declared.initial with
    | .array => [.keyword .array, .identifier declared.id]
    | .unset => [.identifier declared.id]
    | .value value => .identifier declared.id :: .assign :: value.tokens

def Fits (n : Nat) (declared : VariableDeclaration) : Prop :=
  ∀ value, declared.initial = .value value → value.Fits n

def unplaced (declared : VariableDeclaration) : VariableDeclaration :=
  { declared with position := .start }

end VariableDeclaration

namespace GlobalDeclaration

def tokens : GlobalDeclaration → List Token
  | constant _ type id value =>
    .keyword .constant :: .typeName type :: .identifier id :: .assign :: value.tokens
  | plain declared => declared.tokens

def Fits (n : Nat) : GlobalDeclaration → Prop
  | constant _ _ _ value => value.Fits n
  | plain declared => declared.Fits n

def unplaced : GlobalDeclaration → GlobalDeclaration
  | constant _ type id value => constant .start type id value
  | plain declared => plain declared.unplaced

end GlobalDeclaration

def constantTokens (constant : Option Position) : List Token :=
  match constant with
  | none => []
  | some _ => [.keyword .constant]

namespace Declaration

def tokens : Declaration → List Token
  | type _ id parent =>
    [.keyword .type, .identifier id, .keyword .extendsWord, .typeName parent]
  | native constant _ signature =>
    constantTokens constant ++ .keyword .native :: signature.tokens
  | globals _ members =>
    .keyword .globals :: .newline ::
      (members.flatMap (fun member => member.tokens ++ [.newline]) ++ [.keyword .endglobals])

/-- A type extends `handle` or one that is declared. -/
def Fits (n : Nat) : Declaration → Prop
  | type _ _ parent =>
    (Token.typeName parent).kind = .identifier ∨ (Token.typeName parent).kind = .builtin .handle
  | native .. => True
  | globals _ members => ∀ member ∈ members, member.Fits n

def unplaced : Declaration → Declaration
  | type _ id parent => type .start id parent
  | native constant _ signature => native (constant.map fun _ => .start) .start signature
  | globals _ members => globals .start (members.map GlobalDeclaration.unplaced)

end Declaration

namespace FunctionDeclaration

def tokens (declaration : FunctionDeclaration) : List Token :=
  constantTokens declaration.constant ++ .keyword .function :: (declaration.signature.tokens ++
    .newline :: (declaration.locals.flatMap (fun declared =>
        .keyword .localWord :: (declared.tokens ++ [.newline])) ++
      (declaration.body.tokens ++ [.keyword .endfunction])))

def Fits (n : Nat) (declaration : FunctionDeclaration) : Prop :=
  (∀ declared ∈ declaration.locals, declared.Fits n) ∧ declaration.body.Fits n false

def unplaced (declaration : FunctionDeclaration) : FunctionDeclaration where
  constant := declaration.constant.map fun _ => .start
  position := .start
  signature := declaration.signature
  locals := declaration.locals.map VariableDeclaration.unplaced
  body := declaration.body
  finish := .start

end FunctionDeclaration

-- ---------------------------------------------------------------------------
-- Programs
-- ---------------------------------------------------------------------------

/-- The tokens are those of the items, each with a line break after it, and then
others; at the end of the tokens the line break may be left out. -/
inductive Lines (tokens : α → List Token) (others : List Token → Prop) :
    List α → List Token → Prop
  | nil {rest} : others rest → Lines tokens others [] rest
  | last {a} : others [] → Lines tokens others [a] (tokens a)
  | cons {a items rest} : Lines tokens others items rest →
      Lines tokens others (a :: items) (tokens a ++ .newline :: rest)

namespace Program

/-- The tokens of the program after the line break that it may start with. -/
def Spelled (program : Program) (tokens : List Token) : Prop :=
  Lines Declaration.tokens (Lines FunctionDeclaration.tokens (· = []) program.functions)
    program.declarations tokens

structure Fits (n : Nat) (program : Program) : Prop where
  declarations : ∀ declaration ∈ program.declarations, declaration.Fits n
  functions : ∀ function ∈ program.functions, function.Fits n

end Program

end Mapsmith.Script
