import Mapsmith.Script.Position
import Mapsmith.Script.Signature

/-!
# Trees

Scripts by the rules of the grammar. An expression is a flat chain: no operator
binds closer than another, and a unary one applies to the operand after it.

A tree keeps the texts and the positions that matter; the tokens that the grammar
fixes are implied. `Expression.tokens` and `Statement.tokens` list all tokens of an
expression or a statement in order.
-/

namespace Mapsmith.Script

abbrev UnaryOperator := { op : Operator // op.isUnary = true }

abbrev BinaryOperator := { op : Operator // op.isBinary = true }

mutual

/-- An operand and those joined to it. -/
inductive Expression where
  | chain (first : Operand) (rest : Links)

inductive Links where
  | nil
  | cons (op : BinaryOperator) (operand : Operand) (rest : Links)

inductive Operand where
  | unary (op : UnaryOperator) (operand : Operand)
  | literal (kind : LiteralKind) (text : String)
  | name (id : String)
  | call (id : String) (arguments : Arguments)
  | element (id : String) (index : Expression)
  /-- A function as a value. -/
  | function (id : String)
  | parens (inner : Expression)

inductive Arguments where
  | nil
  | cons (argument : Expression) (rest : Arguments)

end

mutual

inductive Statement where
  | action (action : Action)
  /-- An action taken in debug mode only. -/
  | debug (action : Action)
  | exitwhen (condition : Expression)
  | returns (value : Option Expression)

inductive Action where
  | set (id : String) (index : Option Expression) (value : Expression)
  | call (id : String) (arguments : Arguments)
  | branch (condition : Expression) (body : Block) (alternative : Alternative)
  | loop (body : Block)

inductive Block where
  | nil
  | cons (statement : Statement) (rest : Block)

inductive Alternative where
  | nothing
  | otherwise (body : Block)
  | elseif (condition : Expression) (body : Block) (alternative : Alternative)

end

/-- What a declaration puts into its variable. -/
inductive Initial where
  | array
  | unset
  | value (expression : Expression)

/-- A variable as declared; the position is that of the first token. -/
structure VariableDeclaration where
  position : Position
  type : String
  id : String
  initial : Initial

/-- A constant always has a value. -/
inductive GlobalDeclaration where
  | constant (position : Position) (type id : String) (value : Expression)
  | plain (declared : VariableDeclaration)

/-- A declaration before the functions. The position is that of its own keyword, and
a constant native also has that of the word before it. -/
inductive Declaration where
  | type (position : Position) (id parent : String)
  | native (constant : Option Position) (position : Position) (signature : Signature)
  | globals (position : Position) (members : List GlobalDeclaration)

structure FunctionDeclaration where
  constant : Option Position
  position : Position
  signature : Signature
  locals : List VariableDeclaration
  body : Block
  /-- Where its last token stands. -/
  finish : Position

structure Program where
  declarations : List Declaration
  functions : List FunctionDeclaration

namespace GlobalDeclaration

def isConstant : GlobalDeclaration → Bool
  | constant .. => true
  | plain _ => false

def declared : GlobalDeclaration → VariableDeclaration
  | constant position type id value => ⟨position, type, id, .value value⟩
  | plain declared => declared

end GlobalDeclaration

/-! ## Lists within trees -/

def Links.ofList : List (BinaryOperator × Operand) → Links
  | [] => .nil
  | (op, operand) :: rest => .cons op operand (ofList rest)

def Links.toList : Links → List (BinaryOperator × Operand)
  | .nil => []
  | .cons op operand rest => (op, operand) :: rest.toList

def Arguments.ofList : List Expression → Arguments
  | [] => .nil
  | argument :: rest => .cons argument (ofList rest)

def Arguments.toList : Arguments → List Expression
  | .nil => []
  | .cons argument rest => argument :: rest.toList

def Block.ofList : List Statement → Block
  | [] => .nil
  | statement :: rest => .cons statement (ofList rest)

def Block.toList : Block → List Statement
  | .nil => []
  | .cons statement rest => statement :: rest.toList

/-- The alternatives with a condition of their own, in order, before the last one. -/
def Alternative.ofList (last : Option Block) : List (Expression × Block) → Alternative
  | [] => match last with
    | none => .nothing
    | some body => .otherwise body
  | (condition, body) :: rest => .elseif condition body (ofList last rest)

/-! ## Tokens -/

mutual

def Expression.tokens : Expression → List Token
  | .chain first rest => first.tokens ++ rest.tokens

def Links.tokens : Links → List Token
  | .nil => []
  | .cons op operand rest => .operator op :: (operand.tokens ++ rest.tokens)

def Operand.tokens : Operand → List Token
  | .unary op operand => .operator op :: operand.tokens
  | .literal kind text => [⟨.literal kind, text⟩]
  | .name id => [.identifier id]
  | .call id arguments =>
    .identifier id :: .delimiter .openParen :: (arguments.tokens ++ [.delimiter .closeParen])
  | .element id index =>
    .identifier id :: .delimiter .openBracket :: (index.tokens ++ [.delimiter .closeBracket])
  | .function id => [.keyword .function, .identifier id]
  | .parens inner => .delimiter .openParen :: (inner.tokens ++ [.delimiter .closeParen])

def Arguments.tokens : Arguments → List Token
  | .nil => []
  | .cons argument rest => argument.tokens ++ rest.moreTokens

/-- The tokens of arguments that follow another one. -/
def Arguments.moreTokens : Arguments → List Token
  | .nil => []
  | .cons argument rest => .delimiter .comma :: (argument.tokens ++ rest.moreTokens)

end

mutual

def Statement.tokens : Statement → List Token
  | .action action => action.tokens
  | .debug action => .keyword .debug :: action.tokens
  | .exitwhen condition => .keyword .exitwhen :: condition.tokens
  | .returns none => [.keyword .returnWord]
  | .returns (some value) => .keyword .returnWord :: value.tokens

def Action.tokens : Action → List Token
  | .set id none value => .keyword .set :: .identifier id :: .assign :: value.tokens
  | .set id (some index) value =>
    .keyword .set :: .identifier id :: .delimiter .openBracket ::
      (index.tokens ++ .delimiter .closeBracket :: .assign :: value.tokens)
  | .call id arguments => .keyword .call :: (Operand.call id arguments).tokens
  | .branch condition body alternative =>
    .keyword .ifWord ::
      (condition.tokens ++ .keyword .thenWord :: .newline :: (body.tokens ++ alternative.tokens))
  | .loop body => .keyword .loop :: .newline :: (body.tokens ++ [.keyword .endloop])

/-- The tokens of a block, with a line break after each statement. -/
def Block.tokens : Block → List Token
  | .nil => []
  | .cons statement rest => statement.tokens ++ .newline :: rest.tokens

def Alternative.tokens : Alternative → List Token
  | .nothing => [.keyword .endif]
  | .otherwise body => .keyword .elseWord :: .newline :: (body.tokens ++ [.keyword .endif])
  | .elseif condition body alternative =>
    .keyword .elseif ::
      (condition.tokens ++ .keyword .thenWord :: .newline :: (body.tokens ++ alternative.tokens))

end

end Mapsmith.Script
