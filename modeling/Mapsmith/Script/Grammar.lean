import Mapsmith.Script.Lexeme
import Mapsmith.Script.Parser
import Mapsmith.Script.Tree

/-!
# The grammar

A parser for each rule of the grammar, up to `Program.ofText`. One token ahead
settles the rule, but for the word `constant`, which stands before natives and
before functions.

Rules that nest come by the levels that are left for nesting. A rule in need of one
more level is given the parser for what stands there, and none on the last level.
-/

namespace Mapsmith.Script

namespace Grammar

open Mapsmith.Script.Parser

/-! ## Expressions -/

/-- Whether the token ahead joins another operand. -/
def startsLink (tokens : List Lexeme) : Bool :=
  tokens.head?.any fun lexeme => lexeme.token.kind.isBinaryOperator

def binaryOperator? (token : Token) : Option BinaryOperator :=
  match token.kind with
  | .operator op => if h : op.isBinary = true then some ⟨op, h⟩ else none
  | _ => none

def link (operand : Parser Operand) : Parser (BinaryOperator × Operand) := do
  let op ← accept binaryOperator? .expression
  return (op, ← operand)

def expressionWith (operand : Parser Operand) : Parser Expression := do
  let first ← operand
  let rest ← many startsLink (link operand)
  return .chain first (.ofList rest)

def identifier? (token : Token) : Option String :=
  if token.kind = .identifier then some token.text else none

def identifier : Parser String := accept identifier? (.token .identifier)

/-- What stands one level deeper, if there is a level left. -/
def nested {α β : Type} (deeper : Option α) (rule : α → Parser β) : Parser β :=
  match deeper with
  | none => throw .tooDeep
  | some inner => rule inner

def argumentsWith (deeper : Option (Parser Operand)) : Parser Arguments := do
  let _ ← expect (.delimiter .openParen)
  if isAt (.delimiter .closeParen) (← get) then
    let _ ← expect (.delimiter .closeParen)
    return .nil
  else
    let items ← commaSeparated (nested deeper expressionWith)
    let _ ← expect (.delimiter .closeParen)
    return .ofList items

def reference (id : String) (deeper : Option (Parser Operand)) : Parser Operand := do
  match ← peek with
  | some (.delimiter .openParen) => return .call id (← argumentsWith deeper)
  | some (.delimiter .openBracket) =>
    let _ ← expect (.delimiter .openBracket)
    let index ← nested deeper expressionWith
    let _ ← expect (.delimiter .closeBracket)
    return .element id index
  | _ => return .name id

def literal? (token : Token) : Option Operand :=
  match token.kind with
  | .literal kind => some (.literal kind token.text)
  | _ => none

/-- An operand, by the parser for operands one level deeper. A unary operator takes
a level. -/
def operandWith (deeper : Option (Parser Operand)) : Parser Operand := do
  match ← peek with
  | some (.operator op) =>
    if h : op.isUnary = true then
      nested deeper fun operand => do
        let _ ← expect (.operator op)
        return .unary ⟨op, h⟩ (← operand)
    else unexpected .expression
  | some .identifier => reference (← identifier) deeper
  | some (.keyword .function) =>
    let _ ← expect (.keyword .function)
    return .function (← identifier)
  | some (.delimiter .openParen) =>
    let _ ← expect (.delimiter .openParen)
    let inner ← nested deeper expressionWith
    let _ ← expect (.delimiter .closeParen)
    return .parens inner
  | _ => accept literal? .expression

def operand : Nat → Parser Operand
  | 0 => operandWith none
  | levels + 1 => operandWith (some (operand levels))

def deeperOperand : Nat → Option (Parser Operand)
  | 0 => none
  | levels + 1 => some (operand levels)

def expression (levels : Nat) : Parser Expression := expressionWith (operand levels)

/-! ## Statements -/

def startsAction (tokens : List Lexeme) : Bool :=
  isAt (.keyword .set) tokens || isAt (.keyword .call) tokens || isAt (.keyword .ifWord) tokens ||
    isAt (.keyword .loop) tokens

def startsStatement (tokens : List Lexeme) : Bool :=
  startsAction tokens || isAt (.keyword .exitwhen) tokens ||
    isAt (.keyword .returnWord) tokens || isAt (.keyword .debug) tokens

/-- The statements up to the word that ends their block. -/
def blockWith (statement : Parser Statement) : Parser Block := do
  let statements ← many startsStatement do
    let statement ← statement
    let _ ← expect .newline
    return statement
  return .ofList statements

/-- The index of the element that is set. It takes no level. -/
def setIndex (levels : Nat) : Parser (Option Expression) := do
  match ← eat? (.delimiter .openBracket) with
  | none => return none
  | some _ =>
    let index ← expression levels
    let _ ← expect (.delimiter .closeBracket)
    return some index

def guarded (levels : Nat) (body : Option (Parser Block)) : Parser (Expression × Block) := do
  let condition ← expression levels
  let _ ← expect (.keyword .thenWord)
  let _ ← expect .newline
  return (condition, ← nested body id)

/-- An action, by the parser for blocks one level deeper, which is told whether the
block is in a loop. -/
def actionWith (levels : Nat) (deeper : Option (Bool → Parser Block)) (inLoop : Bool) :
    Parser Action := do
  match ← peek with
  | some (.keyword .set) =>
    let _ ← expect (.keyword .set)
    let id ← identifier
    let index ← setIndex levels
    let _ ← expect .assign
    return .set id index (← expression levels)
  | some (.keyword .call) =>
    let _ ← expect (.keyword .call)
    let id ← identifier
    return .call id (← argumentsWith (deeperOperand levels))
  | some (.keyword .ifWord) =>
    let body := deeper.map (· inLoop)
    let _ ← expect (.keyword .ifWord)
    let (condition, first) ← guarded levels body
    let rest ← many (isAt (.keyword .elseif)) do
      let _ ← expect (.keyword .elseif)
      guarded levels body
    let last ← match ← eat? (.keyword .elseWord) with
      | none => pure none
      | some _ =>
        let _ ← expect .newline
        some <$> nested body id
    let _ ← expect (.keyword .endif)
    return .branch condition first (.ofList last rest)
  | some (.keyword .loop) =>
    let _ ← expect (.keyword .loop)
    let _ ← expect .newline
    let body ← nested (deeper.map (· true)) id
    let _ ← expect (.keyword .endloop)
    return .loop body
  | _ => unexpected .statement

def returnValue (levels : Nat) : Parser (Option Expression) := do
  match ← peek with
  | none | some .newline => return none
  | _ => return some (← expression levels)

def statementWith (levels : Nat) (deeper : Option (Bool → Parser Block)) (inLoop : Bool) :
    Parser Statement := do
  match ← peek with
  | some (.keyword .exitwhen) =>
    if inLoop then
      let _ ← expect (.keyword .exitwhen)
      return .exitwhen (← expression levels)
    else throw .exitOutsideLoop
  | some (.keyword .returnWord) =>
    let _ ← expect (.keyword .returnWord)
    return .returns (← returnValue levels)
  | some (.keyword .debug) =>
    let _ ← expect (.keyword .debug)
    if startsAction (← get) then return .debug (← actionWith levels deeper inLoop)
    else unexpected .debugged
  | _ => return .action (← actionWith levels deeper inLoop)

def statement : Nat → Bool → Parser Statement
  | 0, inLoop => statementWith 0 none inLoop
  | levels + 1, inLoop =>
    statementWith (levels + 1) (some fun inLoop => blockWith (statement levels inLoop)) inLoop

/-! ## Declarations -/

def typeName? (token : Token) : Option String :=
  if token.kind = .identifier ∨ token.kind.isBuiltinType then some token.text else none

def typeName : Parser String := accept typeName? .type

/-- New types extend `handle` or one another. -/
def parentType? (token : Token) : Option String :=
  if token.kind = .identifier ∨ token.kind = .builtin .handle then some token.text else none

def typeDeclaration : Parser Declaration := do
  let position ← expect (.keyword .type)
  let id ← identifier
  let _ ← expect (.keyword .extendsWord)
  return .type position id (← accept parentType? .parentType)

def parameter : Parser Parameter := do
  let type ← typeName
  return ⟨type, ← identifier⟩

def parameters : Parser (List Parameter) := do
  match ← eat? (.keyword .nothing) with
  | some _ => return []
  | none => commaSeparated parameter

def returnType : Parser (Option String) := do
  match ← eat? (.keyword .nothing) with
  | some _ => return none
  | none => return some (← typeName)

def signature : Parser Signature := do
  let id ← identifier
  let _ ← expect (.keyword .takes)
  let takes ← parameters
  let _ ← expect (.keyword .returns)
  return ⟨id, takes, ← returnType⟩

def native : Parser Declaration := do
  let constant ← eat? (.keyword .constant)
  let position ← expect (.keyword .native)
  return .native constant position (← signature)

/-- The rest of the declaration of a variable whose type has been read. -/
def variableRest (position : Position) (type : String) : Parser VariableDeclaration := do
  match ← eat? (.keyword .array) with
  | some _ => return ⟨position, type, ← identifier, .array⟩
  | none =>
    let id ← identifier
    match ← eat? .assign with
    | some _ => return ⟨position, type, id, .value (← expression maxLevels)⟩
    | none => return ⟨position, type, id, .unset⟩

def globalVariable : Parser GlobalDeclaration := do
  match ← eat? (.keyword .constant) with
  | some position =>
    let type ← typeName
    let id ← identifier
    let _ ← expect .assign
    return .constant position type id (← expression maxLevels)
  | none =>
    let start ← position
    return .plain (← variableRest start (← typeName))

def globals : Parser Declaration := do
  let position ← expect (.keyword .globals)
  let _ ← expect .newline
  let members ← many (fun tokens => !isAt (.keyword .endglobals) tokens) do
    let declared ← globalVariable
    let _ ← expect .newline
    return declared
  let _ ← expect (.keyword .endglobals)
  return .globals position members

def localVariable : Parser VariableDeclaration := do
  let position ← expect (.keyword .localWord)
  let declared ← variableRest position (← typeName)
  let _ ← expect .newline
  return declared

def function : Parser FunctionDeclaration := do
  let constant ← eat? (.keyword .constant)
  let position ← expect (.keyword .function)
  let signature ← signature
  let _ ← expect .newline
  let locals ← many (isAt (.keyword .localWord)) localVariable
  let body ← blockWith (statement maxLevels false)
  return ⟨constant, position, signature, locals, body, ← expect (.keyword .endfunction)⟩

/-! ## Programs -/

/-- A line break, which may be left out at the end of the script. -/
def endOfLine : Parser Unit := do
  match ← peek with
  | none => return ()
  | some _ =>
    let _ ← expect .newline

def startsNative : List Lexeme → Bool
  | first :: second :: _ =>
    first.token.kind = .keyword .native ||
      (first.token.kind = .keyword .constant && second.token.kind = .keyword .native)
  | tokens => isAt (.keyword .native) tokens

def startsDeclaration (tokens : List Lexeme) : Bool :=
  isAt (.keyword .type) tokens || isAt (.keyword .globals) tokens || startsNative tokens

def declaration : Parser Declaration := do
  let declaration ←
    match ← peek with
    | some (.keyword .type) => typeDeclaration
    | some (.keyword .globals) => globals
    | _ => native
  endOfLine
  return declaration

def startsFunction (tokens : List Lexeme) : Bool :=
  isAt (.keyword .function) tokens || isAt (.keyword .constant) tokens

/-- A function and the end of its line, or a failure that tells what else was
expected. -/
def functionOr (expected : Expected) : Parser FunctionDeclaration := do
  if startsFunction (← get) then
    let function ← function
    endOfLine
    return function
  else unexpected expected

def functions : Parser (List FunctionDeclaration) := do
  if (← get).isEmpty then return []
  else
    let first ← functionOr .declaration
    let rest ← many (fun tokens => !tokens.isEmpty) (functionOr .function)
    return first :: rest

def program : Parser Program := do
  let _ ← eat? .newline
  let declarations ← many startsDeclaration declaration
  return ⟨declarations, ← functions⟩

end Grammar

/-- A fault at the first of the tokens ahead or, if there are none, at the end of the
text. A token starts with a character of one byte. -/
def SyntaxError.before (text : String) (fault : SyntaxFault) : List Lexeme → SyntaxError
  | [] => ⟨fault, Position.start.after text.toList, 0⟩
  | lexeme :: _ => ⟨fault, lexeme.position, 1⟩

def Program.ofText (text : String) : Except SyntaxError Program := do
  match Grammar.program (← lexemes text) with
  | .ok program _ => return program
  | .error fault rest => throw (.before text fault rest)

end Mapsmith.Script
