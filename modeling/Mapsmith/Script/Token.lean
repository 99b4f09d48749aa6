/-!
# Tokens

The kinds of token of a script and their names. A kind that is spelled in one way
only is named by that spelling; `TokenKind.name` tells all kinds apart.
-/

namespace Mapsmith.Script

inductive BuiltinType where
  | code | handle | integer | real | boolean | string
  deriving DecidableEq

/-- Words with a meaning of their own. Those that this language also has end in `Word`. -/
inductive Keyword where
  | array | globals | endglobals | constant | native | extendsWord | type
  | function | endfunction | takes | returns | nothing | localWord | returnWord
  | set | call | loop | endloop | exitwhen
  | ifWord | thenWord | elseWord | elseif | endif | debug
  deriving DecidableEq

inductive LiteralKind where
  | integer | octal | hexadecimal | real
  /-- A code of four characters between single quotes. -/
  | rawId
  | boolean | null | string
  deriving DecidableEq

inductive Operator where
  | plus | minus | times | divide
  | equal | notEqual | less | greater | atMost | atLeast
  | and | or | not
  deriving DecidableEq

inductive Delimiter where
  | openParen | closeParen | openBracket | closeBracket | comma
  deriving DecidableEq

inductive TokenKind where
  | builtin (type : BuiltinType)
  | keyword (word : Keyword)
  | identifier
  | literal (kind : LiteralKind)
  | operator (op : Operator)
  /-- The sign between a variable and its value. -/
  | assign
  | delimiter (mark : Delimiter)
  /-- One or more line breaks, with the blank lines between them. -/
  | newline
  deriving DecidableEq

namespace BuiltinType

def all : List BuiltinType := [.code, .handle, .integer, .real, .boolean, .string]

def name : BuiltinType → String
  | .code => "code"
  | .handle => "handle"
  | .integer => "integer"
  | .real => "real"
  | .boolean => "boolean"
  | .string => "string"

end BuiltinType

namespace Keyword

def all : List Keyword :=
  [.array, .globals, .endglobals, .constant, .native, .extendsWord, .type, .function,
    .endfunction, .takes, .returns, .nothing, .localWord, .returnWord, .set, .call, .loop,
    .endloop, .exitwhen, .ifWord, .thenWord, .elseWord, .elseif, .endif, .debug]

def name : Keyword → String
  | .array => "array"
  | .globals => "globals"
  | .endglobals => "endglobals"
  | .constant => "constant"
  | .native => "native"
  | .extendsWord => "extends"
  | .type => "type"
  | .function => "function"
  | .endfunction => "endfunction"
  | .takes => "takes"
  | .returns => "returns"
  | .nothing => "nothing"
  | .localWord => "local"
  | .returnWord => "return"
  | .set => "set"
  | .call => "call"
  | .loop => "loop"
  | .endloop => "endloop"
  | .exitwhen => "exitwhen"
  | .ifWord => "if"
  | .thenWord => "then"
  | .elseWord => "else"
  | .elseif => "elseif"
  | .endif => "endif"
  | .debug => "debug"

end Keyword

namespace LiteralKind

def all : List LiteralKind :=
  [.integer, .octal, .hexadecimal, .real, .rawId, .boolean, .null, .string]

def name : LiteralKind → String
  | .integer => "integer literal"
  | .octal => "octal literal"
  | .hexadecimal => "hexadecimal literal"
  | .real => "real literal"
  | .rawId => "raw id literal"
  | .boolean => "boolean literal"
  | .null => "null"
  | .string => "string literal"

end LiteralKind

namespace Operator

def all : List Operator :=
  [.plus, .minus, .times, .divide, .equal, .notEqual, .less, .greater, .atMost, .atLeast,
    .and, .or, .not]

def name : Operator → String
  | .plus => "+"
  | .minus => "-"
  | .times => "*"
  | .divide => "/"
  | .equal => "=="
  | .notEqual => "!="
  | .less => "<"
  | .greater => ">"
  | .atMost => "<="
  | .atLeast => ">="
  | .and => "and"
  | .or => "or"
  | .not => "not"

/-- Every operator but `not` joins two operands. -/
def isBinary (op : Operator) : Bool := op != .not

def isUnary : Operator → Bool
  | .plus | .minus | .not => true
  | _ => false

end Operator

namespace Delimiter

def all : List Delimiter := [.openParen, .closeParen, .openBracket, .closeBracket, .comma]

def name : Delimiter → String
  | .openParen => "("
  | .closeParen => ")"
  | .openBracket => "["
  | .closeBracket => "]"
  | .comma => ","

end Delimiter

namespace TokenKind

def all : List TokenKind :=
  BuiltinType.all.map .builtin ++ Keyword.all.map .keyword ++ [.identifier] ++
    LiteralKind.all.map .literal ++ Operator.all.map .operator ++ [.assign] ++
    Delimiter.all.map .delimiter ++ [.newline]

def name : TokenKind → String
  | .builtin type => type.name
  | .keyword word => word.name
  | .identifier => "identifier"
  | .literal kind => kind.name
  | .operator op => op.name
  | .assign => "="
  | .delimiter mark => mark.name
  | .newline => "newline"

def ofName? (name : String) : Option TokenKind := all.find? fun kind => kind.name == name

/-- The kinds that are spelled as one word and in no other way. -/
def words : List TokenKind :=
  BuiltinType.all.map .builtin ++ Keyword.all.map .keyword ++
    [.operator .and, .operator .or, .operator .not, .literal .null]

def ofWord? (word : String) : Option TokenKind :=
  if word = "true" ∨ word = "false" then some (.literal .boolean)
  else words.find? fun kind => kind.name == word

def ofWord (word : String) : TokenKind := (ofWord? word).getD .identifier

def isBuiltinType : TokenKind → Bool
  | .builtin _ => true
  | _ => false

def isLiteral : TokenKind → Bool
  | .literal _ => true
  | _ => false

def isBinaryOperator : TokenKind → Bool
  | .operator op => op.isBinary
  | _ => false

def isUnaryOperator : TokenKind → Bool
  | .operator op => op.isUnary
  | _ => false

end TokenKind

structure Token where
  kind : TokenKind
  text : String
  deriving DecidableEq

namespace Token

def identifier (name : String) : Token := ⟨.identifier, name⟩

def newline : Token := ⟨.newline, "\n"⟩

/-- The token of a kind that is spelled in one way only, a line break apart. -/
def fixed (kind : TokenKind) : Token := ⟨kind, kind.name⟩

def keyword (word : Keyword) : Token := fixed (.keyword word)

def operator (op : Operator) : Token := fixed (.operator op)

def delimiter (mark : Delimiter) : Token := fixed (.delimiter mark)

def assign : Token := fixed .assign

def typeName (name : String) : Token :=
  match TokenKind.ofWord? name with
  | some (.builtin type) => ⟨.builtin type, name⟩
  | _ => identifier name

end Token

end Mapsmith.Script
