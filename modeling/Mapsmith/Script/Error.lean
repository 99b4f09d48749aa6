import Mapsmith.Script.Position
import Mapsmith.Schema.Error

/-!
# Errors of scripts

Why a text is no script, or an edit of a script is refused. `ScriptError.message`
is the one place that words them.
-/

namespace Mapsmith.Script

/-- Where a script is declared to have a symbol. -/
inductive SymbolKind where
  | type | native | global | function
  deriving DecidableEq

namespace SymbolKind

def all : List SymbolKind := [.type, .native, .global, .function]

def name : SymbolKind → String
  | .type => "type"
  | .native => "native"
  | .global => "global"
  | .function => "function"

def ofName? (name : String) : Option SymbolKind := all.find? fun kind => kind.name == name

end SymbolKind

inductive Expected where
  | token (kind : TokenKind)
  | type
  | parentType
  | declaration
  | function
  | statement
  | debugged
  | expression
  deriving DecidableEq

inductive SyntaxFault where
  | unexpectedCharacter
  /-- A token, or the end of the script, that the grammar does not go on with. -/
  | unexpected (expected : Expected) (found : Option Token)
  | exitOutsideLoop
  | tooDeep
  deriving DecidableEq

/-- How many levels blocks, parentheses, arguments, indices and unary operators may
nest. -/
def maxLevels : Nat := 128

/-- A fault of a text and the character it is found at, whose length in bytes is
zero at the end of the text. -/
structure SyntaxError where
  fault : SyntaxFault
  position : Position
  span : Nat
  deriving DecidableEq

inductive ScriptError where
  | malformed (error : SyntaxError)
  | unknownSymbol (id : String)
  /-- A symbol gives way only to one of its own kind. -/
  | kindMismatch (id : String) (expected found : SymbolKind)
  deriving DecidableEq

def Expected.message : Expected → String
  | .token .identifier => "an identifier"
  | .token .newline => "end of line"
  | .token kind => accented kind.name
  | .type => "a type"
  | .parentType => accented "handle" ++ " or a type"
  | .declaration => "a declaration or a function"
  | .function => "a function"
  | .statement => "a statement"
  | .debugged =>
    accented "set" ++ ", " ++ accented "call" ++ ", " ++ accented "if" ++ " or " ++ accented "loop"
  | .expression => "an expression"

/-- What stands in the place of what is expected. -/
def foundText : Option Token → String
  | none => "end of input"
  | some token => if token.kind = .newline then "end of line" else accented token.text

def SyntaxFault.message : SyntaxFault → String
  | .unexpectedCharacter => "unexpected character"
  | .unexpected expected found => "expected " ++ expected.message ++ ", found " ++ foundText found
  | .exitOutsideLoop => accented "exitwhen" ++ " outside of a loop"
  | .tooDeep => "nested deeper than " ++ toString maxLevels ++ " levels"

def SyntaxError.message (error : SyntaxError) : String :=
  "syntax error at " ++ toString error.position.line ++ ":" ++ toString error.position.column ++
    ": " ++ error.fault.message

def ScriptError.message : ScriptError → String
  | .malformed error => error.message
  | .unknownSymbol id => "no symbol named " ++ accented id
  | .kindMismatch id expected found =>
    accented id ++ " is a " ++ expected.name ++ " and cannot be replaced by a " ++ found.name

end Mapsmith.Script
