import Mapsmith.Script.Token

/-!
# Positions in a script

Lines and columns count from one and columns count characters; the offset counts
the bytes before. `Position.after` goes over text.
-/

namespace Mapsmith.Script

structure Position where
  line : Nat
  column : Nat
  offset : Nat
  deriving DecidableEq

namespace Position

def start : Position := ⟨1, 1, 0⟩

def advance (position : Position) (c : Char) : Position :=
  if c = '\n' then ⟨position.line + 1, 1, position.offset + c.utf8Size⟩
  else { position with column := position.column + 1, offset := position.offset + c.utf8Size }

def after (position : Position) (text : List Char) : Position := text.foldl advance position

end Position

structure Lexeme where
  token : Token
  position : Position
  deriving DecidableEq

end Mapsmith.Script
