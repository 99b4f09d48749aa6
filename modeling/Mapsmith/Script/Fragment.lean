import Mapsmith.Script.Lexeme

/-!
# Fragments

The tokens of a statement or of the value of a variable, as they were written. A
fragment need not follow the grammar.
-/

namespace Mapsmith.Script

abbrev Fragment := List Token

/-- A token with its identifier renamed, if it is one of that name. -/
def Token.rename (old new : String) (token : Token) : Token :=
  if token = .identifier old then .identifier new else token

namespace Fragment

/-- The tokens of a text, without the line breaks at its end. -/
def ofText (text : String) : Except SyntaxError Fragment := do
  let tokens := (← lexemes text).map Lexeme.token
  return (tokens.reverse.dropWhile fun token => token.kind = .newline).reverse

def occurrences (fragment : Fragment) (id : String) : Nat := fragment.count (.identifier id)

def rename (fragment : Fragment) (old new : String) : Fragment :=
  fragment.map (Token.rename old new)

def text (fragment : Fragment) : String := " ".intercalate (fragment.map Token.text)

end Fragment

end Mapsmith.Script
