import Mapsmith.Script.Error

/-!
# Parsers of tokens

A parser takes what it reads off the front of the tokens ahead. When it fails, the
tokens it has not taken begin with the one that is at fault. No parser goes back.
-/

namespace Mapsmith.Script

abbrev Parser := EStateM SyntaxFault (List Lexeme)

namespace Parser

def peek : Parser (Option TokenKind) := fun tokens =>
  .ok (tokens.head?.map fun lexeme => lexeme.token.kind) tokens

/-- Fails at the token ahead, which is not what is expected. -/
def unexpected {α : Type} (expected : Expected) : Parser α := fun tokens =>
  .error (.unexpected expected (tokens.head?.map Lexeme.token)) tokens

def accept {α : Type} (use? : Token → Option α) (expected : Expected) : Parser α := fun tokens =>
  match tokens with
  | [] => unexpected expected tokens
  | lexeme :: rest =>
    match use? lexeme.token with
    | some a => .ok a rest
    | none => unexpected expected tokens

def expect (kind : TokenKind) : Parser Position := fun tokens =>
  match tokens with
  | [] => unexpected (.token kind) tokens
  | lexeme :: rest =>
    if lexeme.token.kind = kind then .ok lexeme.position rest
    else unexpected (.token kind) tokens

def eat? (kind : TokenKind) : Parser (Option Position) := fun tokens =>
  match tokens with
  | [] => .ok none tokens
  | lexeme :: rest =>
    if lexeme.token.kind = kind then .ok (some lexeme.position) rest else .ok none tokens

/-- Where the token ahead stands; at the end of the tokens there is no telling. -/
def position : Parser Position := fun tokens =>
  .ok ((tokens.head?.map Lexeme.position).getD .start) tokens

/-- Reads items as long as the tokens ahead go on with one, after the items listed
from the last to the first. Each takes a token or more, so `bound` need only be as
long as the tokens ahead. -/
def manyFrom {α : Type} (continues : List Lexeme → Bool) (item : Parser α)
    (bound : List Lexeme) (items : List α) : Parser (List α) := do
  if continues (← get) then
    let a ← item
    match bound with
    | [] => return (a :: items).reverse
    | _ :: bound => manyFrom continues item bound (a :: items)
  else return items.reverse

def many {α : Type} (continues : List Lexeme → Bool) (item : Parser α) : Parser (List α) :=
  fun tokens => manyFrom continues item tokens [] tokens

def isAt (kind : TokenKind) (tokens : List Lexeme) : Bool :=
  tokens.head?.any fun lexeme => lexeme.token.kind = kind

/-- Reads one item and then each that follows a comma. -/
def commaSeparated {α : Type} (item : Parser α) : Parser (List α) := do
  let first ← item
  let rest ← many (isAt (.delimiter .comma)) do
    let _ ← expect (.delimiter .comma)
    item
  return first :: rest

end Parser

end Mapsmith.Script
