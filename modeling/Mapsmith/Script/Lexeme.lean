import Mapsmith.Script.Error

/-!
# From text to tokens

`Script.lexemes`: a text is gaps and lexemes in turn. A gap is blanks and at most one comment,
which ends before the line break. Of the lexemes a run of line breaks takes in the blank lines
and the lines of comment between its breaks; all others hold what they are spelled with. The
functions here count characters: each says how much of the text ahead belongs to the gap or
lexeme.
-/

namespace Mapsmith.Script

def isBlank (c : Char) : Bool := c = ' ' || c = '\t' || c = '\x0c' || c = '\r'

/-- The length of a comment at the start of a text, zero if there is none. -/
def commentLength : List Char → Nat
  | '/' :: '/' :: rest => (rest.takeWhile (· != '\n')).length + 2
  | _ => 0

def gapLength (text : List Char) : Nat :=
  let blanks := (text.takeWhile isBlank).length
  blanks + commentLength (text.drop blanks)

/-- Adds to `taken`, the length of a run of line breaks, what goes on with it in
the text ahead. -/
def lineBreaks (text : List Char) (taken : Nat) : Nat :=
  let gap := gapLength text
  match _h : text.drop gap with
  | '\n' :: rest => lineBreaks rest (taken + gap + 1)
  | _ => taken
termination_by text.length
decreasing_by
  have h := congrArg List.length ‹_›
  simp at h
  omega

/-- Adds to `taken` the length of the text up to the quote that ends a string. -/
def stringRest? : List Char → Nat → Option Nat
  | [], _ => none
  | '"' :: _, taken => some (taken + 1)
  | '\\' :: '"' :: rest, taken => stringRest? rest (taken + 2)
  | '\\' :: '\\' :: rest, taken => stringRest? rest (taken + 2)
  | _ :: rest, taken => stringRest? rest (taken + 1)

/-- The length of the text up to the quote that ends a raw identifier. -/
def rawIdRest? (text : List Char) : Option Nat :=
  let code := text.takeWhile (· != '\'')
  if code.length < text.length then some (code.length + 1) else none

def isHexDigit (c : Char) : Bool :=
  c.isDigit || ('a' ≤ c && c ≤ 'f') || ('A' ≤ c && c ≤ 'F')

def isOctalDigit (c : Char) : Bool := '0' ≤ c && c ≤ '7'

def leading (p : Char → Bool) (text : List Char) : Nat := (text.takeWhile p).length

def hexDigits? (text : List Char) : Option Nat :=
  if leading isHexDigit text = 0 then none else some (leading isHexDigit text)

/-- The rest of a hexadecimal number that started with a zero. -/
def hexRest? : List Char → Option Nat
  | 'x' :: rest | 'X' :: rest => (hexDigits? rest).map (· + 1)
  | _ => none

/-- The rest of a real number that started with a digit: digits, the point and the
digits of the fraction, of which there need not be any. -/
def realRest? (text : List Char) : Option Nat :=
  let whole := leading Char.isDigit text
  match text.drop whole with
  | '.' :: rest => some (whole + 1 + leading Char.isDigit rest)
  | _ => none

/-- The kind of a number that starts with a character, and how much of the text
ahead belongs to it. -/
def numberRest? (first : Char) (text : List Char) : Option (LiteralKind × Nat) :=
  if first = '$' then (hexDigits? text).map (.hexadecimal, ·)
  else if first = '.' then
    if leading Char.isDigit text = 0 then none else some (.real, leading Char.isDigit text)
  else if !first.isDigit then none
  else if first ≠ '0' then
    match realRest? text with
    | some rest => some (.real, rest)
    | none => some (.integer, leading Char.isDigit text)
  else
    match hexRest? text, realRest? text with
    | some rest, _ => some (.hexadecimal, rest)
    | none, some rest => some (.real, rest)
    | none, none =>
      if leading isOctalDigit text = 0 then some (.integer, 0)
      else some (.octal, leading isOctalDigit text)

def isWordCharacter (c : Char) : Bool := c.isAlphanum || c = '_'

/-- The kind of a sign that starts with a character, and how much of the text ahead
belongs to it. -/
def signRest? (first : Char) (text : List Char) : Option (TokenKind × Nat) :=
  let equals := text.head? = some '='
  match first with
  | '=' => some (if equals then (.operator .equal, 1) else (.assign, 0))
  | '!' => if equals then some (.operator .notEqual, 1) else none
  | '<' => some (if equals then (.operator .atMost, 1) else (.operator .less, 0))
  | '>' => some (if equals then (.operator .atLeast, 1) else (.operator .greater, 0))
  | '+' => some (.operator .plus, 0)
  | '-' => some (.operator .minus, 0)
  | '*' => some (.operator .times, 0)
  | '/' => some (.operator .divide, 0)
  | '(' => some (.delimiter .openParen, 0)
  | ')' => some (.delimiter .closeParen, 0)
  | '[' => some (.delimiter .openBracket, 0)
  | ']' => some (.delimiter .closeBracket, 0)
  | ',' => some (.delimiter .comma, 0)
  | _ => none

/-- The kind of the lexeme that starts with a character, and how much of the text
ahead belongs to it. -/
def lexemeRest? (first : Char) (text : List Char) : Option (TokenKind × Nat) :=
  if first = '\n' then some (.newline, lineBreaks text 0)
  else if first = '"' then (stringRest? text 0).map (.literal .string, ·)
  else if first = '\'' then (rawIdRest? text).map (.literal .rawId, ·)
  else if first.isAlpha then
    let rest := leading isWordCharacter text
    some (.ofWord (String.ofList (first :: text.take rest)), rest)
  else
    match numberRest? first text with
    | some (kind, rest) => some (.literal kind, rest)
    | none => signRest? first text

def tokenText (kind : TokenKind) (spelling : List Char) : String :=
  if kind = .newline then "\n" else String.ofList spelling

/-- The tokens of the text ahead, after those found before it, which are listed
from the last to the first. -/
def lexemesFrom (position : Position) (text : List Char) (found : List Lexeme) :
    Except SyntaxError (List Lexeme) :=
  let gap := gapLength text
  let position := position.after (text.take gap)
  match _h : text.drop gap with
  | [] => .ok found.reverse
  | first :: rest =>
    match lexemeRest? first rest with
    | none => .error ⟨.unexpectedCharacter, position, first.utf8Size⟩
    | some (kind, n) =>
      let spelling := first :: rest.take n
      lexemesFrom (position.after spelling) (rest.drop n)
        (⟨⟨kind, tokenText kind spelling⟩, position⟩ :: found)
termination_by text.length
decreasing_by
  have h := congrArg List.length ‹_›
  simp at h ⊢
  omega

def lexemes (text : String) : Except SyntaxError (List Lexeme) :=
  lexemesFrom .start text.toList []

end Mapsmith.Script
