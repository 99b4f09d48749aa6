import Mapsmith.Schema.Scope
import Mapsmith.Text.Digits

/-!
# Lookup tables as text

`Lookups.ofText?` reads lookup tables from JSON text: an object with a member for each table,
which is an object with a count for each key. Of two members of one name the last counts.
-/

namespace Mapsmith.LookupText

/-- Reads off the front of the characters ahead. -/
abbrev Reader := StateT (List Char) Option

def isBlank (c : Char) : Bool := c = ' ' || c = '\n' || c = '\t' || c = '\r'

def skipBlanks : Reader Unit := modify fun text => text.dropWhile isBlank

/-- Takes a mark and the blanks before it, if it is ahead. -/
def mark? (c : Char) : Reader Bool := do
  skipBlanks
  let text ← get
  if text.head? = some c then
    set text.tail
    return true
  else return false

/-- Takes a mark and the blanks before it. -/
def mark (c : Char) : Reader Unit := do
  if ← mark? c then return () else failure

def hexValue? (c : Char) : Option Nat :=
  if '0' ≤ c ∧ c ≤ '9' then some (c.toNat - '0'.toNat)
  else if 'a' ≤ c ∧ c ≤ 'f' then some (c.toNat - 'a'.toNat + 10)
  else if 'A' ≤ c ∧ c ≤ 'F' then some (c.toNat - 'A'.toNat + 10)
  else none

/-- The 16 bits that four hexadecimal digits say. -/
def unit? (a b c d : Char) : Option Nat := do
  return 4096 * (← hexValue? a) + 256 * (← hexValue? b) + 16 * (← hexValue? c) + (← hexValue? d)

/-- The character of a pair of units for characters beyond 16 bits. -/
def paired? (high low : Nat) : Option Char :=
  if 0xD800 ≤ high ∧ high < 0xDC00 ∧ 0xDC00 ≤ low ∧ low < 0xE000 then
    some (Char.ofNat (0x10000 + 1024 * (high - 0xD800) + (low - 0xDC00)))
  else none

/-- The character of a unit that is no half of a pair. -/
def single? (unit : Nat) : Option Char :=
  if 0xD800 ≤ unit ∧ unit < 0xE000 then none else some (Char.ofNat unit)

/-- The character that a letter after a backslash stands for. -/
def escaped? (c : Char) : Option Char :=
  match c with
  | '"' | '\\' | '/' => some c
  | 'b' => some '\x08'
  | 'f' => some '\x0c'
  | 'n' => some '\n'
  | 'r' => some '\r'
  | 't' => some '\t'
  | _ => none

/-- Reads a string up to its quote, after the characters taken before, which are
listed from the last to the first. -/
def stringRest : List Char → List Char → Option (String × List Char)
  | [], _ => none
  | '"' :: rest, taken => some (String.ofList taken.reverse, rest)
  | '\\' :: 'u' :: a :: b :: c :: d :: rest, taken => do
    let unit ← unit? a b c d
    match single? unit, rest with
    | some character, rest => stringRest rest (character :: taken)
    | none, '\\' :: 'u' :: e :: f :: g :: h :: rest =>
      stringRest rest ((← paired? unit (← unit? e f g h)) :: taken)
    | none, _ => none
  | '\\' :: c :: rest, taken => do stringRest rest ((← escaped? c) :: taken)
  | c :: rest, taken => if c.toNat < 32 then none else stringRest rest (c :: taken)

def string : Reader String := do
  mark '"'
  fun text => stringRest text []

/-- A number of 64 bits, without a sign, a fraction, an exponent or a zero before it. -/
def count : Reader Nat := do
  skipBlanks
  let text ← get
  let digits := text.takeWhile Char.isDigit
  let n := Text.ofDigits digits
  if digits.isEmpty ∨ (digits.head? = some '0' ∧ digits.length ≠ 1) ∨
      0x10000000000000000 ≤ n then
    failure
  else
    set (text.drop digits.length)
    return n

def member {α : Type} (value : Reader α) : Reader (String × α) := do
  let name ← string
  mark ':'
  return (name, ← value)

/-- The members after the ones that are listed, from the last to the first. Each
takes a character or more, so `bound` need only be as long as the text. -/
def membersFrom {α : Type} (value : Reader α) :
    List Char → List (String × α) → Reader (List (String × α))
  | [], members => return members
  | _ :: bound, members => do
    if ← mark? ',' then
      let next ← member value
      membersFrom value bound (next :: members)
    else return members

/-- An object, by its members from the last to the first. -/
def object {α : Type} (value : Reader α) : Reader (List (String × α)) := do
  mark '\x7b'
  if ← mark? '\x7d' then return []
  else
    let first ← member value
    let members ← membersFrom value (← get) [first]
    mark '\x7d'
    return members

end Mapsmith.LookupText

namespace Mapsmith

/-- The tables of a text, if it has the form of tables and nothing else in it. -/
def Lookups.ofText? (text : String) : Option Lookups := do
  let (tables, rest) ← LookupText.object (LookupText.object LookupText.count) text.toList
  if rest.all LookupText.isBlank then return tables else none

end Mapsmith
