import Mapsmith.Text.Bytes
import Mapsmith.Text.Printable

/-!
# Quoted text

`Text.quote`: a text between double quotes on one line. Quotes, backslashes and characters that
are not printable are escaped, so that different texts look different.
-/

namespace Mapsmith.Text

/-- A number in lower-case hexadecimal digits. -/
def hexNat (n : Nat) : String := String.ofList (Nat.toDigits 16 n)

/-- How a character is written between the quotes. -/
def quoteChar (c : Char) : String :=
  match c with
  | '\x00' => "\\0"
  | '\t' => "\\t"
  | '\r' => "\\r"
  | '\n' => "\\n"
  | '"' => "\\\""
  | '\\' => "\\\\"
  | _ => if isPrintable c then String.singleton c else "\\u\x7b" ++ hexNat c.toNat ++ "\x7d"

def quote (text : String) : String :=
  text.foldl (fun out c => out ++ quoteChar c) "\"" ++ "\""

def splitOn (separator : Char) (text : String) : List String :=
  (parts text.toList).map String.ofList
where
  parts : List Char → List (List Char)
    | [] => [[]]
    | c :: rest =>
      if c = separator then [] :: parts rest
      else match parts rest with
        | [] => [[c]]
        | part :: more => (c :: part) :: more

end Mapsmith.Text
