import Mapsmith.Text.Bytes

/-!
# JSON text

A tree of JSON values whose numbers keep their written form, and its two
layouts: `compact` on one line, and `pretty` with two spaces for each level.
-/

namespace Mapsmith

inductive Json where
  | null
  | bool (value : Bool)
  /-- A number in its written form. -/
  | number (text : String)
  | string (text : String)
  | array (items : List Json)
  | object (members : List (String × Json))

namespace Json

def ofInt (n : Int) : Json := .number (toString n)

def ofNat (n : Nat) : Json := .number (toString n)

def ofOption {α : Type} (f : α → Json) : Option α → Json
  | none => .null
  | some a => f a

/-- How a character is written in a JSON string: only quotes, backslashes and
control characters are escaped. -/
def escape (c : Char) : String :=
  match c with
  | '"' => "\\\""
  | '\\' => "\\\\"
  | '\n' => "\\n"
  | '\r' => "\\r"
  | '\t' => "\\t"
  | '\x08' => "\\b"
  | '\x0C' => "\\f"
  | _ =>
    if c.toNat < 32 then
      "\\u00" ++ String.ofList [Bytes.hexDigit (c.toNat / 16), Bytes.hexDigit (c.toNat % 16)]
    else String.singleton c

def putString (out text : String) : String :=
  (text.foldl (fun out c => out ++ escape c) (out.push '"')).push '"'

mutual
def putCompact (out : String) : Json → String
  | .null => out ++ "null"
  | .bool true => out ++ "true"
  | .bool false => out ++ "false"
  | .number text => out ++ text
  | .string text => putString out text
  | .array items => (putItems (out.push '[') true items).push ']'
  | .object members => (putMembers (out.push '\x7b') true members).push '\x7d'
def putItems (out : String) (first : Bool) : List Json → String
  | [] => out
  | item :: rest => putItems (putCompact (if first then out else out.push ',') item) false rest
def putMembers (out : String) (first : Bool) : List (String × Json) → String
  | [] => out
  | (name, value) :: rest =>
    let out := putString (if first then out else out.push ',') name
    putMembers (putCompact (out.push ':') value) false rest
end

def compact (json : Json) : String := putCompact "" json

/-- Appends a line break and the indentation of a level. -/
def putLine (out : String) (level : Nat) : String :=
  Nat.repeat (fun out => out ++ "  ") level (out.push '\n')

mutual
/-- Appends a value whose items and members stand on lines of their own; an
empty array or object stays on its line. -/
def putPretty (out : String) (level : Nat) : Json → String
  | .array (item :: rest) =>
    (putLine (putPrettyItems (out.push '[') (level + 1) true (item :: rest)) level).push ']'
  | .object (member :: rest) =>
    (putLine (putPrettyMembers (out.push '\x7b') (level + 1) true (member :: rest)) level).push
    '\x7d'
  | .array [] => out ++ "[]"
  | .object [] => out ++ "\x7b\x7d"
  | .null => out ++ "null"
  | .bool true => out ++ "true"
  | .bool false => out ++ "false"
  | .number text => out ++ text
  | .string text => putString out text
def putPrettyItems (out : String) (level : Nat) (first : Bool) : List Json → String
  | [] => out
  | item :: rest =>
    let out := putLine (if first then out else out.push ',') level
    putPrettyItems (putPretty out level item) level false rest
def putPrettyMembers (out : String) (level : Nat) (first : Bool) :
    List (String × Json) → String
  | [] => out
  | (name, value) :: rest =>
    let out := putString (putLine (if first then out else out.push ',') level) name
    putPrettyMembers (putPretty (out ++ ": ") level value) level false rest
end

/-- The text of a value over several lines. -/
def pretty (json : Json) : String := putPretty "" 0 json

end Json

end Mapsmith
