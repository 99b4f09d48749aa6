import Mapsmith.Value.Basic
import Mapsmith.Decimal.Layout
import Mapsmith.Text.Quoted
import Mapsmith.Text.Json

/-!
# Values as text

Two written forms of a value: `toText` for messages, on one line and without the
content of documents and arrays, and `toJson` for export.
-/

namespace Mapsmith

namespace Value

/-- Floats in messages: never an exponent, and no point after a whole number. -/
def messageFloat : Decimal.Layout where
  tie := .upward
  positional := none
  point := false
  signedExponent := false
  notANumber := "NaN"
  infinity := "inf"
  negativeInfinity := "-inf"

/-- Floats in JSON: an exponent below a millionth and from ten million million
on, and always a point before it. -/
def jsonFloat : Decimal.Layout where
  tie := .toEven
  positional := some (-6, 12)
  point := true
  signedExponent := true
  notANumber := "null"
  infinity := "null"
  negativeInfinity := "null"

def toText : Value → String
  | .int n => toString n.toInt
  | .float bits => messageFloat.single bits
  | .bool b => if b then "true" else "false"
  | .str text => Text.quote text
  | .bytes content => content.listing
  | .id code => "'" ++ code.bytes.lossy ++ "'"
  | .enum (some name) _ => name
  | .enum none raw => "unrecognized(" ++ raw.toText ++ ")"
  | .flags bits _ => "0x" ++ Text.hexNat bits.toNat
  | .struct document => "\x7b" ++ toString document.size ++ " fields\x7d"
  | .array items => "[" ++ toString items.length ++ " items]"

mutual
def toJson : Value → Json
  | .int n => .ofInt n.toInt
  | .float bits => .number (jsonFloat.single bits)
  | .bool b => .bool b
  | .str text => .string text
  | .bytes content => .string content.hex
  | .id code => .string code.bytes.lossy
  | .enum (some name) _ => .string name
  | .enum none raw => raw.toJson
  | .flags bits names =>
    .object [("bits", .ofNat bits.toNat), ("set", .array (names.map .string))]
  | .struct document => documentJson document
  | .array items => .array (itemsJson items)
  termination_by structural v => v
def documentJson : Document → Json
  | ⟨entries⟩ => .object (entriesJson entries)
  termination_by structural doc => doc
def itemsJson : List Value → List Json
  | [] => []
  | item :: rest => item.toJson :: itemsJson rest
  termination_by structural items => items
def entriesJson : List (String × Value) → List (String × Json)
  | [] => []
  | (name, value) :: rest => (name, value.toJson) :: entriesJson rest
  termination_by structural entries => entries
end

end Value

def Document.toJson (doc : Document) : Json := Value.documentJson doc

end Mapsmith
