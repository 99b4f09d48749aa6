import Mapsmith.Text.Bytes

/-!
# Values and documents

A document is an ordered list of named values, and a value may hold a document.
`Document.insert` keeps names distinct; a document whose names are distinct is
read by name alone, while its order is the order of its fields in a file.
-/

namespace Mapsmith

/-- A four-byte identifier such as `hfoo`. -/
structure FourCC where
  first : UInt8
  second : UInt8
  third : UInt8
  fourth : UInt8
  deriving DecidableEq, Repr

namespace FourCC

def bytes (code : FourCC) : Bytes := [code.first, code.second, code.third, code.fourth]

def ofBytes? : Bytes → Option FourCC
  | [a, b, c, d] => some ⟨a, b, c, d⟩
  | _ => none

def reverse (code : FourCC) : FourCC := ⟨code.fourth, code.third, code.second, code.first⟩

@[simp] theorem reverse_reverse (code : FourCC) : code.reverse.reverse = code := rfl

@[simp] theorem ofBytes?_bytes (code : FourCC) : ofBytes? code.bytes = some code := rfl

end FourCC

mutual
inductive Value where
  | int (n : Int64)
  /-- A single-precision number, by its bits, so that no payload is lost. -/
  | float (bits : UInt32)
  | bool (b : Bool)
  | str (text : String)
  | bytes (content : Bytes)
  | id (code : FourCC)
  /-- An enumerated value; it has no name when `raw` is none of the known ones. -/
  | enum (name : Option String) (raw : Value)
  /-- A set of flags: the bits count, the names list the flags known among them. -/
  | flags (bits : UInt64) (names : List String)
  | struct (document : Document)
  | array (items : List Value)
structure Document where
  entries : List (String × Value)
end

instance : Inhabited Value := ⟨.int 0⟩

namespace Value

/-- What a value is, in the words of an error. -/
def kind : Value → String
  | .int _ => "an integer"
  | .float _ => "a float"
  | .bool _ => "a boolean"
  | .str _ => "a string"
  | .bytes _ => "bytes"
  | .id _ => "an identifier"
  | .enum .. => "an enum"
  | .flags .. => "flags"
  | .struct _ => "a struct"
  | .array _ => "an array"

/-- The integer that a value stands for: a truth value is 0 or 1, an enumerated
value is its raw value, and flags are their bits if these fit a signed word. -/
def asInt? : Value → Option Int
  | .int n => some n.toInt
  | .bool b => some (if b then 1 else 0)
  | .enum _ raw => raw.asInt?
  | .flags bits _ => if bits.toNat < 0x8000000000000000 then some bits.toNat else none
  | _ => none

def asFloat? : Value → Option UInt32
  | .float bits => some bits
  | _ => none

def asStr? : Value → Option String
  | .str text => some text
  | .enum _ raw => raw.asStr?
  | _ => none

/-- The identifier of a value; any four bytes are one. -/
def asId? : Value → Option FourCC
  | .id code => some code
  | .bytes content => FourCC.ofBytes? content
  | _ => none

def asStruct? : Value → Option Document
  | .struct document => some document
  | _ => none

def asArray? : Value → Option (List Value)
  | .array items => some items
  | _ => none

/-- The name of an enumerated value that is one of the known ones. -/
def enumName? : Value → Option String
  | .enum name _ => name
  | _ => none

end Value

theorem lookup_entry {α : Type} (name other : String) (a : α) (rest : List (String × α)) :
    ((name, a) :: rest).lookup other = if other = name then some a else rest.lookup other := by
  by_cases h : other = name
  · subst h
    simp
  · have : (other == name) = false := by simpa using h
    simp [List.lookup_cons, h, this]

namespace Document

def empty : Document := ⟨[]⟩

instance : Inhabited Document := ⟨empty⟩

def size (doc : Document) : Nat := doc.entries.length

def names (doc : Document) : List String := doc.entries.map Prod.fst

def get? (doc : Document) (name : String) : Option Value := doc.entries.lookup name

/-- Puts a value under a name: a name that is there keeps its place, a new one
goes to the end. -/
def insert (doc : Document) (name : String) (value : Value) : Document :=
  ⟨go doc.entries⟩
where
  go : List (String × Value) → List (String × Value)
    | [] => [(name, value)]
    | (n, v) :: rest => if n = name then (n, value) :: rest else (n, v) :: go rest

/-- The document that arises by putting in the entries one after the other. -/
def ofList (entries : List (String × Value)) : Document :=
  entries.foldl (fun doc entry => doc.insert entry.1 entry.2) empty

/-- Follows a path of names into nested documents. -/
def getPath? (doc : Document) : List String → Option Value
  | [] => none
  | [name] => doc.get? name
  | name :: rest => do (← (← doc.get? name).asStruct?).getPath? rest

theorem get?_insert (doc : Document) (name : String) (value : Value) (other : String) :
    (doc.insert name value).get? other = if other = name then some value else doc.get? other := by
  obtain ⟨entries⟩ := doc
  simp only [get?, insert]
  induction entries with
  | nil => simp [insert.go, lookup_entry]
  | cons entry rest ih =>
    obtain ⟨n, v⟩ := entry
    by_cases hn : n = name
    · subst hn
      by_cases h : other = n <;> simp [insert.go, lookup_entry, h]
    · by_cases h : other = n
      · have : ¬other = name := fun e => hn (h ▸ e)
        simp [insert.go, h, hn]
      · simp [insert.go, lookup_entry, h, hn, ih]

end Document

end Mapsmith
