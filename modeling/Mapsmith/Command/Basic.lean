import Mapsmith.Command.Arguments
import Mapsmith.Format.Registry
import Mapsmith.Script.Error
import Mapsmith.Text.Digits

/-!
# Commands

`Command.ofArguments?`: what the program can be asked to do, and how the arguments say it.
-/

namespace Mapsmith

/-- The options of decoding as a command has them; the lookup tables are in a file. -/
structure CodecSettings where
  maxElements : Nat
  maxDepth : Nat
  allowTrailing : Bool
  lookup : Option String

/-- What becomes of a script in its new layout. -/
inductive LayoutMode where
  | print
  /-- Tell whether it is the layout that the script has. -/
  | check
  /-- Write it to the file of the script. -/
  | write

inductive Command where
  /-- Print a file as JSON. -/
  | decode (file : String) (format : Option Format) (compact : Bool) (settings : CodecSettings)
  /-- Check that a file encodes back to its bytes. -/
  | roundTrip (file : String) (format : Option Format) (settings : CodecSettings)
  /-- Decode every known file of a map. -/
  | map (directory : String) (settings : CodecSettings)
  /-- Lay out a script or those below a directory. -/
  | layout (path : String) (mode : LayoutMode)
  /-- Rename a symbol or, in a function, a local variable or a parameter. -/
  | rename (file old new : String) (function : Option String) (output : Option String)
  /-- List the symbols of a script. -/
  | symbols (file : String) (kind : Option Script.SymbolKind)
  /-- List the comments of a script. -/
  | comments (file : String)

namespace Command

open Arguments

/-! ## Values -/

def number? (text : String) : Option Nat :=
  let digits : List Char := match text.toList with
    | '+' :: rest => rest
    | digits => digits
  let n := Text.ofDigits digits
  if digits ≠ [] ∧ digits.all Char.isDigit ∧ n < 0x10000000000000000 then some n else none

def path? (text : String) : Option String := if text = "" then none else some text

/-- Reads an option that may be missing. The outcome is missing if the value is not
as it should be. -/
def optional {α : Type} (given : Given) (name : String) (read? : String → Option α) :
    Option (Option α) :=
  match given.lookup name with
  | none => some none
  | some value => (read? value).map some

def required {α : Type} (given : Given) (name : String) (read? : String → Option α) : Option α :=
  (given.lookup name).bind read?

def isGiven (given : Given) (name : String) : Bool := (given.lookup name).isSome

/-! ## Settings of decoding -/

def settingOptions : List Known :=
  [valued "max-elements", valued "max-depth", flag "allow-trailing", valued "lookup"]

def settings? (given : Given) : Option CodecSettings := do
  let defaults : CodecOptions := {}
  let maxElements ← optional given "max-elements" number?
  let maxDepth ← optional given "max-depth" number?
  return {
    maxElements := maxElements.getD defaults.maxElements
    maxDepth := maxDepth.getD defaults.maxDepth
    allowTrailing := isGiven given "allow-trailing"
    lookup := ← optional given "lookup" path? }

/-! ## Commands by their arguments -/

def decode? (arguments : List String) : Option Command := do
  let given ← read? (lettered "file" :: valued "format" :: flag "compact" ::
      settingOptions) arguments
  return .decode (← required given "file" path?) (← optional given "format" Format.ofText?)
    (isGiven given "compact") (← settings? given)

def roundTrip? (arguments : List String) : Option Command := do
  let given ← read? (lettered "file" :: valued "format" :: settingOptions) arguments
  return .roundTrip (← required given "file" path?) (← optional given "format" Format.ofText?)
    (← settings? given)

def map? (arguments : List String) : Option Command := do
  let given ← read? (lettered "directory" :: settingOptions) arguments
  return .map (← required given "directory" path?) (← settings? given)

def layout? (arguments : List String) : Option Command := do
  let given ← read? [lettered "file", flag "check", flag "write"] arguments
  let path ← required given "file" path?
  match isGiven given "check", isGiven given "write" with
  | false, false => return .layout path .print
  | true, false => return .layout path .check
  | false, true => return .layout path .write
  | true, true => none

def rename? (arguments : List String) : Option Command := do
  let given ← read?
    [lettered "file", valued "from", valued "to", valued "function", lettered "output"] arguments
  return .rename (← required given "file" path?) (← required given "from" some)
    (← required given "to" some) (← optional given "function" some)
    (← optional given "output" path?)

def symbols? (arguments : List String) : Option Command := do
  let given ← read? [lettered "file", valued "kind"] arguments
  return .symbols (← required given "file" path?)
    (← optional given "kind" Script.SymbolKind.ofName?)

def comments? (arguments : List String) : Option Command := do
  let given ← read? [lettered "file"] arguments
  return .comments (← required given "file" path?)

/-- The command of some arguments, if they are accepted. -/
def ofArguments? : List String → Option Command
  | "decode" :: rest => decode? rest
  | "roundtrip" :: rest => roundTrip? rest
  | "map" :: rest => map? rest
  | "jass" :: "fmt" :: rest => layout? rest
  | "jass" :: "rename" :: rest => rename? rest
  | "jass" :: "symbols" :: rest => symbols? rest
  | "jass" :: "comments" :: rest => comments? rest
  | _ => none

end Command

end Mapsmith
