import Mapsmith.Script.Comments
import Mapsmith.Script.Layout
import Mapsmith.Value.Basic

/-!
# Listings

The lines that commands print, with colours for a terminal.
-/

namespace Mapsmith.Listing

/-- Text between the codes that turn a rendition on and off. -/
def rendered (on off : Nat) (text : String) : String :=
  "\x1b[" ++ toString on ++ "m" ++ text ++ "\x1b[" ++ toString off ++ "m"

def bold (text : String) : String := rendered 1 0 text
def dim (text : String) : String := rendered 2 0 text
def red (text : String) : String := rendered 31 39 text
def green (text : String) : String := rendered 32 39 text
def cyan (text : String) : String := rendered 36 39 text

/-- The number of a line, to the right in six columns. -/
def lineNumber (line : Nat) : String :=
  let digits := toString line
  dim (String.ofList (List.replicate (6 - digits.length) ' ') ++ digits)

/-! ## Documents -/

/-- The lengths of the arrays of a document, or the number of its fields. -/
def summary (document : Document) : String :=
  let arrays := document.entries.filterMap fun entry =>
    match entry.2 with
    | .array items => some (entry.1 ++ ": " ++ toString items.length)
    | _ => none
  if arrays.isEmpty then toString document.entries.length ++ " fields" else ", ".intercalate arrays

/-! ## Scripts -/

open Script

def takenText (signature : Signature) : String :=
  if signature.takes.isEmpty then "nothing"
  else ", ".intercalate (signature.takes.map fun parameter => parameter.type ++ " " ++ parameter.id)

def signatureText (signature : Signature) : String :=
  "takes " ++ takenText signature ++ " returns " ++ signature.returns.getD "nothing"

def description : Symbol → String
  | .type symbol => "extends " ++ symbol.parent
  | .native symbol => signatureText symbol.signature
  | .global symbol =>
    let type := if symbol.array then symbol.type ++ " array" else symbol.type
    match symbol.initial with
    | none => type
    | some initial => type ++ " = " ++ initial.text
  | .function symbol =>
    signatureText symbol.signature ++ ", " ++ toString symbol.locals.length ++ " locals, " ++
      toString symbol.statements.length ++ " statements"

def symbolLine (symbol : Symbol) : String :=
  let line := match symbol.position with
    | none => dim ""
    | some position => lineNumber position.line
  line ++ " " ++ cyan symbol.id ++ " " ++ description symbol ++ "\n"

/-- The symbols of one kind under a heading, or nothing if there are none. -/
def kindListing (script : Script) (kind : SymbolKind) : String :=
  let symbols := script.symbols.filter fun symbol => symbol.kind = kind
  if symbols.isEmpty then ""
  else bold (kind.name ++ "s") ++ "\n" ++ String.join (symbols.map symbolLine)

def symbolListing (script : Script) (kinds : List SymbolKind) : String :=
  String.join (kinds.map (kindListing script))

def commentListing (text : String) : String :=
  String.join ((comments text).map fun (line, comment) =>
    lineNumber line ++ " " ++ comment ++ "\n")

end Mapsmith.Listing
