/-!
# Arguments

Options of a command as they are given: `--name value`, `--name=value`, `-n value`,
`-nvalue` or `-n=value`, and flags without a value. A value that starts with a hyphen
has to be joined to its option, a hyphen alone apart. Arguments are not accepted if
one is unknown, stands alone or lacks its value, or if an option is given twice.
-/

namespace Mapsmith.Arguments

structure Known where
  name : String
  letter : Option Char
  hasValue : Bool

def flag (name : String) : Known := ⟨name, none, false⟩

/-- An option with a value and no letter. -/
def valued (name : String) : Known := ⟨name, none, true⟩

/-- An option with a value and the letter that its name starts with. -/
def lettered (name : String) : Known := ⟨name, name.toList.head?, true⟩

/-- The options that are given, by their names; the value of a flag is empty. -/
abbrev Given := List (String × String)

def add? (given : Given) (name value : String) : Option Given :=
  if (given.lookup name).isSome then none else some ((name, value) :: given)

/-- Whether an argument can be the value of the option before it. -/
def isValue (argument : String) : Bool := argument = "-" || !argument.startsWith "-"

def splitLong (argument : List Char) : String × Option String :=
  let name := argument.takeWhile (· ≠ '=')
  match argument.drop name.length with
  | [] => (String.ofList name, none)
  | _ :: value => (String.ofList name, some (String.ofList value))

def joinedToLetter? : List Char → Option String
  | [] => none
  | '=' :: value => some (String.ofList value)
  | value => some (String.ofList value)

/-- The option that an argument names, and the value joined to it. -/
def option? (known : List Known) (argument : String) : Option (Known × Option String) := do
  match argument.toList with
  | '-' :: '-' :: rest =>
    let (name, joined) := splitLong rest
    return (← known.find? fun option => option.name == name, joined)
  | '-' :: letter :: rest =>
    return (← known.find? fun option => option.letter == some letter, joinedToLetter? rest)
  | _ => none

def readFrom? (known : List Known) : List String → Given → Option Given
  | [], given => some given
  | ["--"], given => some given
  | argument :: rest, given => do
    let (option, joined) ← option? known argument
    match option.hasValue, joined, rest with
    | false, none, rest => readFrom? known rest (← add? given option.name "")
    | false, some _, _ => none
    | true, some value, rest => readFrom? known rest (← add? given option.name value)
    | true, none, value :: rest =>
      if isValue value then readFrom? known rest (← add? given option.name value) else none
    | true, none, [] => none

def read? (known : List Known) (arguments : List String) : Option Given :=
  readFrom? known arguments []

end Mapsmith.Arguments
