import Mapsmith.Script.Basic

/-!
# Renaming

`Script.rename`: a type is renamed where it is declared and wherever a declaration names it.
Any other symbol is renamed in the declarations of its name and wherever a fragment has the
identifier. The new name is taken as it is.
-/

namespace Mapsmith.Script

def renamed (old new name : String) : String := if name = old then new else name

def Signature.renameType (old new : String) (signature : Signature) : Signature where
  id := signature.id
  takes := signature.takes.map fun parameter =>
    { parameter with type := renamed old new parameter.type }
  returns := signature.returns.map (renamed old new)

def Callable.renameType (old new : String) (symbol : Callable) : Callable :=
  { symbol with signature := symbol.signature.renameType old new }

def Variable.renameType (old new : String) (v : Variable) : Variable :=
  { v with type := renamed old new v.type }

def Global.renameType (old new : String) (symbol : Global) : Global :=
  { symbol with type := renamed old new symbol.type }

def Function.renameType (old new : String) (symbol : Function) : Function :=
  { symbol with
    signature := symbol.signature.renameType old new
    locals := symbol.locals.map (Variable.renameType old new) }

def renameFirstType (old new : String) : List TypeSymbol → List TypeSymbol
  | [] => []
  | symbol :: rest =>
    if symbol.id = old then { symbol with id := new } :: rest
    else symbol :: renameFirstType old new rest

def renameType (script : Script) (old new : String) : Script where
  types := (renameFirstType old new script.types).map fun symbol =>
    { symbol with parent := renamed old new symbol.parent }
  natives := script.natives.map (Callable.renameType old new)
  globals := script.globals.map (Global.renameType old new)
  functions := script.functions.map (Function.renameType old new)

def Signature.renameId (old new : String) (signature : Signature) : Signature :=
  { signature with id := renamed old new signature.id }

def Callable.renameId (old new : String) (symbol : Callable) : Callable :=
  { symbol with signature := symbol.signature.renameId old new }

def Variable.renameUses (old new : String) (v : Variable) : Variable :=
  { v with initial := v.initial.map (·.rename old new) }

def Global.renameValue (old new : String) (symbol : Global) : Global :=
  { symbol with
    id := renamed old new symbol.id
    initial := symbol.initial.map (·.rename old new) }

def Function.renameValue (old new : String) (symbol : Function) : Function :=
  { symbol with
    signature := symbol.signature.renameId old new
    locals := symbol.locals.map (Variable.renameUses old new)
    statements := symbol.statements.map (·.rename old new) }

def renameValue (script : Script) (old new : String) : Script :=
  { script with
    natives := script.natives.map (Callable.renameId old new)
    globals := script.globals.map (Global.renameValue old new)
    functions := script.functions.map (Function.renameValue old new) }

/-- Renames the symbol that an identifier is looked up to be, and every reference to
it. -/
def rename (script : Script) (old new : String) : Except ScriptError Script :=
  match script.find? old with
  | none => .error (.unknownSymbol old)
  | some (.type _) => .ok (script.renameType old new)
  | some _ => .ok (script.renameValue old new)

/-- Renames the parameters and local variables of a name in a function, and all that
refers to them. -/
def Function.renameLocal (old new : String) (symbol : Function) : Function :=
  { symbol with
    signature := { symbol.signature with
      takes := symbol.signature.takes.map fun parameter =>
        { parameter with id := renamed old new parameter.id } }
    locals := symbol.locals.map fun v =>
      { v.renameUses old new with id := renamed old new v.id }
    statements := symbol.statements.map (·.rename old new) }

/-- Renames within the first function of an identifier, if there is one. -/
def renameLocal? (script : Script) (function old new : String) : Option Script :=
  match script.functions.span fun symbol => symbol.signature.id != function with
  | (_, []) => none
  | (before, symbol :: after) =>
    some { script with functions := before ++ symbol.renameLocal old new :: after }

end Mapsmith.Script
