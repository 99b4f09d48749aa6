import Mapsmith.Script.Basic

/-!
# Editing

`Script.add`, `Script.set`, `Script.replace`, `Script.remove`: adding, replacing and removing
symbols. An edit goes to the symbol that an identifier is looked up to be, and a symbol gives
way only to one of its own kind.
-/

namespace Mapsmith.Script

/-- Puts `new` in the place of the first item that is meant, or takes that item out. -/
def substitute {α : Type} (meant : α → Bool) (new : Option α) : List α → List α
  | [] => []
  | item :: rest =>
    if meant item then new.toList ++ rest else item :: substitute meant new rest

def add (script : Script) : Symbol → Script
  | .type symbol => { script with types := script.types ++ [symbol] }
  | .native symbol => { script with natives := script.natives ++ [symbol] }
  | .global symbol => { script with globals := script.globals ++ [symbol] }
  | .function symbol => { script with functions := script.functions ++ [symbol] }

def without (script : Script) (id : String) : SymbolKind → Script
  | .type => { script with types := substitute (·.id == id) none script.types }
  | .native => { script with natives := substitute (·.signature.id == id) none script.natives }
  | .global => { script with globals := substitute (·.id == id) none script.globals }
  | .function =>
    { script with functions := substitute (·.signature.id == id) none script.functions }

/-- Puts a symbol in the place of the first one of its kind and an identifier. -/
def withInstead (script : Script) (id : String) : Symbol → Script
  | .type new => { script with types := substitute (·.id == id) (some new) script.types }
  | .native new =>
    { script with natives := substitute (·.signature.id == id) (some new) script.natives }
  | .global new => { script with globals := substitute (·.id == id) (some new) script.globals }
  | .function new =>
    { script with functions := substitute (·.signature.id == id) (some new) script.functions }

def remove (script : Script) (id : String) : Except ScriptError (Symbol × Script) :=
  match script.find? id with
  | none => .error (.unknownSymbol id)
  | some old => .ok (old, script.without id old.kind)

/-- Puts another symbol of its kind in the place of a symbol. The outcome also has
the symbol that was there. -/
def replace (script : Script) (id : String) (new : Symbol) : Except ScriptError (Symbol × Script) :=
  match script.find? id with
  | none => .error (.unknownSymbol id)
  | some old =>
    if new.kind = old.kind then .ok (old, script.withInstead id new)
    else .error (.kindMismatch id old.kind new.kind)

/-- Replaces the symbol of an identifier, or adds one if there is none. -/
def set (script : Script) (id : String) (new : Symbol) :
    Except ScriptError (Option Symbol × Script) :=
  if script.contains id then (script.replace id new).map fun (old, script) => (some old, script)
  else .ok (none, script.add new)

end Mapsmith.Script
