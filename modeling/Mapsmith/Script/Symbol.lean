import Mapsmith.Script.Error
import Mapsmith.Script.Fragment
import Mapsmith.Script.Signature

/-!
# Symbols

What a script declares: types, natives, global variables and functions. Positions
tell where a symbol was read; a symbol that was made otherwise has none.
-/

namespace Mapsmith.Script

structure TypeSymbol where
  id : String
  parent : String
  position : Option Position
  deriving DecidableEq

/-- A native, or what a function has in common with one. -/
structure Callable where
  signature : Signature
  constant : Bool
  position : Option Position
  deriving DecidableEq

structure Variable where
  type : String
  id : String
  array : Bool
  initial : Option Fragment
  position : Option Position
  deriving DecidableEq

structure Global extends Variable where
  constant : Bool
  deriving DecidableEq

structure Function extends Callable where
  locals : List Variable
  statements : List Fragment
  deriving DecidableEq

inductive Symbol where
  | type (symbol : TypeSymbol)
  | native (symbol : Callable)
  | global (symbol : Global)
  | function (symbol : Function)
  deriving DecidableEq

namespace Symbol

def kind : Symbol → SymbolKind
  | type _ => .type
  | native _ => .native
  | global _ => .global
  | function _ => .function

def id : Symbol → String
  | type symbol => symbol.id
  | native symbol => symbol.signature.id
  | global symbol => symbol.id
  | function symbol => symbol.signature.id

def position : Symbol → Option Position
  | type symbol => symbol.position
  | native symbol => symbol.position
  | global symbol => symbol.position
  | function symbol => symbol.position

end Symbol

/-! ## Symbols without their positions -/

def TypeSymbol.unplaced (symbol : TypeSymbol) : TypeSymbol := { symbol with position := none }

def Callable.unplaced (symbol : Callable) : Callable := { symbol with position := none }

def Variable.unplaced (v : Variable) : Variable := { v with position := none }

def Global.unplaced (symbol : Global) : Global := { symbol with position := none }

def Function.unplaced (symbol : Function) : Function :=
  { symbol with position := none, locals := symbol.locals.map Variable.unplaced }

end Mapsmith.Script
