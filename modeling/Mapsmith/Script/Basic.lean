import Mapsmith.Script.Grammar
import Mapsmith.Script.Symbol

/-!
# Scripts

`Script.ofText`: a script by its symbols, each collection in the order of declaration. An
identifier is looked up among the types, the natives, the globals and the functions, in this
order. Two scripts are the same if they differ in positions only.
-/

namespace Mapsmith

structure Script where
  types : List Script.TypeSymbol
  natives : List Script.Callable
  globals : List Script.Global
  functions : List Script.Function
  deriving DecidableEq

namespace Script

def empty : Script := ⟨[], [], [], []⟩

def symbols (script : Script) : List Symbol :=
  script.types.map .type ++ script.natives.map .native ++ script.globals.map .global ++
    script.functions.map .function

def ids (script : Script) : List String := script.symbols.map Symbol.id

def find? (script : Script) (id : String) : Option Symbol :=
  script.symbols.find? fun symbol => symbol.id == id

def contains (script : Script) (id : String) : Bool := (script.find? id).isSome

def unplaced (script : Script) : Script where
  types := script.types.map TypeSymbol.unplaced
  natives := script.natives.map Callable.unplaced
  globals := script.globals.map Global.unplaced
  functions := script.functions.map Function.unplaced

/-- Equality of scripts that leaves positions aside. -/
def Same (a b : Script) : Prop := a.unplaced = b.unplaced

instance (a b : Script) : Decidable (a.Same b) := by
  unfold Same
  infer_instance

/-! ## The script of a tree -/

def VariableDeclaration.symbol (declared : VariableDeclaration) : Variable where
  type := declared.type
  id := declared.id
  array := match declared.initial with
    | .array => true
    | _ => false
  initial := match declared.initial with
    | .value expression => some expression.tokens
    | _ => none
  position := some declared.position

def GlobalDeclaration.symbol (declaration : GlobalDeclaration) : Global :=
  { declaration.declared.symbol with constant := declaration.isConstant }

def Declaration.type? : Declaration → Option TypeSymbol
  | .type position id parent => some ⟨id, parent, some position⟩
  | _ => none

def Declaration.native? : Declaration → Option Callable
  | .native constant position signature =>
    some ⟨signature, constant.isSome, some (constant.getD position)⟩
  | _ => none

def Declaration.declaredGlobals : Declaration → List Global
  | .globals _ members => members.map GlobalDeclaration.symbol
  | _ => []

def FunctionDeclaration.symbol (declaration : FunctionDeclaration) : Function where
  signature := declaration.signature
  constant := declaration.constant.isSome
  position := some (declaration.constant.getD declaration.position)
  locals := declaration.locals.map VariableDeclaration.symbol
  statements := declaration.body.toList.map Statement.tokens

def ofProgram (program : Program) : Script where
  types := program.declarations.filterMap Declaration.type?
  natives := program.declarations.filterMap Declaration.native?
  globals := program.declarations.flatMap Declaration.declaredGlobals
  functions := program.functions.map FunctionDeclaration.symbol

def ofText (text : String) : Except SyntaxError Script := return ofProgram (← Program.ofText text)

end Script

end Mapsmith
