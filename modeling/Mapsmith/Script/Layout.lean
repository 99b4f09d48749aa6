import Mapsmith.Script.Basic

/-!
# Layout

`Script.text`, the text of a script: types, natives, one block of globals and the functions.
Where spaces go is settled by the kinds of the tokens, and each line is indented by the blocks
it is in. The text has no comments.
-/

namespace Mapsmith.Script

/-- A token to be written. A type in a declaration has a name after it. -/
structure Piece where
  token : Token
  beforeName : Bool

namespace Piece

def ofToken (token : Token) : Piece := ⟨token, false⟩

def keyword (word : Keyword) : Piece := ofToken (.keyword word)

def identifier (name : String) : Piece := ofToken (.identifier name)

def type (name : String) : Piece := ⟨⟨.ofWord name, name⟩, true⟩

def hasSpaceBefore (piece : Piece) : Bool :=
  match piece.token.kind with
  | .keyword .takes | .keyword .returns | .keyword .extendsWord | .keyword .thenWord
  | .operator .and | .operator .or | .assign => true
  | _ => false

def hasSpaceAfter (piece : Piece) : Bool :=
  piece.beforeName ||
    match piece.token.kind with
    | .keyword word =>
      [.constant, .native, .type, .array, .extendsWord, .function, .takes, .returns, .set, .call,
        .localWord, .exitwhen, .debug, .ifWord, .elseif, .elseWord, .returnWord].contains word
    | .operator .and | .operator .or | .operator .not | .assign | .delimiter .comma => true
    | _ => false

end Piece

/-! ## Lines -/

abbrev Line := List Piece

def Fragment.pieces (fragment : Fragment) : List Piece := fragment.map .ofToken

def Parameter.pieces (parameter : Parameter) : List Piece :=
  [.type parameter.type, .identifier parameter.id]

def Signature.takenPieces (signature : Signature) : List Piece :=
  if signature.takes.isEmpty then [.keyword .nothing]
  else [.ofToken (.delimiter .comma)].intercalate (signature.takes.map Parameter.pieces)

def Signature.pieces (signature : Signature) : List Piece :=
  [.identifier signature.id, .keyword .takes] ++ signature.takenPieces ++
    [.keyword .returns, (signature.returns.map Piece.identifier).getD (.keyword .nothing)]

def constantPieces (constant : Bool) : List Piece := if constant then [.keyword .constant] else []

def TypeSymbol.pieces (symbol : TypeSymbol) : List Piece :=
  [.keyword .type, .identifier symbol.id, .keyword .extendsWord, .identifier symbol.parent]

def Callable.pieces (word : Keyword) (symbol : Callable) : List Piece :=
  constantPieces symbol.constant ++ .keyword word :: symbol.signature.pieces

def Variable.pieces (v : Variable) : List Piece :=
  .type v.type :: ((if v.array then [.keyword .array] else []) ++
    .identifier v.id ::
      match v.initial with
      | none => []
      | some initial => .ofToken .assign :: initial.pieces)

def Global.pieces (symbol : Global) : List Piece :=
  constantPieces symbol.constant ++ symbol.toVariable.pieces

/-- What a function is written as, each part with a line break after it. -/
def Function.parts (symbol : Function) : List (List Piece) :=
  symbol.toCallable.pieces .function ::
    (symbol.locals.map (fun v => .keyword .localWord :: v.pieces) ++
      symbol.statements.map Fragment.pieces ++ [[.keyword .endfunction]])

/-- What a script is written as, each part with a line break after it. -/
def parts (script : Script) : List (List Piece) :=
  script.types.map TypeSymbol.pieces ++ script.natives.map (Callable.pieces .native) ++
    [.keyword .globals] :: (script.globals.map Global.pieces ++
      [.keyword .endglobals] :: script.functions.flatMap Function.parts)

/-- The lines of a part, between the line breaks in it. -/
def linesOf (part : List Piece) : List Line :=
  part.splitOnP fun piece => piece.token.kind = .newline

def lines (script : Script) : List Line := script.parts.flatMap linesOf

/-! ## Indentation -/

/-- The kind that tells whether a line opens or closes a block. -/
def leadingKind? (line : Line) : Option TokenKind :=
  (line.map fun piece => piece.token.kind).find? fun kind =>
    kind ≠ .keyword .constant ∧ kind ≠ .keyword .debug

/-- Whether a line ends the block before it. -/
def closesBlock (line : Line) : Bool :=
  match leadingKind? line with
  | some (.keyword word) =>
    [.endglobals, .endfunction, .endif, .endloop, .elseWord, .elseif].contains word
  | _ => false

/-- Whether the lines after a line are in a block of it. -/
def opensBlock (line : Line) : Bool :=
  match leadingKind? line with
  | some (.keyword word) =>
    [.globals, .function, .ifWord, .loop, .elseWord, .elseif].contains word
  | _ => false

/-- The blocks that a line is indented by, of those that are open before it. -/
def indentation (depth : Nat) (line : Line) : Nat :=
  if closesBlock line then depth - 1 else depth

/-- The blocks that are open after a line, of those that are open before it. -/
def depthAfter (depth : Nat) (line : Line) : Nat :=
  if opensBlock line then indentation depth line + 1 else indentation depth line

/-! ## Text -/

/-- Whether a space goes between two tokens of a line. -/
def spaced (left right : Piece) : Bool := left.hasSpaceAfter || right.hasSpaceBefore

def writeAfter (text : String) : Piece → Line → String
  | _, [] => text
  | left, right :: rest =>
    let text := if spaced left right then text ++ " " else text
    writeAfter (text ++ right.token.text) right rest

def writeLine (text : String) (depth : Nat) : Line → String
  | [] => text ++ "\n"
  | first :: rest =>
    let text := Nat.repeat (· ++ "    ") (indentation depth (first :: rest)) text
    writeAfter (text ++ first.token.text) first rest ++ "\n"

/-- Writes lines within the blocks that are open. -/
def writeLines (text : String) : Nat → List Line → String
  | _, [] => text
  | depth, line :: rest => writeLines (writeLine text depth line) (depthAfter depth line) rest

def text (script : Script) : String := writeLines "" 0 script.lines

end Mapsmith.Script
