import Mapsmith.Script.Token

/-!
# The grammar as rules

What the kinds of the tokens of a script may be, by rules that say nothing of how
they are read. The rules that nest count levels: `Derives rule n kinds` says that the
kinds follow the rule with at most `n` levels open at once. A level is taken by the
body of an `if`, `elseif`, `else` or `loop`, by parentheses, by an argument of a
call, by the index of an element and by a unary operator.
-/

namespace Mapsmith.Script

-- ---------------------------------------------------------------------------
-- Expressions and statements
-- ---------------------------------------------------------------------------

/-- What the rules are about. Those of statements are told whether a loop of the
function is open. -/
inductive Rule where
  | expression
  /-- The operands after the first one, each after its operator. -/
  | links
  | operand
  | call
  | arguments
  /-- The arguments after the first one, each after a comma. -/
  | moreArguments
  | statement (inLoop : Bool)
  /-- What may stand after the word `debug`. -/
  | action (inLoop : Bool)
  | block (inLoop : Bool)
  /-- What comes after the first block of a branch, up to its end. -/
  | alternative (inLoop : Bool)

inductive Derives : Rule → Nat → List TokenKind → Prop
  | expression {n first rest} : Derives .operand n first → Derives .links n rest →
      Derives .expression n (first ++ rest)
  | noLinks {n} : Derives .links n []
  | links {n op operand rest} : op.isBinary = true → Derives .operand n operand →
      Derives .links n rest → Derives .links n (.operator op :: (operand ++ rest))
  | unary {n op operand} : op.isUnary = true → Derives .operand n operand →
      Derives .operand (n + 1) (.operator op :: operand)
  | literal {n kind} : Derives .operand n [.literal kind]
  | name {n} : Derives .operand n [.identifier]
  | called {n call} : Derives .call n call → Derives .operand n call
  | element {n index} : Derives .expression n index → Derives .operand (n + 1)
      (.identifier :: .delimiter .openBracket :: (index ++ [.delimiter .closeBracket]))
  | function {n} : Derives .operand n [.keyword .function, .identifier]
  | parens {n inner} : Derives .expression n inner → Derives .operand (n + 1)
      (.delimiter .openParen :: (inner ++ [.delimiter .closeParen]))
  | call {n arguments} : Derives .arguments n arguments → Derives .call n
      (.identifier :: .delimiter .openParen :: (arguments ++ [.delimiter .closeParen]))
  | noArguments {n} : Derives .arguments n []
  | arguments {n first rest} : Derives .expression n first → Derives .moreArguments (n + 1) rest →
      Derives .arguments (n + 1) (first ++ rest)
  | lastArgument {n} : Derives .moreArguments n []
  | moreArguments {n next rest} : Derives .expression n next →
      Derives .moreArguments (n + 1) rest →
      Derives .moreArguments (n + 1) (.delimiter .comma :: (next ++ rest))
  | action {n inLoop action} : Derives (.action inLoop) n action →
      Derives (.statement inLoop) n action
  | debug {n inLoop action} : Derives (.action inLoop) n action →
      Derives (.statement inLoop) n (.keyword .debug :: action)
  | exitwhen {n condition} : Derives .expression n condition →
      Derives (.statement true) n (.keyword .exitwhen :: condition)
  | returns {n inLoop} : Derives (.statement inLoop) n [.keyword .returnWord]
  | returnsValue {n inLoop value} : Derives .expression n value →
      Derives (.statement inLoop) n (.keyword .returnWord :: value)
  | set {n inLoop value} : Derives .expression n value →
      Derives (.action inLoop) n (.keyword .set :: .identifier :: .assign :: value)
  | setElement {n inLoop index value} : Derives .expression n index → Derives .expression n value →
      Derives (.action inLoop) n (.keyword .set :: .identifier :: .delimiter .openBracket ::
        (index ++ .delimiter .closeBracket :: .assign :: value))
  | callAction {n inLoop call} : Derives .call n call →
      Derives (.action inLoop) n (.keyword .call :: call)
  | branch {n inLoop condition body alternative} : Derives .expression (n + 1) condition →
      Derives (.block inLoop) n body → Derives (.alternative inLoop) (n + 1) alternative →
      Derives (.action inLoop) (n + 1)
        (.keyword .ifWord :: (condition ++ .keyword .thenWord :: .newline :: (body ++ alternative)))
  | loop {n inLoop body} : Derives (.block true) n body → Derives (.action inLoop) (n + 1)
      (.keyword .loop :: .newline :: (body ++ [.keyword .endloop]))
  | noStatements {n inLoop} : Derives (.block inLoop) n []
  | block {n inLoop statement rest} : Derives (.statement inLoop) n statement →
      Derives (.block inLoop) n rest → Derives (.block inLoop) n (statement ++ .newline :: rest)
  | nothing {n inLoop} : Derives (.alternative inLoop) n [.keyword .endif]
  | otherwise {n inLoop body} : Derives (.block inLoop) n body →
      Derives (.alternative inLoop) (n + 1)
        (.keyword .elseWord :: .newline :: (body ++ [.keyword .endif]))
  | elseif {n inLoop condition body alternative} : Derives .expression (n + 1) condition →
      Derives (.block inLoop) n body → Derives (.alternative inLoop) (n + 1) alternative →
      Derives (.alternative inLoop) (n + 1)
        (.keyword .elseif :: (condition ++ .keyword .thenWord :: .newline :: (body ++ alternative)))

-- ---------------------------------------------------------------------------
-- Declarations
-- ---------------------------------------------------------------------------

namespace Rule

inductive TypeName : TokenKind → Prop
  | builtin {type} : TypeName (.builtin type)
  | identifier : TypeName .identifier

inductive Parent : TokenKind → Prop
  | handle : Parent (.builtin .handle)
  | identifier : Parent .identifier

inductive Parameters : List TokenKind → Prop
  | last {type} : TypeName type → Parameters [type, .identifier]
  | more {type rest} : TypeName type → Parameters rest →
      Parameters (type :: .identifier :: .delimiter .comma :: rest)

inductive Taken : List TokenKind → Prop
  | nothing : Taken [.keyword .nothing]
  | parameters {kinds} : Parameters kinds → Taken kinds

inductive Returned : TokenKind → Prop
  | nothing : Returned (.keyword .nothing)
  | type {type} : TypeName type → Returned type

inductive Signature : List TokenKind → Prop
  | intro {taken returned} : Taken taken → Returned returned →
      Signature (.identifier :: .keyword .takes :: (taken ++ [.keyword .returns, returned]))

/-- A variable: an array has no value, and any other need not have one. -/
inductive Variable (n : Nat) : List TokenKind → Prop
  | array {type} : TypeName type → Variable n [type, .keyword .array, .identifier]
  | unset {type} : TypeName type → Variable n [type, .identifier]
  | value {type value} : TypeName type → Derives .expression n value →
      Variable n (type :: .identifier :: .assign :: value)

inductive Global (n : Nat) : List TokenKind → Prop
  | constant {type value} : TypeName type → Derives .expression n value →
      Global n (.keyword .constant :: type :: .identifier :: .assign :: value)
  | plain {kinds} : Variable n kinds → Global n kinds

inductive Globals (n : Nat) : List TokenKind → Prop
  | nil : Globals n []
  | cons {first rest} : Global n first → Globals n rest → Globals n (first ++ .newline :: rest)

inductive Declaration (n : Nat) : List TokenKind → Prop
  | type {parent} : Parent parent →
      Declaration n [.keyword .type, .identifier, .keyword .extendsWord, parent]
  | native {signature} : Signature signature → Declaration n (.keyword .native :: signature)
  | constantNative {signature} : Signature signature →
      Declaration n (.keyword .constant :: .keyword .native :: signature)
  | globals {members} : Globals n members →
      Declaration n (.keyword .globals :: .newline :: (members ++ [.keyword .endglobals]))

inductive Locals (n : Nat) : List TokenKind → Prop
  | nil : Locals n []
  | cons {first rest} : Variable n first → Locals n rest →
      Locals n (.keyword .localWord :: (first ++ .newline :: rest))

/-- A function, from its signature to its end. -/
inductive Body (n : Nat) : List TokenKind → Prop
  | intro {signature locals statements} : Signature signature → Locals n locals →
      Derives (.block false) n statements →
      Body n (.keyword .function ::
        (signature ++ .newline :: (locals ++ (statements ++ [.keyword .endfunction]))))

inductive Function (n : Nat) : List TokenKind → Prop
  | plain {body} : Body n body → Function n body
  | constant {body} : Body n body → Function n (.keyword .constant :: body)

-- ---------------------------------------------------------------------------
-- Programs
-- ---------------------------------------------------------------------------

inductive Functions (n : Nat) : List TokenKind → Prop
  | nil : Functions n []
  | last {function} : Function n function → Functions n function
  | cons {function rest} : Function n function → Functions n rest →
      Functions n (function ++ .newline :: rest)

/-- Declarations, each ended likewise, and then functions. -/
inductive Declarations (n : Nat) : List TokenKind → Prop
  | functions {kinds} : Functions n kinds → Declarations n kinds
  | last {declaration} : Declaration n declaration → Declarations n declaration
  | cons {declaration rest} : Declaration n declaration → Declarations n rest →
      Declarations n (declaration ++ .newline :: rest)

inductive Program (n : Nat) : List TokenKind → Prop
  | plain {kinds} : Declarations n kinds → Program n kinds
  | newline {kinds} : Declarations n kinds → Program n (.newline :: kinds)

end Rule

end Mapsmith.Script
