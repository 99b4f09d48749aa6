import Mapsmith.Proofs.Outcome
import Mapsmith.Proofs.Script.Combinators
import Mapsmith.Proofs.Script.Levels

/-!
# What the parser has read

`spelled_of_program`: whatever a rule of the parser gives, the tokens that it has taken are
those of the tree, and the tree fits the levels that were left.
-/

namespace Mapsmith.Script

namespace Grammar

open Mapsmith.Script.Parser

-- ---------------------------------------------------------------------------
-- Expressions
-- ---------------------------------------------------------------------------

theorem gives_nested {deeper : Option α} {rule : α → Parser β}
    (h : ∀ inner ∈ deeper, (rule inner).Gives taken) : (nested deeper rule).Gives taken := by
  cases deeper with
  | none => exact gives_throw _
  | some inner => exact h inner rfl

theorem gives_identifier : identifier.Gives fun id tokens => tokens = [.identifier id] := by
  refine gives_accept _ fun token id _ hu => ?_
  unfold identifier? at hu
  split at hu
  · rename_i hk
    obtain ⟨kind, text⟩ := token
    cases hk
    cases hu
    rfl
  · cases hu

def GivesOperand (n : Nat) (p : Parser Operand) : Prop :=
  p.Gives fun e tokens => tokens = e.tokens ∧ e.Fits n

theorem gives_link (h : GivesOperand n p) : (link p).Gives fun link tokens =>
    tokens = .operator link.1 :: link.2.tokens ∧ link.2.Fits n := by
  have hop : (accept binaryOperator? .expression).Gives fun op tokens =>
      tokens = [.operator op] := by
    refine gives_accept _ fun token op hc hu => ?_
    unfold binaryOperator? at hu
    split at hu
    · rename_i found hk
      split at hu
      · cases hu
        rw [hc.eq (Token.fixed_operator found).canonical hk trivial]
      · cases hu
    · cases hu
  refine (hop.bind fun op => h.bind fun operand => gives_pure (op, operand)).imp ?_
  rintro _ _ ⟨op, _, _, rfl, ⟨operand, _, _, ⟨rfl, hfits⟩, ⟨rfl, rfl⟩, rfl⟩, rfl⟩
  exact ⟨by simp, hfits⟩

theorem gives_expressionWith (h : GivesOperand n p) :
    (expressionWith p).Gives fun e tokens => tokens = e.tokens ∧ e.Fits n := by
  refine (h.bind fun first => (Gives.many startsLink (gives_link h) nofun).bind fun rest =>
    gives_pure (Expression.chain first (.ofList rest))).imp ?_
  rintro _ _ ⟨first, _, _, ⟨rfl, hfirst⟩, ⟨rest, _, _, ⟨rfl, hrest⟩, ⟨rfl, rfl⟩, rfl⟩, rfl⟩
  refine ⟨?_, hfirst, ?_⟩
  · simp [Expression.tokens, Links.tokens_eq]
  · rw [Links.fits_iff, Links.toList_ofList]
    exact hrest

theorem gives_commaSeparated {item : Parser α} {tokens : α → List Token} {P : α → Prop}
    (h : item.Gives fun a taken => taken = tokens a ∧ P a) :
    (commaSeparated item).Gives fun items taken => ∃ first rest, items = first :: rest ∧
      taken = tokens first ++ (rest.flatMap fun a => .delimiter .comma :: tokens a) ∧
      ∀ a ∈ items, P a := by
  have hmore : (do let _ ← expect (.delimiter .comma); item : Parser α).Gives fun a taken =>
      taken = .delimiter .comma :: tokens a ∧ P a := by
    refine (Gives.after (.delimiter .comma) (by simp) fun _ => h).imp ?_
    rintro a _ ⟨_, ⟨rfl, hP⟩, rfl⟩
    exact ⟨rfl, hP⟩
  refine (h.bind fun first => (Gives.many _ hmore nofun).bind fun rest =>
    gives_pure (first :: rest)).imp ?_
  rintro _ _ ⟨first, _, _, ⟨rfl, hfirst⟩, ⟨rest, _, _, ⟨rfl, hrest⟩, ⟨rfl, rfl⟩, rfl⟩, rfl⟩
  exact ⟨first, rest, rfl, by simp, List.forall_mem_cons.mpr ⟨hfirst, hrest⟩⟩

def GivesDeeper (n : Nat) (deeper : Option (Parser Operand)) : Prop :=
  ∀ operand ∈ deeper, ∃ m, n = m + 1 ∧ GivesOperand m operand

theorem gives_nestedExpression (hd : GivesDeeper n deeper) : (nested deeper expressionWith).Gives
    fun e tokens => tokens = e.tokens ∧ ∃ m, n = m + 1 ∧ e.Fits m := by
  refine gives_nested fun operand ho => ?_
  obtain ⟨m, rfl, h⟩ := hd operand ho
  exact (gives_expressionWith h).imp fun e tokens ⟨htokens, hfits⟩ => ⟨htokens, m, rfl, hfits⟩

theorem gives_argumentsWith (hd : GivesDeeper n deeper) : (argumentsWith deeper).Gives
    fun arguments tokens => tokens = .delimiter .openParen :: (arguments.tokens ++
      [.delimiter .closeParen]) ∧ arguments.Fits n := by
  have hnone := Gives.after (.delimiter .closeParen) (by simp) fun _ => gives_pure Arguments.nil
  have hsome := (gives_commaSeparated (gives_nestedExpression hd)).bind fun items =>
    Gives.after (.delimiter .closeParen) (by simp) fun _ => gives_pure (Arguments.ofList items)
  refine (Gives.after (.delimiter .openParen) (by simp) fun _ => Gives.get fun _ =>
    Gives.ite hnone hsome).imp ?_
  rintro _ _
    ⟨_, ⟨_, ⟨rfl, rfl⟩, rfl⟩ | ⟨_, _, _, ⟨first, rest, rfl, rfl, hfits⟩, ⟨_, ⟨rfl, rfl⟩, rfl⟩, rfl⟩,
      rfl⟩
  · exact ⟨rfl, trivial⟩
  · refine ⟨by simp [Arguments.tokens, Arguments.ofList, Arguments.moreTokens_eq], ?_⟩
    rw [Arguments.fits_iff, Arguments.toList_ofList]
    exact hfits

theorem gives_reference (hd : GivesDeeper n deeper) (id : String) : (reference id deeper).Gives
    fun e tokens => .identifier id :: tokens = e.tokens ∧ e.Fits n := by
  refine Gives.peek fun kind => ?_
  split
  · refine ((gives_argumentsWith hd).bind fun arguments => gives_pure
      (Operand.call id arguments)).imp ?_
    rintro _ _ ⟨arguments, _, _, ⟨rfl, hfits⟩, ⟨rfl, rfl⟩, rfl⟩
    exact ⟨by simp [Operand.tokens], hfits⟩
  · refine (Gives.after (.delimiter .openBracket) (by simp) fun _ =>
      (gives_nestedExpression hd).bind fun index =>
        Gives.after (.delimiter .closeBracket) (by simp) fun _ =>
          gives_pure (Operand.element id index)).imp ?_
    rintro _ _ ⟨_, ⟨index, _, _, ⟨rfl, hfits⟩, ⟨_, ⟨rfl, rfl⟩, rfl⟩, rfl⟩, rfl⟩
    exact ⟨rfl, hfits⟩
  · refine (gives_pure (Operand.name id)).imp ?_
    rintro _ _ ⟨rfl, rfl⟩
    exact ⟨rfl, trivial⟩

theorem gives_operandWith (hd : GivesDeeper n deeper) : GivesOperand n (operandWith deeper) := by
  refine Gives.peek fun kind => ?_
  split
  · rename_i op
    split
    · rename_i hunary
      refine gives_nested fun operand ho => ?_
      obtain ⟨m, rfl, h⟩ := hd operand ho
      refine (Gives.after (.operator op) (by simp) fun _ => h.bind fun inner =>
        gives_pure (Operand.unary ⟨op, hunary⟩ inner)).imp ?_
      rintro _ _ ⟨_, ⟨inner, _, _, ⟨rfl, hfits⟩, ⟨rfl, rfl⟩, rfl⟩, rfl⟩
      exact ⟨by simp [Operand.tokens], m, rfl, hfits⟩
    · exact (gives_unexpected _).imp fun _ _ => False.elim
  · refine (gives_identifier.bind fun id => gives_reference hd id).imp ?_
    rintro e _ ⟨id, _, _, rfl, ⟨htokens, hfits⟩, rfl⟩
    exact ⟨htokens, hfits⟩
  · refine (Gives.after (.keyword .function) (by simp) fun _ => gives_identifier.bind fun id =>
      gives_pure (Operand.function id)).imp ?_
    rintro _ _ ⟨_, ⟨id, _, _, rfl, ⟨rfl, rfl⟩, rfl⟩, rfl⟩
    exact ⟨rfl, trivial⟩
  · refine (Gives.after (.delimiter .openParen) (by simp) fun _ =>
      (gives_nestedExpression hd).bind fun inner =>
        Gives.after (.delimiter .closeParen) (by simp) fun _ =>
          gives_pure (Operand.parens inner)).imp ?_
    rintro _ _ ⟨_, ⟨inner, _, _, ⟨rfl, hfits⟩, ⟨_, ⟨rfl, rfl⟩, rfl⟩, rfl⟩, rfl⟩
    exact ⟨rfl, hfits⟩
  · refine gives_accept _ fun token e _ hu => ?_
    unfold literal? at hu
    split at hu
    · rename_i kind hk
      obtain ⟨_, text⟩ := token
      cases hk
      cases hu
      exact ⟨rfl, trivial⟩
    · cases hu

theorem gives_operand (n : Nat) : GivesOperand n (operand n) := by
  induction n with
  | zero => exact gives_operandWith nofun
  | succ n ih =>
    refine gives_operandWith ?_
    rintro _ ⟨⟩
    exact ⟨n, rfl, ih⟩

theorem gives_deeperOperand (n : Nat) : GivesDeeper n (deeperOperand n) := by
  cases n with
  | zero => exact nofun
  | succ n =>
    rintro _ ⟨⟩
    exact ⟨n, rfl, gives_operand n⟩

theorem gives_expression (n : Nat) :
    (expression n).Gives fun e tokens => tokens = e.tokens ∧ e.Fits n :=
  gives_expressionWith (gives_operand n)

-- ---------------------------------------------------------------------------
-- Statements
-- ---------------------------------------------------------------------------

def GivesStatement (n : Nat) (inLoop : Bool) (p : Parser Statement) : Prop :=
  p.Gives fun statement tokens => tokens = statement.tokens ∧ statement.Fits n inLoop

theorem gives_blockWith (h : GivesStatement n inLoop p) :
    (blockWith p).Gives fun block tokens => tokens = block.tokens ∧ block.Fits n inLoop := by
  have hline :
      (do let statement ← p; let _ ← expect .newline; return statement : Parser Statement).Gives
      fun statement tokens => tokens = statement.tokens ++ [.newline] ∧
        statement.Fits n inLoop := by
    refine (h.bind fun statement => Gives.after .newline
      (by simp) fun _ => gives_pure statement).imp ?_
    rintro _ _ ⟨statement, _, _, ⟨rfl, hfits⟩, ⟨_, ⟨rfl, rfl⟩, rfl⟩, rfl⟩
    exact ⟨rfl, hfits⟩
  refine ((Gives.many startsStatement hline (by simp)).bind fun statements =>
    gives_pure (Block.ofList statements)).imp ?_
  rintro _ _ ⟨statements, _, _, ⟨rfl, hfits⟩, ⟨rfl, rfl⟩, rfl⟩
  rw [Block.tokens_eq, Block.fits_iff, Block.toList_ofList]
  exact ⟨by simp, hfits⟩

theorem gives_setIndex (n : Nat) : (setIndex n).Gives fun index tokens =>
    index = none ∧ tokens = [] ∨ ∃ i, index = some i ∧ i.Fits n ∧
      tokens = .delimiter .openBracket :: (i.tokens ++ [.delimiter .closeBracket]) := by
  refine Gives.imp (Gives.eat (.delimiter .openBracket) (by simp)
    (fun _ => (gives_expression n).bind fun index =>
      Gives.after (.delimiter .closeBracket) (by simp) fun _ => gives_pure (some index))
    (gives_pure none)) ?_
  rintro _ _ (⟨_, ⟨index, _, _, ⟨rfl, hfits⟩, ⟨_, ⟨rfl, rfl⟩, rfl⟩, rfl⟩, rfl⟩ | ⟨rfl, rfl⟩)
  · exact .inr ⟨index, rfl, hfits, rfl⟩
  · exact .inl ⟨rfl, rfl⟩

def GivesBody (n : Nat) (inLoop : Bool) (body : Option (Parser Block)) : Prop :=
  ∀ block ∈ body, block.Gives fun body tokens => tokens = body.tokens ∧ body.FitsBelow n inLoop

theorem gives_body (h : GivesBody n inLoop body) : (nested body id).Gives
    fun body tokens => tokens = body.tokens ∧ body.FitsBelow n inLoop := gives_nested h

theorem gives_guarded (h : GivesBody n inLoop body) : (guarded n body).Gives fun part tokens =>
    tokens = guardedTokens part ∧ part.1.Fits n ∧ part.2.FitsBelow n inLoop := by
  refine ((gives_expression n).bind fun condition => Gives.after (.keyword .thenWord) (by simp)
    fun _ => Gives.after .newline (by simp) fun _ => (gives_body h).bind fun body =>
      gives_pure (condition, body)).imp ?_
  rintro _ _ ⟨condition, _, _, ⟨rfl, hcondition⟩, ⟨_, ⟨_, ⟨body, _, _, ⟨rfl, hbody⟩, ⟨rfl, rfl⟩,
    rfl⟩, rfl⟩, rfl⟩, rfl⟩
  exact ⟨by simp [guardedTokens], hcondition, hbody⟩

theorem gives_actionWith (n : Nat) (inLoop : Bool)
    (hd : ∀ inLoop, GivesBody n inLoop (deeper.map (· inLoop))) :
    (actionWith n deeper inLoop).Gives fun action tokens =>
      tokens = action.tokens ∧ action.Fits n inLoop := by
  refine Gives.peek fun kind => ?_
  split
  · refine (Gives.after (.keyword .set) (by simp) fun _ => gives_identifier.bind fun id =>
      (gives_setIndex n).bind fun index => Gives.after .assign (by simp) fun _ =>
        (gives_expression n).bind fun value => gives_pure (Action.set id index value)).imp ?_
    rintro _ _
      ⟨_, ⟨id, _, _, rfl, ⟨index, _, _, hindex, ⟨_, ⟨value, _, _, ⟨rfl, hvalue⟩, ⟨rfl, rfl⟩,
        rfl⟩, rfl⟩, rfl⟩, rfl⟩, rfl⟩
    obtain ⟨rfl, rfl⟩ | ⟨i, rfl, hindex, rfl⟩ := hindex
    · exact ⟨by simp [Action.tokens], hvalue⟩
    · exact ⟨by simp [Action.tokens], hindex, hvalue⟩
  · refine (Gives.after (.keyword .call) (by simp) fun _ => gives_identifier.bind fun id =>
      (gives_argumentsWith (gives_deeperOperand n)).bind fun arguments =>
        gives_pure (Action.call id arguments)).imp ?_
    rintro _ _ ⟨_, ⟨id, _, _, rfl, ⟨arguments, _, _, ⟨rfl, hfits⟩, ⟨rfl, rfl⟩, rfl⟩, rfl⟩, rfl⟩
    exact ⟨by simp [Action.tokens, Operand.tokens], hfits⟩
  · have hmore : (do let _ ← expect (.keyword .elseif); guarded n (deeper.map (· inLoop)) :
        Parser (Expression × Block)).Gives fun part tokens =>
          tokens = .keyword .elseif :: guardedTokens part ∧
            (part.1.Fits n ∧ part.2.FitsBelow n inLoop) := by
      refine (Gives.after (.keyword .elseif) (by simp) fun _ => gives_guarded (hd inLoop)).imp ?_
      rintro _ _ ⟨_, ⟨rfl, hfits⟩, rfl⟩
      exact ⟨rfl, hfits⟩
    have hend (part : Expression × Block) (rest : List (Expression × Block))
        (last : Option Block) :=
      Gives.after (.keyword .endif) (by simp) fun _ =>
        gives_pure (Action.branch part.1 part.2 (.ofList last rest))
    refine Gives.imp (Gives.after (.keyword .ifWord) (by simp) fun _ =>
      (gives_guarded (hd inLoop)).bind fun part =>
        (Gives.many (isAt (.keyword .elseif)) hmore fun _ => List.cons_ne_nil _ _).bind fun rest =>
          Gives.eat (.keyword .elseWord) (by simp)
            (fun _ => Gives.after .newline (by simp) fun _ =>
              ((gives_body (hd inLoop)).map some).bind (hend part rest))
            ((gives_pure none).bind (hend part rest))) ?_
    rintro _ _ ⟨_, ⟨part, _, _, ⟨rfl, hpart⟩, ⟨rest, _, _, ⟨rfl, hrest⟩, hlast, rfl⟩, rfl⟩, rfl⟩
    obtain ⟨_, ⟨_, ⟨_, _, _, ⟨body, ⟨rfl, hbody⟩, rfl⟩, ⟨_, ⟨rfl, rfl⟩, rfl⟩, rfl⟩, rfl⟩, rfl⟩ |
      ⟨_, _, _, ⟨rfl, rfl⟩, ⟨_, ⟨rfl, rfl⟩, rfl⟩, rfl⟩ := hlast
    · refine ⟨?_, hpart.1, hpart.2, (Alternative.fits_iff _).mpr ⟨?_, ?_⟩⟩
      · simp [Action.tokens, Alternative.tokens_eq, guardedTokens, otherwiseTokens]
      · simpa using hrest
      · simpa using hbody
    · refine ⟨?_, hpart.1, hpart.2, (Alternative.fits_iff _).mpr ⟨?_, ?_⟩⟩
      · simp [Action.tokens, Alternative.tokens_eq, guardedTokens, otherwiseTokens]
      · simpa using hrest
      · simp
  · refine (Gives.after (.keyword .loop) (by simp) fun _ => Gives.after .newline (by simp) fun _ =>
      (gives_body (hd true)).bind fun body => Gives.after (.keyword .endloop) (by simp) fun _ =>
        gives_pure (Action.loop body)).imp ?_
    rintro _ _ ⟨_, ⟨_, ⟨body, _, _, ⟨rfl, hfits⟩, ⟨_, ⟨rfl, rfl⟩, rfl⟩, rfl⟩, rfl⟩, rfl⟩
    exact ⟨rfl, hfits⟩
  · exact (gives_unexpected _).imp fun _ _ => False.elim

theorem gives_returnValue (n : Nat) : (returnValue n).Gives fun value tokens =>
    value = none ∧ tokens = [] ∨ ∃ e, value = some e ∧ e.Fits n ∧ tokens = e.tokens := by
  have hvalue : (do return some (← expression n) : Parser (Option Expression)).Gives
      fun value tokens => value = none ∧ tokens = [] ∨
        ∃ e, value = some e ∧ e.Fits n ∧ tokens = e.tokens := by
    refine ((gives_expression n).bind fun e => gives_pure (some e)).imp ?_
    rintro _ _ ⟨e, _, _, ⟨rfl, hfits⟩, ⟨rfl, rfl⟩, rfl⟩
    exact .inr ⟨e, rfl, hfits, by simp⟩
  refine Gives.peek fun kind => ?_
  split
  · exact (gives_pure none).imp fun _ _ => .inl
  · exact (gives_pure none).imp fun _ _ => .inl
  · exact hvalue

theorem gives_statementWith (n : Nat) (inLoop : Bool)
    (hd : ∀ inLoop, GivesBody n inLoop (deeper.map (· inLoop))) :
    GivesStatement n inLoop (statementWith n deeper inLoop) := by
  refine Gives.peek fun kind => ?_
  split
  · split
    · rename_i hloop
      refine (Gives.after (.keyword .exitwhen) (by simp) fun _ => (gives_expression n).bind
        fun condition => gives_pure (Statement.exitwhen condition)).imp ?_
      rintro _ _ ⟨_, ⟨condition, _, _, ⟨rfl, hfits⟩, ⟨rfl, rfl⟩, rfl⟩, rfl⟩
      exact ⟨by simp [Statement.tokens], hloop, hfits⟩
    · exact gives_throw _
  · refine (Gives.after (.keyword .returnWord) (by simp) fun _ => (gives_returnValue n).bind
      fun value => gives_pure (Statement.returns value)).imp ?_
    rintro _ _ ⟨_, ⟨value, _, _, ⟨rfl, rfl⟩ | ⟨e, rfl, hfits, rfl⟩, ⟨rfl, rfl⟩, rfl⟩, rfl⟩
    · exact ⟨rfl, trivial⟩
    · exact ⟨by simp [Statement.tokens], hfits⟩
  · refine Gives.imp (Gives.after (.keyword .debug) (by simp) fun _ => Gives.get fun _ =>
      Gives.ite ((gives_actionWith n inLoop hd).bind fun action =>
        gives_pure (Statement.debug action)) (gives_unexpected .debugged)) ?_
    rintro _ _ ⟨_, ⟨action, _, _, ⟨rfl, hfits⟩, ⟨rfl, rfl⟩, rfl⟩ | ⟨⟨⟩⟩, rfl⟩
    exact ⟨by simp [Statement.tokens], hfits⟩
  · refine ((gives_actionWith n inLoop hd).bind fun action =>
      gives_pure (Statement.action action)).imp ?_
    rintro _ _ ⟨action, _, _, ⟨rfl, hfits⟩, ⟨rfl, rfl⟩, rfl⟩
    exact ⟨by simp [Statement.tokens], hfits⟩

theorem gives_statement (n : Nat) (inLoop : Bool) :
    GivesStatement n inLoop (statement n inLoop) := by
  induction n generalizing inLoop with
  | zero => exact gives_statementWith 0 inLoop nofun
  | succ n ih =>
    refine gives_statementWith (n + 1) inLoop fun inLoop => ?_
    rintro _ ⟨⟩
    exact (gives_blockWith (ih inLoop)).imp fun body tokens ⟨htokens, hfits⟩ =>
      ⟨htokens, n, rfl, hfits⟩

-- ---------------------------------------------------------------------------
-- Declarations
-- ---------------------------------------------------------------------------

theorem typeName_eq {token : Token} (hc : token.Canonical)
    (hk : token.kind = .identifier ∨ token.kind.isBuiltinType = true) :
    Token.typeName token.text = token := by
  obtain ⟨kind, text⟩ := token
  cases kind with
  | identifier =>
    have htext : TokenKind.ofWord? text = none := hc
    rw [Token.typeName, htext]
    rfl
  | builtin type =>
    have htext : text = type.name := hc
    subst htext
    cases type <;> rfl
  | _ => simp [TokenKind.isBuiltinType] at hk

theorem gives_typeName : typeName.Gives fun type tokens => tokens = [.typeName type] := by
  refine gives_accept _ fun token type hc hu => ?_
  unfold typeName? at hu
  split at hu
  · rename_i hk
    cases hu
    rw [typeName_eq hc hk]
  · cases hu

theorem gives_parentType : (accept parentType? .parentType).Gives fun parent tokens =>
    tokens = [.typeName parent] ∧ ((Token.typeName parent).kind = .identifier ∨
      (Token.typeName parent).kind = .builtin .handle) := by
  refine gives_accept _ fun token parent hc hu => ?_
  unfold parentType? at hu
  split at hu
  · rename_i hk
    cases hu
    rw [typeName_eq hc (hk.imp_right fun h => by rw [h]; rfl)]
    exact ⟨rfl, hk⟩
  · cases hu

theorem gives_parameter : parameter.Gives fun parameter tokens => tokens = parameter.tokens := by
  refine (gives_typeName.bind fun type => gives_identifier.bind fun id =>
    gives_pure (⟨type, id⟩ : Parameter)).imp ?_
  rintro _ _ ⟨type, _, _, rfl, ⟨id, _, _, rfl, ⟨rfl, rfl⟩, rfl⟩, rfl⟩
  rfl

theorem gives_parameters : parameters.Gives fun takes tokens => tokens = takenTokens takes := by
  refine Gives.imp (Gives.eat (.keyword .nothing) (by simp) (fun _ => gives_pure [])
    (gives_commaSeparated (P := fun _ => True) (gives_parameter.imp fun _ _ h => ⟨h, trivial⟩))) ?_
  rintro _ _ (⟨_, ⟨rfl, rfl⟩, rfl⟩ | ⟨first, rest, rfl, rfl, -⟩) <;> rfl

theorem gives_returnType : returnType.Gives fun returns tokens =>
    tokens = [returnedToken returns] := by
  refine Gives.imp (Gives.eat (.keyword .nothing) (by simp) (fun _ => gives_pure none)
    (gives_typeName.bind fun type => gives_pure (some type))) ?_
  rintro _ _ (⟨_, ⟨rfl, rfl⟩, rfl⟩ | ⟨type, _, _, rfl, ⟨rfl, rfl⟩, rfl⟩) <;> rfl

theorem gives_signature : signature.Gives fun signature tokens => tokens = signature.tokens := by
  refine (gives_identifier.bind fun id => Gives.after (.keyword .takes) (by simp) fun _ =>
    gives_parameters.bind fun takes => Gives.after (.keyword .returns) (by simp) fun _ =>
      gives_returnType.bind fun returns => gives_pure (⟨id, takes, returns⟩ : Signature)).imp ?_
  rintro _ _ ⟨id, _, _, rfl, ⟨_, ⟨takes, _, _, rfl, ⟨_, ⟨returns, _, _, rfl, ⟨rfl, rfl⟩, rfl⟩,
    rfl⟩, rfl⟩, rfl⟩, rfl⟩
  rfl

theorem gives_variableRest (start : Position) (type : String) : (variableRest start type).Gives
    fun declared tokens => .typeName type :: tokens = declared.tokens ∧
      declared.Fits maxLevels := by
  refine Gives.imp (Gives.eat (.keyword .array) (by simp) (fun _ => gives_identifier.bind fun id =>
      gives_pure (⟨start, type, id, .array⟩ : VariableDeclaration))
    (gives_identifier.bind fun id => Gives.eat .assign (by simp)
      (fun _ => (gives_expression maxLevels).bind fun value =>
        gives_pure (⟨start, type, id, .value value⟩ : VariableDeclaration))
      (gives_pure (⟨start, type, id, .unset⟩ : VariableDeclaration)))) ?_
  rintro _ _ (⟨_, ⟨id, _, _, rfl, ⟨rfl, rfl⟩, rfl⟩, rfl⟩ | ⟨id, _, _, rfl,
    ⟨_, ⟨value, _, _, ⟨rfl, hfits⟩, ⟨rfl, rfl⟩, rfl⟩, rfl⟩ | ⟨rfl, rfl⟩, rfl⟩)
  · exact ⟨rfl, nofun⟩
  · refine ⟨by simp [VariableDeclaration.tokens], ?_⟩
    rintro _ ⟨⟩
    exact hfits
  · exact ⟨rfl, nofun⟩

theorem gives_globalVariable : globalVariable.Gives fun member tokens =>
    tokens = member.tokens ∧ member.Fits maxLevels := by
  refine Gives.imp (Gives.eat (.keyword .constant) (by simp)
    (fun start => gives_typeName.bind fun type => gives_identifier.bind fun id =>
      Gives.after .assign (by simp) fun _ => (gives_expression maxLevels).bind fun value =>
        gives_placed (fun start => GlobalDeclaration.constant start type id value) start)
    (Gives.position fun start => gives_typeName.bind fun type =>
      (gives_variableRest start type).bind fun declared =>
        gives_pure (GlobalDeclaration.plain declared))) ?_
  rintro _ _ (⟨_, ⟨type, _, _, rfl, ⟨id, _, _, rfl, ⟨_, ⟨value, _, _, ⟨rfl, hfits⟩, ⟨⟨start, rfl⟩,
    rfl⟩, rfl⟩, rfl⟩, rfl⟩, rfl⟩, rfl⟩ | ⟨type, _, _, rfl, ⟨declared, _, _, ⟨htokens, hfits⟩, ⟨rfl,
      rfl⟩, rfl⟩, rfl⟩)
  · exact ⟨by simp [GlobalDeclaration.tokens], hfits⟩
  · exact ⟨by simpa [GlobalDeclaration.tokens] using htokens, hfits⟩

theorem gives_typeDeclaration : typeDeclaration.Gives fun declaration tokens =>
    tokens = declaration.tokens ∧ declaration.Fits maxLevels := by
  refine (Gives.after (.keyword .type) (by simp) fun start => gives_identifier.bind fun id =>
    Gives.after (.keyword .extendsWord) (by simp) fun _ => gives_parentType.bind fun parent =>
      gives_placed (fun start => Declaration.type start id parent) start).imp ?_
  rintro _ _
    ⟨_, ⟨id, _, _, rfl, ⟨_, ⟨parent, _, _, ⟨rfl, hparent⟩, ⟨⟨start, rfl⟩, rfl⟩, rfl⟩, rfl⟩, rfl⟩,
      rfl⟩
  exact ⟨rfl, hparent⟩

theorem gives_constant {f : Option Position → Parser α}
    {taken : Option Position → α → List Token → Prop}
    (h : ∀ constant, (f constant).Gives (taken constant)) :
    (eat? (.keyword .constant) >>= f).Gives fun a tokens =>
      ∃ constant others, taken constant a others ∧ tokens = constantTokens constant ++ others := by
  have hsome (start : Position) : (f (some start)).Gives fun a tokens =>
      ∃ start, taken (some start) a tokens :=
    (h (some start)).imp fun _ _ htaken => ⟨start, htaken⟩
  refine Gives.imp (Gives.eat (.keyword .constant) (by simp) hsome (h none)) ?_
  rintro a _ (⟨others, ⟨start, htaken⟩, rfl⟩ | htaken)
  · exact ⟨some start, others, htaken, rfl⟩
  · exact ⟨none, _, htaken, rfl⟩

theorem gives_native : native.Gives fun declaration tokens =>
    tokens = declaration.tokens ∧ declaration.Fits maxLevels := by
  refine (gives_constant fun constant => Gives.after (.keyword .native) (by simp) fun start =>
    gives_signature.bind fun signature =>
      gives_placed (fun start => Declaration.native constant start signature) start).imp ?_
  rintro _ _ ⟨constant, _, ⟨_, ⟨signature, _, _, rfl, ⟨⟨start, rfl⟩, rfl⟩, rfl⟩, rfl⟩, rfl⟩
  exact ⟨by simp [Declaration.tokens], trivial⟩

theorem gives_globals : globals.Gives fun declaration tokens =>
    tokens = declaration.tokens ∧ declaration.Fits maxLevels := by
  have hmember : (do let declared ← globalVariable; let _ ← expect .newline; return declared :
      Parser GlobalDeclaration).Gives fun member tokens =>
        tokens = member.tokens ++ [.newline] ∧ member.Fits maxLevels := by
    refine (gives_globalVariable.bind fun declared => Gives.after .newline (by simp) fun _ =>
      gives_pure declared).imp ?_
    rintro _ _ ⟨declared, _, _, ⟨rfl, hfits⟩, ⟨_, ⟨rfl, rfl⟩, rfl⟩, rfl⟩
    exact ⟨rfl, hfits⟩
  refine (Gives.after (.keyword .globals) (by simp) fun start => Gives.after .newline (by simp)
    fun _ => (Gives.many _ hmember (by simp)).bind fun members =>
      Gives.after (.keyword .endglobals) (by simp) fun _ =>
        gives_placed (fun start => Declaration.globals start members) start).imp ?_
  rintro _ _ ⟨_, ⟨_, ⟨members, _, _, ⟨rfl, hfits⟩, ⟨_, ⟨⟨start, rfl⟩, rfl⟩, rfl⟩, rfl⟩, rfl⟩, rfl⟩
  exact ⟨rfl, hfits⟩

theorem gives_localVariable : localVariable.Gives fun declared tokens =>
    tokens = .keyword .localWord :: (declared.tokens ++ [.newline]) ∧ declared.Fits maxLevels := by
  refine (Gives.after (.keyword .localWord) (by simp) fun start => gives_typeName.bind fun type =>
    (gives_variableRest start type).bind fun declared => Gives.after .newline (by simp) fun _ =>
      gives_pure declared).imp ?_
  rintro _ _
    ⟨_, ⟨type, _, _, rfl, ⟨declared, _, _, ⟨htokens, hfits⟩, ⟨_, ⟨rfl, rfl⟩, rfl⟩, rfl⟩, rfl⟩,
      rfl⟩
  exact ⟨by simp [← htokens], hfits⟩

theorem gives_function : function.Gives fun declaration tokens =>
    tokens = declaration.tokens ∧ declaration.Fits maxLevels := by
  have hpure (constant : Option Position) (signature : Signature)
      (locals : List VariableDeclaration) (body : Block) (start finish : Position) :
      (pure ⟨constant, start, signature, locals, body, finish⟩ : Parser FunctionDeclaration).Gives
        fun declaration tokens => (∃ start finish, declaration =
          ⟨constant, start, signature, locals, body, finish⟩) ∧ tokens = [] :=
    (gives_pure _).imp fun _ _ ⟨heq, htokens⟩ => ⟨⟨start, finish, heq⟩, htokens⟩
  refine (gives_constant fun constant => Gives.after (.keyword .function) (by simp) fun start =>
    gives_signature.bind fun signature => Gives.after .newline (by simp) fun _ =>
      (Gives.many _ gives_localVariable nofun).bind fun locals =>
        (gives_blockWith (gives_statement maxLevels false)).bind fun body =>
          Gives.after (.keyword .endfunction) (by simp) fun finish =>
            hpure constant signature locals body start finish).imp ?_
  rintro _ _
    ⟨constant, _, ⟨_, ⟨signature, _, _, rfl, ⟨_, ⟨locals, _, _, ⟨rfl, hlocals⟩, ⟨body, _, _,
      ⟨rfl, hbody⟩, ⟨_, ⟨⟨start, finish, rfl⟩, rfl⟩, rfl⟩, rfl⟩, rfl⟩, rfl⟩, rfl⟩, rfl⟩, rfl⟩
  exact ⟨by simp [FunctionDeclaration.tokens], hlocals, hbody⟩

-- ---------------------------------------------------------------------------
-- Programs
-- ---------------------------------------------------------------------------

theorem endOfLine_iff : endOfLine ahead = .ok u rest ↔ ahead = [] ∧ rest = [] ∨
    ∃ lexeme, ahead = lexeme :: rest ∧ lexeme.token.kind = .newline := by
  unfold endOfLine
  rw [bind_iff]
  cases ahead with
  | nil =>
    constructor
    · rintro ⟨_, _, ⟨⟩, ⟨⟩⟩
      exact .inl ⟨rfl, rfl⟩
    · rintro (⟨-, rfl⟩ | ⟨_, ⟨⟩, _⟩)
      exact ⟨_, _, rfl, rfl⟩
  | cons lexeme others =>
    constructor
    · rintro ⟨_, _, ⟨⟩, h⟩
      obtain ⟨_, _, hexpect, hp⟩ := bind_iff.mp h
      obtain ⟨-, rfl⟩ := pure_iff.mp hp
      obtain ⟨_, heq, hk, -⟩ := expect_iff.mp hexpect
      exact .inr ⟨_, heq, hk⟩
    · rintro (⟨⟨⟩, _⟩ | ⟨_, ⟨⟩, hk⟩)
      exact ⟨_, _, rfl, bind_iff.mpr ⟨_, _, expect_iff.mpr ⟨_, rfl, hk, rfl⟩, rfl⟩⟩

/-- The parser of an item takes the line break after it, or the item is the last. -/
def GivesLine (p : Parser α) (tokens : α → List Token) (P : α → Prop) : Prop :=
  ∀ ahead a rest, Canonical ahead → p ahead = .ok a rest →
    P a ∧ (Ahead (tokens a ++ [.newline]) ahead rest ∨ Ahead (tokens a) ahead [] ∧ rest = [])

theorem givesLine_bind {p : Parser α} (h : p.Gives fun a taken => taken = tokens a ∧ P a) :
    GivesLine (do let a ← p; endOfLine; return a) tokens P := by
  intro ahead a rest hc hp
  obtain ⟨a, middle, ha, hp⟩ := bind_iff.mp hp
  obtain ⟨_, _, hend, hp⟩ := bind_iff.mp hp
  obtain ⟨rfl, rfl⟩ := pure_iff.mp hp
  obtain ⟨_, hahead, rfl, hP⟩ := h _ _ _ hc ha
  refine ⟨hP, ?_⟩
  obtain ⟨rfl, rfl⟩ | ⟨lexeme, rfl, hk⟩ := endOfLine_iff.mp hend
  · exact .inr ⟨hahead, rfl⟩
  · have hline := hahead.canonical hc lexeme List.mem_cons_self
    refine .inl (ahead_append.mpr ⟨_, hahead, lexeme, _, rfl, ?_, rfl⟩)
    exact hline.eq Token.fixed_newline.canonical hk trivial

/-- An item before others that have been read. Only the last item may lack its line
break. -/
theorem lines_cons {others : List Token → Prop}
    (h : Ahead (tokens a ++ [.newline]) ahead middle ∨ Ahead (tokens a) ahead [] ∧ middle = [])
    (hrest : Lines tokens others items (middle.map Lexeme.token))
    (hend : middle = [] → items = []) :
    Lines tokens others (a :: items) (ahead.map Lexeme.token) := by
  obtain hahead | ⟨hahead, rfl⟩ := h
  · obtain ⟨taken, rfl, htaken⟩ := ahead_iff.mp hahead
    rw [List.map_append, htaken, List.append_assoc]
    exact .cons hrest
  · obtain ⟨taken, rfl, htaken⟩ := ahead_iff.mp hahead
    cases hend rfl
    cases hrest with
    | nil hothers =>
      rw [List.append_nil, htaken]
      exact .last hothers

theorem GivesLine.shrinks {p : Parser α} (h : GivesLine p tokens P) (hne : ∀ a, tokens a ≠ [])
    (hc : Canonical ahead) (ha : p ahead = .ok a rest) :
    Canonical rest ∧ rest.length < ahead.length := by
  obtain ⟨token, others, heq⟩ := List.exists_cons_of_ne_nil (hne a)
  obtain ⟨-, hahead | ⟨hahead, rfl⟩⟩ := h _ _ _ hc ha
  · exact ⟨hahead.canonical hc, Ahead.length_lt (heq ▸ hahead)⟩
  · exact ⟨nofun, Ahead.length_lt (heq ▸ hahead)⟩

theorem GivesLine.canonical {item : Parser α} (h : GivesLine item tokens P)
    (hne : ∀ a, tokens a ≠ []) (hc : Canonical ahead)
    (hrepeats : Repeats continues item ahead items rest) : Canonical rest := by
  induction hrepeats with
  | done => exact hc
  | more _ ha _ _ ih => exact ih (h.shrinks hne hc ha).1

theorem GivesLine.lines {item : Parser α} (h : GivesLine item tokens P)
    (hne : ∀ a, tokens a ≠ []) (hc : Canonical ahead)
    (hrepeats : Repeats continues item ahead items rest) (others : List Token → Prop)
    (hothers : others (rest.map Lexeme.token)) :
    Lines tokens others items (ahead.map Lexeme.token) ∧ ∀ a ∈ items, P a := by
  induction hrepeats with
  | done => exact ⟨.nil hothers, by simp⟩
  | more _ ha _ hrest ih =>
    obtain ⟨hlines, hPs⟩ := ih (h.shrinks hne hc ha).1 hothers
    obtain ⟨hP, hahead⟩ := h _ _ _ hc ha
    exact ⟨lines_cons hahead hlines (fun heq => (heq ▸ hrest).eq_nil),
      List.forall_mem_cons.mpr ⟨hP, hPs⟩⟩

theorem givesLine_declaration : GivesLine declaration Declaration.tokens
    (Declaration.Fits maxLevels) := by
  intro ahead a rest hc hp
  obtain ⟨kind, _, hpeek, hp⟩ := bind_iff.mp hp
  obtain ⟨-, rfl⟩ := peek_iff.mp hpeek
  split at hp
  · exact givesLine_bind gives_typeDeclaration _ _ _ hc hp
  · exact givesLine_bind gives_globals _ _ _ hc hp
  · exact givesLine_bind gives_native _ _ _ hc hp

theorem givesLine_functionOr (expected : Expected) :
    GivesLine (functionOr expected) FunctionDeclaration.tokens
      (FunctionDeclaration.Fits maxLevels) := by
  intro ahead a rest hc hp
  obtain ⟨_, _, ⟨⟩, hp⟩ := bind_iff.mp hp
  split at hp
  · exact givesLine_bind gives_function _ _ _ hc hp
  · exact (unexpected_iff.mp hp).elim

theorem tokens_declaration_ne_nil (declaration : Declaration) : declaration.tokens ≠ [] := by
  cases declaration <;> simp [Declaration.tokens]

theorem tokens_function_ne_nil (declaration : FunctionDeclaration) : declaration.tokens ≠ [] := by
  simp [FunctionDeclaration.tokens]

theorem lines_of_functions (hc : Canonical ahead) (hp : functions ahead = .ok parsed rest) :
    Lines FunctionDeclaration.tokens (· = []) parsed (ahead.map Lexeme.token) ∧
      (∀ function ∈ parsed, function.Fits maxLevels) ∧ rest = [] := by
  obtain ⟨_, _, hget, hp⟩ := bind_iff.mp hp
  obtain ⟨rfl, rfl⟩ := get_iff.mp hget
  split at hp
  · rename_i hempty
    obtain ⟨rfl, rfl⟩ := pure_iff.mp hp
    cases List.isEmpty_iff.mp hempty
    exact ⟨.nil rfl, by simp, rfl⟩
  · obtain ⟨first, middle, hfirst, hp⟩ := bind_iff.mp hp
    obtain ⟨others, _, hothers, hp⟩ := bind_iff.mp hp
    obtain ⟨rfl, rfl⟩ := pure_iff.mp hp
    obtain ⟨hP, hahead⟩ := givesLine_functionOr _ _ _ _ hc hfirst
    have hmiddle := ((givesLine_functionOr _).shrinks tokens_function_ne_nil hc hfirst).1
    have hrepeats := repeats_of_many
      (fun _ _ _ => (givesLine_functionOr _).shrinks tokens_function_ne_nil) hmiddle hothers
    have hrest := hrepeats.stops
    simp only [Bool.not_eq_false', List.isEmpty_iff] at hrest
    subst hrest
    obtain ⟨hlines, hPs⟩ :=
      (givesLine_functionOr _).lines tokens_function_ne_nil hmiddle hrepeats (· = []) rfl
    exact ⟨lines_cons hahead hlines (fun heq => (heq ▸ hrepeats).eq_nil),
      List.forall_mem_cons.mpr ⟨hP, hPs⟩, rfl⟩

/-- What the parser of programs has read: a line break, which may be left out, and the
program. -/
theorem spelled_of_program (hc : Canonical ahead) (hp : program ahead = .ok parsed rest) :
    rest = [] ∧ parsed.Fits maxLevels ∧ (parsed.Spelled (ahead.map Lexeme.token) ∨
      ∃ tokens, ahead.map Lexeme.token = .newline :: tokens ∧ parsed.Spelled tokens) := by
  have hrest {ahead : List Lexeme} (hc : Canonical ahead)
      (hp : (do
        let declarations ← many startsDeclaration declaration
        return ⟨declarations, ← functions⟩ : Parser Program) ahead = .ok parsed rest) :
      rest = [] ∧ parsed.Fits maxLevels ∧ parsed.Spelled (ahead.map Lexeme.token) := by
    obtain ⟨declarations, middle, hdeclarations, hp⟩ := bind_iff.mp hp
    obtain ⟨functions, _, hfunctions, hp⟩ := bind_iff.mp hp
    obtain ⟨rfl, rfl⟩ := pure_iff.mp hp
    have hrepeats := repeats_of_many
      (fun _ _ _ => givesLine_declaration.shrinks tokens_declaration_ne_nil) hc hdeclarations
    have hmiddle := givesLine_declaration.canonical tokens_declaration_ne_nil hc hrepeats
    obtain ⟨hlines, hPs, rfl⟩ := lines_of_functions hmiddle hfunctions
    obtain ⟨hspelled, hfits⟩ :=
      givesLine_declaration.lines tokens_declaration_ne_nil hc hrepeats _ hlines
    exact ⟨rfl, ⟨hfits, hPs⟩, hspelled⟩
  obtain ⟨_, _, heat, hp'⟩ := bind_iff.mp hp
  obtain ⟨lexeme, rfl, hk, -⟩ | ⟨-, -, rfl⟩ := eat?_iff.mp heat
  · obtain ⟨hlexeme, hc⟩ := List.forall_mem_cons.mp hc
    obtain ⟨hend, hfits, hspelled⟩ := hrest hc hp'
    refine ⟨hend, hfits, .inr ⟨_, ?_, hspelled⟩⟩
    rw [List.map_cons, hlexeme.eq Token.fixed_newline.canonical hk trivial]
  · obtain ⟨hend, hfits, hspelled⟩ := hrest hc hp'
    exact ⟨hend, hfits, .inl hspelled⟩

end Grammar

theorem Program.ofText_ok : Program.ofText input = .ok parsed ↔
    ∃ all rest, lexemes input = .ok all ∧ Grammar.program all = .ok parsed rest := by
  rw [ofText, bind_ok]
  refine exists_congr fun all => ?_
  rw [exists_and_left]
  refine and_congr_right' ?_
  cases Grammar.program all with
  | error fault rest => simp
  | ok found rest =>
    simp only [EStateM.Result.ok.injEq, exists_eq_right']
    exact pure_ok.trans eq_comm

end Mapsmith.Script
