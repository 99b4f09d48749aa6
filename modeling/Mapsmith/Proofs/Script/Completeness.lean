import Mapsmith.Proofs.Script.Soundness

/-!
# What the parser reads

`program_of_spelled`: each rule of the parser takes the tokens of any tree that fits the levels
left, if what is after them does not go on with the tree, and gives that tree again. Positions
are not in the tokens, so declarations come back up to their positions.
-/

namespace Mapsmith.Script

-- ---------------------------------------------------------------------------
-- First and next tokens
-- ---------------------------------------------------------------------------

namespace TokenKind

def endsOperand : TokenKind → Bool
  | .delimiter .openParen | .delimiter .openBracket => false
  | _ => true

def endsExpression (kind : TokenKind) : Bool := kind.endsOperand && !kind.isBinaryOperator

def startsExpression : TokenKind → Bool
  | .identifier | .literal _ | .keyword .function | .delimiter .openParen => true
  | .operator op => op.isUnary
  | _ => false

def startsAction : TokenKind → Bool
  | .keyword .set | .keyword .call | .keyword .ifWord | .keyword .loop => true
  | _ => false

def startsStatement : TokenKind → Bool
  | .keyword .exitwhen | .keyword .returnWord | .keyword .debug => true
  | kind => kind.startsAction

end TokenKind

theorem Operand.tokens_start (e : Operand) : ∃ token others, e.tokens = token :: others ∧
    token.kind.startsExpression = true := by
  cases e with
  | unary op operand => exact ⟨_, _, rfl, op.2⟩
  | _ => exact ⟨_, _, rfl, rfl⟩

theorem Expression.tokens_start : ∀ e : Expression, ∃ token others, e.tokens = token :: others ∧
    token.kind.startsExpression = true
  | .chain first rest => by
    obtain ⟨token, others, heq, hstarts⟩ := first.tokens_start
    exact ⟨token, others ++ rest.tokens, by rw [tokens, heq]; rfl, hstarts⟩

theorem Action.tokens_start (action : Action) : ∃ token others, action.tokens = token :: others ∧
    token.kind.startsAction = true := by
  cases action with
  | set id index value => cases index <;> exact ⟨_, _, rfl, rfl⟩
  | _ => exact ⟨_, _, rfl, rfl⟩

theorem Statement.tokens_start (statement : Statement) :
    ∃ token others, statement.tokens = token :: others ∧ token.kind.startsStatement = true := by
  cases statement with
  | action action =>
    obtain ⟨token, others, heq, hstarts⟩ := action.tokens_start
    refine ⟨token, others, heq, ?_⟩
    unfold TokenKind.startsStatement
    split
    · rfl
    · rfl
    · rfl
    · exact hstarts
  | returns value => cases value <;> exact ⟨_, _, rfl, rfl⟩
  | _ => exact ⟨_, _, rfl, rfl⟩

namespace Grammar

open Mapsmith.Script.Parser

theorem startsLink_eq_false (h : Before (fun kind => !kind.isBinaryOperator) ahead) :
    startsLink ahead = false := by
  cases ahead with
  | nil => rfl
  | cons lexeme others =>
    have hk := h lexeme.token.kind rfl
    simpa [startsLink] using hk

-- ---------------------------------------------------------------------------
-- Expressions
-- ---------------------------------------------------------------------------

theorem takes_identifier (id : String) : identifier.Takes (· = id) [.identifier id] stop :=
  takes_accept _ rfl rfl

def TakesOperand (n : Nat) (p : Parser Operand) : Prop :=
  ∀ e : Operand, e.Fits n → p.Takes (· = e) e.tokens (Before TokenKind.endsOperand)

theorem takes_link (h : TakesOperand n p) (op : BinaryOperator) {e : Operand} (he : e.Fits n) :
    (link p).Takes (· = (op, e)) (.operator op :: e.tokens) (Before TokenKind.endsOperand) := by
  have hop : (accept binaryOperator? .expression).Takes (· = op) [.operator op] fun _ => True := by
    refine takes_accept _ ?_ rfl
    obtain ⟨op, hop⟩ := op
    exact dif_pos hop
  exact hop.seq ((h e he).return _ fun _ heq => by rw [heq]) fun _ _ _ _ => trivial

theorem takes_expressionWith (h : TakesOperand n p) {e : Expression} (he : e.Fits n) :
    (expressionWith p).Takes (· = e) e.tokens (Before TokenKind.endsExpression) := by
  obtain ⟨first, rest⟩ := e
  obtain ⟨hfirst, hrest⟩ := he
  have hlinks : (many startsLink (link p)).Takes (· = rest.toList) rest.tokens
      (Before TokenKind.endsExpression) := by
    rw [Links.tokens_eq]
    refine (Takes.manyEq (fun link hl => takes_link h link.1 (rest.fits_iff.mp hrest link hl))
      fun link _ ahead others ha => ?_).weaken fun rest hs => ⟨hs.imp ?_,
        startsLink_eq_false (hs.imp ?_)⟩
    · obtain ⟨lexeme, others, rfl, hlexeme, -⟩ := id ha
      refine ⟨?_, ha.before rfl, ha.length_lt⟩
      simp only [startsLink, List.head?_cons, Option.any_some, hlexeme]
      exact link.1.2
    · simp +contextual [TokenKind.endsExpression]
    · simp +contextual [TokenKind.endsExpression]
  refine (h first hfirst).seq (hlinks.return _ fun _ heq => ?_) fun ahead others ha hs => ?_
  · rw [heq, Links.ofList_toList]
  · cases rest with
    | nil =>
      cases ahead_nil.mp ha
      exact hs.imp (by simp +contextual [TokenKind.endsExpression])
    | cons op operand rest => exact ha.before rfl

theorem takes_commaSeparated {item : Parser α} {tokens : α → List Token} {p : TokenKind → Bool}
    (hcomma : p (.delimiter .comma) = true) {first : α} {rest : List α}
    (h : ∀ a ∈ first :: rest, item.Takes (· = a) (tokens a) (Before p)) :
    (commaSeparated item).Takes (· = first :: rest)
      (tokens first ++ rest.flatMap fun a => .delimiter .comma :: tokens a)
      (Before fun kind => p kind && kind != .delimiter .comma) := by
  obtain ⟨hfirst, hrest⟩ := List.forall_mem_cons.mp h
  have hmore : (many (isAt (.delimiter .comma)) do
      let _ ← expect (.delimiter .comma)
      item).Takes (· = rest) (rest.flatMap fun a => .delimiter .comma :: tokens a)
        (Before fun kind => p kind && kind != .delimiter .comma) := by
    refine (Takes.manyEq (fun a ha => Takes.after (.delimiter .comma) fun _ => hrest a ha)
      fun a _ ahead others ha => ?_).weaken fun ahead hs =>
        ⟨hs.imp (by simp +contextual), isAt_eq_false hs (by simp)⟩
    exact ⟨isAt_of_ahead ha, ha.before hcomma, ha.length_lt⟩
  refine hfirst.seq (hmore.return (first :: ·) fun _ heq => by rw [heq]) fun ahead others ha
    hs => ?_
  cases rest with
  | nil =>
    cases ahead_nil.mp ha
    exact Before.imp hs (by simp +contextual)
  | cons a rest => exact Ahead.before ha hcomma

def TakesDeeper (n : Nat) (deeper : Option (Parser Operand)) : Prop :=
  ∀ m, n = m + 1 → ∃ operand ∈ deeper, TakesOperand m operand

theorem takes_nestedExpression (hd : TakesDeeper n deeper) {e : Expression}
    (he : ∃ m, n = m + 1 ∧ e.Fits m) : (nested deeper expressionWith).Takes (· = e) e.tokens
      (Before TokenKind.endsExpression) := by
  obtain ⟨m, rfl, hfits⟩ := he
  obtain ⟨operand, rfl, h⟩ := hd m rfl
  exact takes_expressionWith h hfits

theorem takes_argumentsWith (hd : TakesDeeper n deeper) {arguments : Arguments}
    (ha : arguments.Fits n) : (argumentsWith deeper).Takes (· = arguments)
      (.delimiter .openParen :: (arguments.tokens ++ [.delimiter .closeParen])) stop := by
  refine Takes.after (.delimiter .openParen) fun _ => Takes.get fun ahead rest hahead _ => ?_
  cases arguments with
  | nil =>
    rw [if_pos (show isAt (.delimiter .closeParen) ahead = true from isAt_of_ahead hahead)]
    exact Takes.after (.delimiter .closeParen) fun _ => takes_pure rfl
  | cons first others =>
    have hnot : ¬ isAt (.delimiter .closeParen) ahead = true := by
      obtain ⟨token, more, heq, hstarts⟩ := first.tokens_start
      rw [Arguments.tokens, heq] at hahead
      rw [isAt_iff, Ahead.kind?_eq hahead]
      intro hk
      rw [Option.some.inj hk] at hstarts
      cases hstarts
    rw [if_neg hnot, Arguments.tokens, Arguments.moreTokens_eq]
    refine Takes.seq (takes_commaSeparated (p := TokenKind.endsExpression) rfl fun a hmem => ?_)
      (Takes.after (.delimiter .closeParen) fun _ => takes_pure ?_) fun _ _ ha _ =>
      Ahead.before ha rfl
    · rw [Arguments.fits_iff, Arguments.toList] at ha
      exact takes_nestedExpression hd (ha a hmem)
    · rw [← Arguments.toList, Arguments.ofList_toList]

theorem takes_reference (hd : TakesDeeper n deeper) {id : String} {e : Operand} (he : e.Fits n)
    (heq : e.tokens = .identifier id :: tokens) :
    (reference id deeper).Takes (· = e) tokens (Before TokenKind.endsOperand) := by
  cases e with
  | name id' =>
    cases heq
    intro ahead rest ha hs
    cases ahead_nil.mp ha
    refine ⟨_, bind_iff.mpr ⟨_, _, peek_iff.mpr ⟨rfl, rfl⟩, ?_⟩, rfl⟩
    unfold Before at hs
    generalize kind? ahead = kind at hs
    split
    · exact absurd (hs _ rfl) nofun
    · exact absurd (hs _ rfl) nofun
    · rfl
  | call id' arguments =>
    cases heq
    exact Takes.peek ((takes_argumentsWith hd he).return _ fun _ heq => by rw [heq])
  | element id' index =>
    cases heq
    exact Takes.peek (Takes.after (.delimiter .openBracket) fun _ =>
      (takes_nestedExpression hd he).seq
        (Takes.after (.delimiter .closeBracket) fun _ => takes_pure rfl)
        fun _ _ ha _ => Ahead.before ha rfl)
  | _ => cases heq

theorem takes_operandWith (hd : TakesDeeper n deeper) : TakesOperand n (operandWith deeper) := by
  intro e he
  cases e with
  | unary op operand =>
    obtain ⟨m, rfl, hfits⟩ := he
    obtain ⟨inner, rfl, h⟩ := hd m rfl
    refine Takes.peek ?_
    have hunary (q : op.1.isUnary = true → Parser Operand) (q' : Parser Operand) :
        (if h : op.1.isUnary = true then q h else q') = q op.2 := dif_pos op.2
    show (if h : op.1.isUnary = true then _ else _ : Parser Operand).Takes _ _ _
    rw [hunary]
    exact Takes.after (.operator op.1) fun _ => (h operand hfits).return _ fun _ heq => by rw [heq]
  | literal kind text => exact Takes.peek (takes_accept _ rfl rfl)
  | name id =>
    exact Takes.peek ((takes_identifier id).seq (takes_reference hd he rfl) fun _ _ _ _ => trivial)
  | call id arguments =>
    exact Takes.peek ((takes_identifier id).seq (takes_reference hd he rfl) fun _ _ _ _ => trivial)
  | element id index =>
    exact Takes.peek ((takes_identifier id).seq (takes_reference hd he rfl) fun _ _ _ _ => trivial)
  | function id =>
    exact Takes.peek (Takes.after (.keyword .function) fun _ =>
      (takes_identifier id).return _ fun _ heq => by rw [heq])
  | parens inner =>
    exact Takes.peek (Takes.after (.delimiter .openParen) fun _ =>
      (takes_nestedExpression hd he).seq
        (Takes.after (.delimiter .closeParen) fun _ => takes_pure rfl)
        fun _ _ ha _ => Ahead.before ha rfl)

theorem takes_operand (n : Nat) : TakesOperand n (operand n) := by
  induction n with
  | zero => exact takes_operandWith nofun
  | succ n ih =>
    refine takes_operandWith ?_
    rintro _ ⟨⟩
    exact ⟨operand n, rfl, ih⟩

theorem takes_deeperOperand (n : Nat) : TakesDeeper n (deeperOperand n) := by
  rintro m rfl
  exact ⟨operand m, rfl, takes_operand m⟩

theorem takes_expression {e : Expression} (he : e.Fits n) :
    (expression n).Takes (· = e) e.tokens (Before TokenKind.endsExpression) :=
  takes_expressionWith (takes_operand n) he

-- ---------------------------------------------------------------------------
-- Statements
-- ---------------------------------------------------------------------------

theorem startsAction_eq (ahead : List Lexeme) :
    startsAction ahead = (kind? ahead).any TokenKind.startsAction := by
  cases ahead with
  | nil => rfl
  | cons lexeme others =>
    simp only [startsAction, isAt, kind?, List.head?_cons, Option.any_some, Option.map_some]
    cases lexeme.token.kind with
    | keyword word => cases word <;> rfl
    | _ => rfl

theorem startsStatement_eq (ahead : List Lexeme) :
    startsStatement ahead = (kind? ahead).any TokenKind.startsStatement := by
  rw [startsStatement, startsAction_eq]
  cases ahead with
  | nil => rfl
  | cons lexeme others =>
    simp only [isAt, kind?, List.head?_cons, Option.any_some, Option.map_some]
    cases lexeme.token.kind with
    | keyword word => cases word <;> rfl
    | _ => rfl

def TakesStatement (n : Nat) (inLoop : Bool) (p : Parser Statement) : Prop :=
  ∀ statement : Statement, statement.Fits n inLoop →
    p.Takes (· = statement) statement.tokens (Before (· == .newline))

def TakesBlock (n : Nat) (inLoop : Bool) (p : Parser Block) : Prop :=
  ∀ block : Block, block.Fits n inLoop →
    p.Takes (· = block) block.tokens (Before fun kind => !kind.startsStatement)

theorem takes_blockWith (h : TakesStatement n inLoop p) : TakesBlock n inLoop (blockWith p) := by
  intro block hblock
  rw [Block.tokens_eq]
  have hline (statement : Statement) (hs : statement ∈ block.toList) :
      (do let statement ← p; let _ ← expect .newline; return statement : Parser Statement).Takes
        (· = statement) (statement.tokens ++ [.newline]) fun _ => True :=
    (h statement (block.fits_iff.mp hblock statement hs)).seq
      (Takes.after .newline fun _ => takes_pure rfl) fun _ _ ha _ => Ahead.before ha rfl
  refine ((Takes.manyEq hline fun statement _ ahead others ha => ?_).weaken
    fun rest hs => ⟨trivial, ?_⟩).return _ fun _ heq => ?_
  · obtain ⟨token, more, heq, hstarts⟩ := statement.tokens_start
    rw [heq] at ha
    rw [startsStatement_eq, Ahead.kind?_eq ha]
    exact ⟨hstarts, trivial, Ahead.length_lt ha⟩
  · rw [startsStatement_eq]
    cases hk : kind? rest with
    | none => rfl
    | some kind => simpa using hs kind hk
  · rw [heq, Block.ofList_toList]

def TakesBody (n : Nat) (inLoop : Bool) (body : Option (Parser Block)) : Prop :=
  ∀ m, n = m + 1 → ∃ block ∈ body, TakesBlock m inLoop block

theorem takes_body (h : TakesBody n inLoop body) {block : Block} (hb : block.FitsBelow n inLoop) :
    (nested body id).Takes (· = block) block.tokens (Before fun kind => !kind.startsStatement) := by
  obtain ⟨m, rfl, hfits⟩ := hb
  obtain ⟨parser, rfl, hparser⟩ := h m rfl
  exact hparser block hfits

theorem takes_noIndex (n : Nat) : (setIndex n).Takes (· = none) [] (Before (· == .assign)) := by
  refine Takes.skip (fun ahead rest ha hs hk => ?_) (takes_pure rfl)
  cases ahead_nil.mp ha
  exact absurd (hs _ hk) nofun

theorem takes_setIndex {index : Expression} (hi : index.Fits n) :
    (setIndex n).Takes (· = some index)
      (.delimiter .openBracket :: (index.tokens ++ [.delimiter .closeBracket])) stop :=
  Takes.eat (.delimiter .openBracket) fun _ => (takes_expression hi).seq
    (Takes.after (.delimiter .closeBracket) fun _ => takes_pure rfl) fun _ _ ha _ =>
    Ahead.before ha rfl

theorem takes_guarded (h : TakesBody n inLoop body) (part : Expression × Block)
    (hp : part.1.Fits n ∧ part.2.FitsBelow n inLoop) : (guarded n body).Takes (· = part)
      (guardedTokens part) (Before fun kind => !kind.startsStatement) :=
  (takes_expression hp.1).seq
  (Takes.after (.keyword .thenWord) fun _ => Takes.after .newline fun _ =>
    (takes_body h hp.2).return _ fun _ heq => by rw [heq]) fun _ _ ha _ => Ahead.before ha rfl

theorem takes_otherwise (h : TakesBody n inLoop body) {last : Option Block}
    (hl : ∀ block ∈ last, block.FitsBelow n inLoop) {f : Option Block → Parser α}
    {tokens : List Token} (hf : (f last).Takes result (.keyword .endif :: tokens) stop) : (do
      let last ← match ← eat? (.keyword .elseWord) with
        | none => pure none
        | some _ =>
          let _ ← expect .newline
          some <$> nested body id
      f last).Takes result (otherwiseTokens last ++ Token.keyword .endif :: tokens) stop := by
  cases last with
  | none =>
    refine Takes.skip (fun ahead rest ha _ => ?_) hf
    rw [Ahead.kind?_eq ha]
    nofun
  | some block =>
    refine Takes.eat (.keyword .elseWord) fun _ => Takes.after .newline fun _ => ?_
    intro ahead rest ha hs
    obtain ⟨middle, hblock, hrest⟩ := ahead_append.mp ha
    obtain ⟨block, hp, rfl⟩ := takes_body h (hl block rfl) _ _ hblock (Ahead.before hrest rfl)
    obtain ⟨a, hf, hr⟩ := hf _ _ hrest hs
    exact ⟨a, bind_iff.mpr ⟨some block, middle, map_iff.mpr ⟨block, hp, rfl⟩, hf⟩, hr⟩

theorem takes_branch (hd : TakesBody n inLoop (deeper.map (· inLoop))) {condition : Expression}
    {body : Block} {alternative : Alternative}
    (ha : (Action.branch condition body alternative).Fits n inLoop) :
    (actionWith n deeper inLoop).Takes (· = .branch condition body alternative)
      (Action.branch condition body alternative).tokens stop := by
  obtain ⟨hcondition, hbody, halternative⟩ := ha
  rw [Alternative.fits_iff] at halternative
  have htokens : (Action.branch condition body alternative).tokens = .keyword .ifWord ::
      (guardedTokens (condition, body) ++ (alternative.conditions.flatMap (fun part =>
        .keyword .elseif :: guardedTokens part) ++
          (otherwiseTokens alternative.last? ++ [.keyword .endif]))) := by
    simp [Action.tokens, Alternative.tokens_eq, guardedTokens]
  rw [htokens]
  have hmany : (many (isAt (.keyword .elseif)) do
      let _ ← expect (.keyword .elseif)
      guarded n (deeper.map (· inLoop))).Takes (· = alternative.conditions)
        (alternative.conditions.flatMap fun part => .keyword .elseif :: guardedTokens part)
        (Before fun kind => !kind.startsStatement && kind != .keyword .elseif) := by
    refine (Takes.manyEq (fun part hp => Takes.after (.keyword .elseif) fun _ =>
      takes_guarded hd part (halternative.1 part hp)) fun part _ ahead others ha => ?_).weaken
        fun ahead hs => ⟨hs.imp (by simp +contextual), isAt_eq_false hs (by simp)⟩
    exact ⟨isAt_of_ahead ha, ha.before rfl, ha.length_lt⟩
  refine Takes.peek (Takes.after (.keyword .ifWord) fun _ =>
    (takes_guarded hd (condition, body) ⟨hcondition, hbody⟩).seq (hmany.seq
      (takes_otherwise hd halternative.2 (Takes.after (.keyword .endif) fun _ => takes_pure ?_))
      fun ahead rest ha _ => ?_) fun ahead rest ha _ => ?_)
  · rw [Alternative.ofList_conditions]
  · cases hlast : alternative.last? with
    | none => exact Ahead.before (hlast ▸ ha) rfl
    | some block => exact Ahead.before (hlast ▸ ha) rfl
  · rw [← Alternative.tokens_eq] at ha
    cases alternative <;> exact Ahead.before ha rfl

theorem takes_actionWith (hd : ∀ inLoop, TakesBody n inLoop (deeper.map (· inLoop)))
    {action : Action} (ha : action.Fits n inLoop) : (actionWith n deeper inLoop).Takes (· = action)
      action.tokens (Before TokenKind.endsExpression) := by
  cases action with
  | set id index value =>
    have hvalue (hv : value.Fits n) :
        (do let _ ← expect .assign; return .set id index (← expression n) : Parser Action).Takes
          (· = .set id index value) (.assign :: value.tokens)
          (Before TokenKind.endsExpression) :=
      Takes.after .assign fun _ => (takes_expression hv).return _ fun _ heq => by rw [heq]
    cases index with
    | none =>
      exact Takes.peek (Takes.after (.keyword .set) fun _ => (takes_identifier id).seq
        ((takes_noIndex n).seq (hvalue ha) fun _ _ ha _ => Ahead.before ha rfl)
          fun _ _ _ _ => trivial)
    | some index =>
      have htokens : (Action.set id (some index) value).tokens =
          .keyword .set :: ([.identifier id] ++
            (.delimiter .openBracket :: (index.tokens ++ [.delimiter .closeBracket]) ++
              .assign :: value.tokens)) := by simp [Action.tokens]
      rw [htokens]
      exact Takes.peek (Takes.after (.keyword .set) fun _ => (takes_identifier id).seq
        ((takes_setIndex ha.1).seq (hvalue ha.2) fun _ _ _ _ => trivial) fun _ _ _ _ => trivial)
  | call id arguments =>
    exact Takes.peek (Takes.after (.keyword .call) fun _ => (takes_identifier id).seq
      ((takes_argumentsWith (takes_deeperOperand n) ha).return _ fun _ heq => by rw [heq])
      fun _ _ _ _ => trivial)
  | branch condition body alternative => exact takes_branch (hd inLoop) ha
  | loop body =>
    exact Takes.peek (Takes.after (.keyword .loop) fun _ => Takes.after .newline fun _ =>
      (takes_body (hd true) ha).seq (Takes.after (.keyword .endloop) fun _ => takes_pure rfl)
        fun _ _ ha _ => Ahead.before ha rfl)

theorem takes_noValue (n : Nat) : (returnValue n).Takes (· = none) [] (Before (· == .newline)) := by
  intro ahead rest ha hs
  cases ahead_nil.mp ha
  refine ⟨none, bind_iff.mpr ⟨_, _, peek_iff.mpr ⟨rfl, rfl⟩, ?_⟩, rfl⟩
  unfold Before at hs
  generalize kind? ahead = kind at hs
  split
  · rfl
  · rfl
  · rename_i hnone hnewline
    cases kind with
    | none => exact absurd rfl hnone
    | some kind => exact absurd (congrArg some (by simpa using hs kind rfl)) hnewline

theorem takes_value {value : Expression} (hv : value.Fits n) :
    (returnValue n).Takes (· = some value) value.tokens (Before TokenKind.endsExpression) := by
  have h : (do return some (← expression n) : Parser (Option Expression)).Takes (· = some value)
      value.tokens (Before TokenKind.endsExpression) :=
    (takes_expression hv).return some fun _ heq => by rw [heq]
  obtain ⟨token, others, heq, hstarts⟩ := value.tokens_start
  rw [heq] at h ⊢
  refine Takes.peek ?_
  split
  · contradiction
  · rename_i hk
    rw [Option.some.inj hk] at hstarts
    cases hstarts
  · exact h

theorem takes_statementWith (hd : ∀ inLoop, TakesBody n inLoop (deeper.map (· inLoop))) :
    TakesStatement n inLoop (statementWith n deeper inLoop) := by
  have hends {rest : List Lexeme} (hs : Before (· == .newline) rest) :
      Before TokenKind.endsExpression rest := hs.imp (by simp; rfl)
  intro statement hs
  cases statement with
  | exitwhen condition =>
    obtain ⟨rfl, hs⟩ := hs
    refine Takes.peek (Takes.after (.keyword .exitwhen) fun _ => ?_)
    exact ((takes_expression hs).return _ fun _ heq => by rw [heq]).weaken fun _ => hends
  | returns value =>
    cases value with
    | none =>
      exact Takes.peek (Takes.after (.keyword .returnWord) fun _ =>
        (takes_noValue n).return _ fun _ heq => by rw [heq])
    | some value =>
      exact Takes.peek (Takes.after (.keyword .returnWord) fun _ =>
        ((takes_value hs).return _ fun _ heq => by rw [heq]).weaken fun _ => hends)
  | debug action =>
    refine Takes.peek (Takes.after (.keyword .debug) fun _ => Takes.get fun ahead rest ha _ => ?_)
    have hstarts : startsAction ahead = true := by
      obtain ⟨token, others, heq, hstarts⟩ := action.tokens_start
      rw [heq] at ha
      rw [startsAction_eq, Ahead.kind?_eq ha]
      exact hstarts
    rw [if_pos hstarts]
    exact ((takes_actionWith hd hs).return _ fun _ heq => by rw [heq]).weaken fun _ => hends
  | action action =>
    have h : (do return .action (← actionWith n deeper inLoop) : Parser Statement).Takes
        (· = .action action) action.tokens (Before (· == .newline)) :=
      ((takes_actionWith hd hs).return _ fun _ heq => by rw [heq]).weaken fun _ => hends
    cases action with
    | set id index value => cases index <;> exact Takes.peek h
    | _ => exact Takes.peek h

theorem takes_statement (n : Nat) (inLoop : Bool) :
    TakesStatement n inLoop (statement n inLoop) := by
  induction n generalizing inLoop with
  | zero => exact takes_statementWith nofun
  | succ n ih =>
    refine takes_statementWith fun inLoop => ?_
    rintro _ ⟨⟩
    exact ⟨_, rfl, takes_blockWith (ih inLoop)⟩

-- ---------------------------------------------------------------------------
-- Declarations
-- ---------------------------------------------------------------------------

theorem typeName_kind (name : String) : (Token.typeName name).text = name ∧
    ((Token.typeName name).kind = .identifier ∨
      (Token.typeName name).kind.isBuiltinType = true) := by
  unfold Token.typeName
  split
  · exact ⟨rfl, .inr rfl⟩
  · exact ⟨rfl, .inl rfl⟩

theorem typeName_ne_keyword (name : String) (word : Keyword) :
    (Token.typeName name).kind ≠ .keyword word := by
  intro hk
  obtain ⟨-, h | h⟩ := typeName_kind name <;> rw [hk] at h <;> cases h

theorem takes_typeName (name : String) : typeName.Takes (· = name) [.typeName name] stop := by
  obtain ⟨htext, hkind⟩ := typeName_kind name
  refine takes_accept _ ?_ rfl
  rw [typeName?, if_pos hkind, htext]

theorem takes_parentType {name : String} (h : (Token.typeName name).kind = .identifier ∨
    (Token.typeName name).kind = .builtin .handle) :
    (accept parentType? .parentType).Takes (· = name) [.typeName name] stop := by
  refine takes_accept _ ?_ rfl
  rw [parentType?, if_pos h, (typeName_kind name).1]

theorem takes_parameter (p : Parameter) : parameter.Takes (· = p) p.tokens stop :=
  (takes_typeName p.type).seq ((takes_identifier p.id).return _ fun _ heq => by rw [heq])
    fun _ _ _ _ => trivial

theorem takes_parameters (takes : List Parameter) :
    parameters.Takes (· = takes) (takenTokens takes) (Before (· == .keyword .returns)) := by
  cases takes with
  | nil => exact Takes.eat (.keyword .nothing) fun _ => takes_pure rfl
  | cons first rest =>
    refine Takes.skip (fun ahead rest ha _ hk => ?_) ((takes_commaSeparated (p := fun _ => true) rfl
      fun p _ => takes_parameter p).weaken fun _ hs => hs.imp (by simp))
    exact typeName_ne_keyword _ _ (Option.some.inj ((Ahead.kind?_eq ha).symm.trans hk))

theorem takes_returnType (returns : Option String) :
    returnType.Takes (· = returns) [returnedToken returns] stop := by
  cases returns with
  | none => exact Takes.eat (.keyword .nothing) fun _ => takes_pure rfl
  | some name =>
    refine Takes.skip (fun ahead rest ha _ hk => ?_)
      ((takes_typeName name).return _ fun _ heq => by rw [heq])
    exact typeName_ne_keyword _ _ (Option.some.inj ((Ahead.kind?_eq ha).symm.trans hk))

theorem takes_signature (s : Signature) : signature.Takes (· = s) s.tokens stop :=
  (takes_identifier s.id).seq (Takes.after (.keyword .takes) fun _ => (takes_parameters s.takes).seq
    (Takes.after (.keyword .returns) fun _ => (takes_returnType s.returns).return _
      fun _ heq => by rw [heq]) fun _ _ ha _ => Ahead.before ha rfl) fun _ _ _ _ => trivial

theorem takes_variableRest {declared : VariableDeclaration} (hd : declared.Fits maxLevels)
    (start : Position) : (variableRest start declared.type).Takes
      (fun found => found.unplaced = declared.unplaced) declared.tokens.tail
      (Before (· == .newline)) := by
  obtain ⟨position, type, id, initial⟩ := declared
  cases initial with
  | array =>
    exact Takes.eat (.keyword .array) fun _ =>
      (takes_identifier id).return _ fun _ heq => by rw [heq]; rfl
  | unset =>
    refine Takes.skip (fun ahead rest ha _ => ?_) (Takes.seq (takes_identifier id)
      (Takes.skip (fun ahead rest ha hs hk => ?_) (takes_pure rfl)) fun _ _ _ _ => trivial)
    · rw [Ahead.kind?_eq ha]
      nofun
    · cases ahead_nil.mp ha
      exact absurd (hs _ hk) nofun
  | value value =>
    refine Takes.skip (fun ahead rest ha _ => ?_) (Takes.seq (takes_identifier id)
      (Takes.eat .assign fun _ =>
        ((takes_expression (hd value rfl)).return _ fun _ heq => ?_).weaken
        fun _ hs => hs.imp ?_) fun _ _ _ _ => trivial)
    · rw [Ahead.kind?_eq ha]
      nofun
    · rw [heq]
      rfl
    · simp
      rfl

theorem takes_globalVariable {member : GlobalDeclaration} (hm : member.Fits maxLevels) :
    globalVariable.Takes (fun found => found.unplaced = member.unplaced) member.tokens
      (Before (· == .newline)) := by
  cases member with
  | constant position type id value =>
    exact Takes.eat (.keyword .constant) fun _ => (takes_typeName type).seq
      ((takes_identifier id).seq
        (Takes.after .assign fun _ =>
          ((takes_expression hm).return _ fun _ heq => by rw [heq]; rfl).weaken
            fun _ hs => hs.imp (by simp; rfl)) fun _ _ _ _ => trivial) fun _ _ _ _ => trivial
  | plain declared =>
    refine Takes.skip (fun ahead rest ha _ hk => ?_) (Takes.position fun start =>
      (takes_typeName declared.type).seq ((takes_variableRest hm start).return _ fun _ heq => ?_)
        fun _ _ _ _ => trivial)
    · exact typeName_ne_keyword _ _ (Option.some.inj ((Ahead.kind?_eq ha).symm.trans hk))
    · exact congrArg GlobalDeclaration.plain heq

theorem takes_typeDeclaration (start : Position) (id : String) {parent : String}
    (h : (Declaration.type start id parent).Fits maxLevels) : typeDeclaration.Takes
      (fun found => found.unplaced = (Declaration.type start id parent).unplaced)
      (Declaration.type start id parent).tokens stop :=
  Takes.after (.keyword .type) fun _ => (takes_identifier id).seq
    (Takes.after (.keyword .extendsWord) fun _ => (takes_parentType h).return _
      fun _ heq => by rw [heq]; rfl) fun _ _ _ _ => trivial

theorem takes_constant {f : Option Position → Parser α} {result : α → Prop}
    (constant : Option Position)
    (hkind : token.kind ≠ .keyword .constant) (h : ∀ found : Option Position,
      (found.map fun _ => Position.start) = constant.map (fun _ => Position.start) →
        (f found).Takes result (token :: tokens) stop) :
    (eat? (.keyword .constant) >>= f).Takes result
    (constantTokens constant ++ token :: tokens) stop := by
  cases constant with
  | none =>
    refine Takes.skip (fun ahead rest ha _ hk => ?_) (h none rfl)
    exact hkind (Option.some.inj ((Ahead.kind?_eq ha).symm.trans hk))
  | some position => exact Takes.eat (.keyword .constant) fun start => h (some start) rfl

theorem takes_native (constant : Option Position) (start : Position) (s : Signature) :
    native.Takes (fun found => found.unplaced = (Declaration.native constant start s).unplaced)
      (Declaration.native constant start s).tokens stop :=
  takes_constant constant nofun fun _ hc => Takes.after (.keyword .native) fun _ =>
    (takes_signature s).return _ fun _ heq => by rw [heq, Declaration.unplaced, hc]; rfl

theorem map_eq_of_forall₂ {f : α → β} (h : List.Forall₂ (fun a b => f b = f a) items found) :
    found.map f = items.map f := by
  induction h with
  | nil => rfl
  | cons hab _ ih => rw [List.map_cons, List.map_cons, hab, ih]

/-- No global starts with the word after the last one. -/
theorem global_of_ahead (member : GlobalDeclaration)
    (h : Ahead (member.tokens ++ more) ahead rest) :
    isAt (.keyword .endglobals) ahead = false ∧ rest.length < ahead.length := by
  cases member with
  | constant => exact ⟨isAt_of_ahead h, Ahead.length_lt h⟩
  | plain declared =>
    exact ⟨(isAt_of_ahead h).trans (decide_eq_false (typeName_ne_keyword _ _)), Ahead.length_lt h⟩

theorem takes_globals (start : Position) {members : List GlobalDeclaration}
    (h : (Declaration.globals start members).Fits maxLevels) : globals.Takes
      (fun found => found.unplaced = (Declaration.globals start members).unplaced)
      (Declaration.globals start members).tokens stop := by
  have hline (member : GlobalDeclaration) (hm : member ∈ members) :
      (do let declared ← globalVariable; let _ ← expect .newline; return declared :
        Parser GlobalDeclaration).Takes (fun found => found.unplaced = member.unplaced)
          (member.tokens ++ [.newline]) fun _ => True :=
    (takes_globalVariable (h member hm)).bind
      (fun _ heq => Takes.after .newline fun _ => takes_pure heq)
      fun _ _ ha _ => Ahead.before ha rfl
  have hmany : (many (fun tokens => !isAt (.keyword .endglobals) tokens) do
      let declared ← globalVariable
      let _ ← expect .newline
      return declared).Takes (fun found => found.map GlobalDeclaration.unplaced =
        members.map GlobalDeclaration.unplaced)
        (members.flatMap fun member => member.tokens ++ [.newline])
        fun rest => isAt (.keyword .endglobals) rest = true := by
    refine ((Takes.many hline fun member _ ahead rest ha => ?_).imp
      fun found hfound => map_eq_of_forall₂ hfound).weaken fun rest hs => ⟨trivial, by simp [hs]⟩
    obtain ⟨hmore, hless⟩ := global_of_ahead member ha
    exact ⟨by simp [hmore], trivial, hless⟩
  exact Takes.after (.keyword .globals) fun _ => Takes.after .newline fun _ => hmany.bind
    (fun found heq => Takes.after (.keyword .endglobals) fun _ => takes_pure
      (congrArg (Declaration.globals .start) heq)) fun _ _ ha _ => isAt_of_ahead ha

theorem takes_localVariable {declared : VariableDeclaration} (hd : declared.Fits maxLevels) :
    localVariable.Takes (fun found => found.unplaced = declared.unplaced)
      (.keyword .localWord :: (declared.tokens ++ [.newline])) stop :=
  Takes.after (.keyword .localWord) fun start => (takes_typeName declared.type).seq
    ((takes_variableRest hd start).bind (fun _ heq => Takes.after .newline fun _ => takes_pure heq)
      fun _ _ ha _ => Ahead.before ha rfl) fun _ _ _ _ => trivial

/-- No local variable is declared where the body starts. -/
theorem body_of_ahead (body : Block)
    (h : Ahead (body.tokens ++ [.keyword .endfunction]) ahead rest) :
    Before (· != .keyword .localWord) ahead := by
  cases body with
  | nil => exact Ahead.before h rfl
  | cons statement others =>
    obtain ⟨token, more, heq, hstarts⟩ := statement.tokens_start
    rw [Block.tokens, heq] at h
    refine Ahead.before h (bne_iff_ne.mpr fun hk => ?_)
    rw [hk] at hstarts
    cases hstarts

theorem takes_function {declaration : FunctionDeclaration} (hd : declaration.Fits maxLevels) :
    function.Takes (fun found => found.unplaced =
      declaration.unplaced) declaration.tokens stop := by
  obtain ⟨constant, position, s, locals, body, finish⟩ := declaration
  have hlocals : (many (isAt (.keyword .localWord)) localVariable).Takes
      (fun found => found.map VariableDeclaration.unplaced =
        locals.map VariableDeclaration.unplaced)
      (locals.flatMap fun declared => .keyword .localWord :: (declared.tokens ++ [.newline]))
      (Before (· != .keyword .localWord)) := by
    have hstart (declared : VariableDeclaration) (_ : declared ∈ locals) (ahead rest : List Lexeme)
        (ha : Ahead (.keyword .localWord :: (declared.tokens ++ [.newline])) ahead rest) :
        isAt (.keyword .localWord) ahead = true ∧ True ∧ rest.length < ahead.length :=
      ⟨isAt_of_ahead ha, trivial, ha.length_lt⟩
    exact ((Takes.many (fun declared hl => takes_localVariable (hd.1 declared hl)) hstart).imp
      fun found hfound => map_eq_of_forall₂ hfound).weaken
        fun rest hs => ⟨trivial, isAt_eq_false hs (by simp)⟩
  refine takes_constant constant nofun fun found hc => Takes.after (.keyword .function) fun start =>
    (takes_signature s).seq (Takes.after .newline fun _ => hlocals.bind (fun found heq =>
      (takes_blockWith (takes_statement maxLevels false) body hd.2).seq
        (Takes.after (.keyword .endfunction) fun finish => takes_pure ?_)
        fun _ _ ha _ => Ahead.before ha rfl) ?_) fun _ _ _ _ => trivial
  · simp only [FunctionDeclaration.unplaced, hc, heq]
  · exact fun _ _ ha _ => body_of_ahead body ha

-- ---------------------------------------------------------------------------
-- Programs
-- ---------------------------------------------------------------------------

/-- The parser of an item takes its tokens and the line break after them, which may be
left out at the end of the tokens. -/
def TakesLine (p : Parser α) (result : α → Prop) (tokens : List Token) : Prop :=
  ∀ ahead rest, Ahead (tokens ++ [.newline]) ahead rest ∨ Ahead tokens ahead [] ∧ rest = [] →
    ∃ a, p ahead = .ok a rest ∧ result a

theorem takesLine_bind {p : Parser α} (h : p.Takes result tokens fun _ => True) :
    TakesLine (do let a ← p; endOfLine; return a) result tokens := by
  rintro ahead rest (ha | ⟨ha, rfl⟩)
  · obtain ⟨middle, hfirst, lexeme, others, rfl, hlexeme, rfl⟩ := ahead_append.mp ha
    obtain ⟨a, hp, hr⟩ := h _ _ hfirst trivial
    have hend : endOfLine (lexeme :: others) = .ok () others :=
      endOfLine_iff.mpr (.inr ⟨lexeme, rfl, congrArg Token.kind hlexeme⟩)
    exact ⟨a, bind_iff.mpr ⟨a, _, hp, bind_iff.mpr ⟨(), _, hend, rfl⟩⟩, hr⟩
  · obtain ⟨a, hp, hr⟩ := h _ _ ha trivial
    exact ⟨a, bind_iff.mpr ⟨a, _, hp, rfl⟩, hr⟩

theorem TakesLine.peek {f : Option TokenKind → Parser α}
    (h : TakesLine (f (some token.kind)) result (token :: tokens)) :
    TakesLine (peek >>= f) result (token :: tokens) := by
  intro ahead rest ha
  obtain ⟨a, hf, hr⟩ := h ahead rest ha
  have hk : kind? ahead = some token.kind := by
    obtain ha | ⟨ha, -⟩ := ha <;> exact Ahead.kind?_eq ha
  exact ⟨a, bind_iff.mpr ⟨_, ahead, peek_iff.mpr ⟨hk.symm, rfl⟩, hf⟩, hr⟩

theorem repeats_of_lines {tokens : α → List Token} {item : Parser β} {result : α → β → Prop}
    (hlines : Lines tokens others items ts) (ha : Ahead ts ahead [])
    (h : ∀ a ∈ items, TakesLine item (result a) (tokens a))
    (hne : ∀ a, tokens a ≠ [])
    (hstart : ∀ a ahead more rest, Ahead (tokens a ++ more) ahead rest → continues ahead = true)
    (hstop : ∀ ts ahead, others ts → Ahead ts ahead [] → continues ahead = false) :
    ∃ found middle ts, Repeats continues item ahead found middle ∧ List.Forall₂ result items found ∧
      others ts ∧ Ahead ts middle [] := by
  have hless (a : α) {more : List Token} {ahead rest : List Lexeme}
      (h : Ahead (tokens a ++ more) ahead rest) : rest.length < ahead.length := by
    obtain ⟨token, others, heq⟩ := List.exists_cons_of_ne_nil (hne a)
    exact Ahead.length_lt (heq ▸ h)
  induction hlines generalizing ahead with
  | nil hothers => exact ⟨[], ahead, _, .done (hstop _ _ hothers ha), .nil, hothers, ha⟩
  | @last a hothers =>
    obtain ⟨b, hb, hr⟩ := h a List.mem_cons_self ahead [] (.inr ⟨ha, rfl⟩)
    have ha' : Ahead (tokens a ++ []) ahead [] := by rwa [List.append_nil]
    exact ⟨[b], [], [], .more (hstart a _ _ _ ha') hb (hless a ha')
      (.done (hstop [] [] hothers rfl)), .cons hr .nil, hothers, rfl⟩
  | @cons a items ts hrest ih =>
    obtain ⟨ha', hs⟩ := List.forall_mem_cons.mp h
    obtain ⟨middle, hline, hothers⟩ := ha.line
    obtain ⟨b, hb, hr⟩ := ha' ahead middle (.inl hline)
    obtain ⟨found, last, ts', hrepeats, hfound, hend⟩ := ih hothers hs
    exact ⟨b :: found, last, ts', .more (hstart a _ _ _ hline) hb (hless a hline) hrepeats,
      .cons hr hfound, hend⟩

theorem takesLine_declaration {d : Declaration} (hd : d.Fits maxLevels) :
    TakesLine declaration (fun found => found.unplaced = d.unplaced) d.tokens := by
  cases d with
  | type start id parent =>
    exact TakesLine.peek (takesLine_bind (takes_typeDeclaration start id hd))
  | globals start members => exact TakesLine.peek (takesLine_bind (takes_globals start hd))
  | native constant start s =>
    cases constant <;> exact TakesLine.peek (takesLine_bind (takes_native _ start s))

theorem startsDeclaration_of_ahead (d : Declaration) (h : Ahead (d.tokens ++ more) ahead rest) :
    startsDeclaration ahead = true := by
  cases d with
  | type start id parent => simp [startsDeclaration, isAt_of_ahead h]
  | globals start members => simp [startsDeclaration, isAt_of_ahead h]
  | native constant start s =>
    cases constant with
    | none =>
      obtain ⟨first, _, rfl, hfirst, second, others, rfl, -⟩ := h
      simp [startsDeclaration, startsNative, hfirst]
    | some position =>
      obtain ⟨first, _, rfl, hfirst, second, others, rfl, hsecond, -⟩ := h
      simp [startsDeclaration, startsNative, hfirst, hsecond]

theorem function_of_ahead (f : FunctionDeclaration) (h : Ahead (f.tokens ++ more) ahead rest) :
    startsFunction ahead = true ∧ startsDeclaration ahead = false := by
  obtain ⟨constant, position, s, locals, body, finish⟩ := f
  cases constant with
  | none =>
    obtain ⟨first, _, rfl, hfirst, second, others, rfl, -⟩ := h
    simp [startsFunction, startsDeclaration, startsNative, isAt, hfirst]
  | some position =>
    obtain ⟨first, _, rfl, hfirst, second, others, rfl, hsecond, -⟩ := h
    simp [startsFunction, startsDeclaration, startsNative, isAt, hfirst, hsecond]

theorem ne_nil_of_function (f : FunctionDeclaration) (h : Ahead (f.tokens ++ more) ahead rest) :
    ahead ≠ [] := by
  rintro rfl
  cases (function_of_ahead f h).1

theorem startsFunction_of_line {f : FunctionDeclaration}
    (h : Ahead (f.tokens ++ [.newline]) ahead rest ∨ Ahead f.tokens ahead [] ∧ rest = []) :
    startsFunction ahead = true := by
  obtain h | ⟨h, -⟩ := h
  · exact (function_of_ahead f h).1
  · exact (function_of_ahead f h.append_nil).1

theorem takesLine_functionOr (expected : Expected) {f : FunctionDeclaration}
    (hf : f.Fits maxLevels) :
    TakesLine (functionOr expected) (fun found => found.unplaced = f.unplaced) f.tokens := by
  intro ahead rest ha
  obtain ⟨a, hp, hr⟩ := takesLine_bind (takes_function hf) ahead rest ha
  refine ⟨a, bind_iff.mpr ⟨_, ahead, rfl, ?_⟩, hr⟩
  rw [if_pos (startsFunction_of_line ha)]
  exact hp

theorem functions_cons (hfirst : functionOr .declaration ahead = .ok f middle)
    (hothers : Repeats (fun tokens => !tokens.isEmpty) (functionOr .function) middle others [])
    (hne : ahead ≠ []) : functions ahead = .ok (f :: others) [] := by
  refine bind_iff.mpr ⟨_, ahead, rfl, ?_⟩
  rw [if_neg (mt List.isEmpty_iff.mp hne)]
  exact bind_iff.mpr ⟨f, middle, hfirst, bind_iff.mpr ⟨others, [], hothers.many, rfl⟩⟩

theorem functions_of_lines {items : List FunctionDeclaration} (hf : ∀ f ∈ items, f.Fits maxLevels)
    (hlines : Lines FunctionDeclaration.tokens (· = []) items ts) (ha : Ahead ts ahead []) :
    ∃ found, functions ahead = .ok found [] ∧
      found.map FunctionDeclaration.unplaced = items.map FunctionDeclaration.unplaced := by
  cases hlines with
  | nil hts =>
    cases hts
    cases ahead_nil.mp ha
    exact ⟨[], rfl, rfl⟩
  | @last f _ =>
    obtain ⟨found, hp, hr⟩ :=
      takesLine_functionOr .declaration (hf f List.mem_cons_self) ahead [] (.inr ⟨ha, rfl⟩)
    refine ⟨[found], functions_cons hp (.done rfl) (ne_nil_of_function f ha.append_nil), ?_⟩
    rw [List.map_cons, List.map_cons, hr]
  | @cons f items ts hrest =>
    obtain ⟨hff, hfs⟩ := List.forall_mem_cons.mp hf
    obtain ⟨middle, hline, hothers⟩ := ha.line
    obtain ⟨first, hp, hr⟩ := takesLine_functionOr .declaration hff ahead middle (.inl hline)
    have hstart (f : FunctionDeclaration) (ahead : List Lexeme) (more : List Token)
        (rest : List Lexeme) (h : Ahead (f.tokens ++ more) ahead rest) :
        (!ahead.isEmpty) = true := by simpa using ne_nil_of_function f h
    obtain ⟨found, _, _, hrepeats, hfound, rfl, rfl⟩ := repeats_of_lines hrest hothers
      (fun f hmem => takesLine_functionOr .function (hfs f hmem)) tokens_function_ne_nil hstart
      (by rintro _ _ rfl rfl; rfl)
    refine ⟨first :: found, functions_cons hp hrepeats (ne_nil_of_function f hline), ?_⟩
    rw [List.map_cons, List.map_cons, hr, map_eq_of_forall₂ hfound]

theorem startsDeclaration_of_lines (h : Lines FunctionDeclaration.tokens (· = []) items ts)
    (ha : Ahead ts ahead []) : startsDeclaration ahead = false := by
  cases h with
  | nil hts =>
    cases hts
    cases ahead_nil.mp ha
    rfl
  | @last f _ => exact (function_of_ahead f ha.append_nil).2
  | cons hrest => exact (function_of_ahead _ ha).2

theorem not_newline_of_spelled {parsed : Program} (hs : parsed.Spelled ts)
    (ha : Ahead ts ahead []) :
    kind? ahead ≠ some .newline := by
  have hdeclaration (d : Declaration) {more : List Token} {ahead rest : List Lexeme}
      (ha : Ahead (d.tokens ++ more) ahead rest) : kind? ahead ≠ some .newline := by
    cases d with
    | native constant start s => cases constant <;> rw [Ahead.kind?_eq ha] <;> nofun
    | _ => rw [Ahead.kind?_eq ha]; nofun
  have hfunction (f : FunctionDeclaration) {more : List Token} {ahead rest : List Lexeme}
      (ha : Ahead (f.tokens ++ more) ahead rest) : kind? ahead ≠ some .newline := by
    intro hk
    simpa [startsFunction, isAt_iff, hk] using (function_of_ahead f ha).1
  obtain ⟨declarations, functions⟩ := parsed
  cases hs with
  | nil hs =>
    cases hs with
    | nil hts =>
      cases hts
      cases ahead_nil.mp ha
      nofun
    | @last f _ => exact hfunction f ha.append_nil
    | cons _ => exact hfunction _ ha
  | @last d _ => exact hdeclaration d ha.append_nil
  | cons _ => exact hdeclaration _ ha

/-- A program within the levels is read from its tokens, whether or not a line break is
before them. -/
theorem program_of_spelled {parsed : Program} (hf : parsed.Fits maxLevels) (hs : parsed.Spelled ts)
    (ha : Ahead ts ahead [] ∨ Ahead (.newline :: ts) ahead []) :
    ∃ found, program ahead = .ok found [] ∧
      found.declarations.map Declaration.unplaced = parsed.declarations.map Declaration.unplaced ∧
      found.functions.map FunctionDeclaration.unplaced =
        parsed.functions.map FunctionDeclaration.unplaced := by
  have hrest {ahead : List Lexeme} (ha : Ahead ts ahead []) : ∃ found, (do
      let declarations ← many startsDeclaration declaration
      return ⟨declarations, ← functions⟩ : Parser Program) ahead = .ok found [] ∧
      found.declarations.map Declaration.unplaced = parsed.declarations.map Declaration.unplaced ∧
      found.functions.map FunctionDeclaration.unplaced =
        parsed.functions.map FunctionDeclaration.unplaced := by
    obtain ⟨declarations, middle, ts', hrepeats, hdeclarations, hlines, hmiddle⟩ :=
      repeats_of_lines hs ha
      (fun d hd => takesLine_declaration (hf.declarations d hd)) tokens_declaration_ne_nil
      (fun d _ _ _ => startsDeclaration_of_ahead d) fun _ _ => startsDeclaration_of_lines
    obtain ⟨functions, hp, hfunctions⟩ := functions_of_lines hf.functions hlines hmiddle
    exact ⟨⟨declarations, functions⟩, bind_iff.mpr ⟨declarations, middle, hrepeats.many,
      bind_iff.mpr ⟨functions, [], hp, rfl⟩⟩, map_eq_of_forall₂ hdeclarations, hfunctions⟩
  obtain ha | ⟨lexeme, others, rfl, hlexeme, ha⟩ := ha
  · obtain ⟨found, hp, hr⟩ := hrest ha
    exact ⟨found, bind_iff.mpr ⟨_, ahead,
      eat?_iff.mpr (.inr ⟨not_newline_of_spelled hs ha, rfl, rfl⟩), hp⟩, hr⟩
  · obtain ⟨found, hp, hr⟩ := hrest ha
    exact ⟨found, bind_iff.mpr ⟨_, others, eat?_iff.mpr (.inl ⟨lexeme, rfl,
      congrArg Token.kind hlexeme, rfl⟩), hp⟩, hr⟩

end Grammar

end Mapsmith.Script
