import Mapsmith.Proofs.Script.Productions
import Mapsmith.Proofs.Script.Tracking

/-!
# Expressions and statements are tracked

`tracks_statement`: the parser of each rule that nests tracks the words of the rule, whatever
the levels that are left, before what may come after them: no bracket after an operand, no
operator after an expression, the end of the line after a statement and no statement after a
block.
-/

namespace Mapsmith.Script

namespace Parser

theorem isAt_iff_of_mem {kind : TokenKind} (h : other ∈ kind? ahead) :
    isAt kind ahead = true ↔ other = kind := by
  rw [isAt_iff, Option.mem_def.mp h, Option.some_inj]

end Parser

namespace Grammar

open Mapsmith.Script.Parser Mapsmith.Script.Rule

variable {follow : Language TokenKind} {ahead : List Lexeme}

-- ---------------------------------------------------------------------------
-- Expressions
-- ---------------------------------------------------------------------------

theorem startsLink_iff (h : kind ∈ kind? ahead) :
    startsLink ahead = true ↔ kind.isBinaryOperator = true := by
  cases ahead with
  | nil => cases h
  | cons lexeme rest => cases h; simp [startsLink]

theorem tracks_identifier : Tracks follow (only .identifier) ahead (identifier ahead) := by
  refine tracks_accept (fun token => ?_) (productive_only _) _
  unfold identifier?
  split <;> simp [*]

def TracksOperand (p : Parser Operand) : Prop := ∀ follow ahead,
  Begins follow (fun kind => kind.endsOperand = true) →
    Tracks follow (words .operand) ahead (p ahead)

theorem begins_links (hf : Begins follow fun kind => kind.endsExpression = true) :
    Begins (words .links * follow) fun kind => kind.endsOperand = true := by
  refine .mul ?_ (hf.imp fun kind hkind => ?_)
  · rw [words_links, mul_assoc]
    refine .add (begins_oneOf_mul fun kind hkind => ?_) begins_one
    cases kind with
    | operator op => rfl
    | _ => cases hkind
  · exact (Bool.and_eq_true _ _ ▸ hkind).1

theorem tracks_link {p : Parser Operand} (h : TracksOperand p)
    (hf : Begins follow fun kind => kind.endsOperand = true) :
    Tracks follow (oneOf (fun kind => kind.isBinaryOperator = true) * words .operand) ahead
      (link p ahead) := by
  have hop (token : Token) :
      (binaryOperator? token).isSome = true ↔ token.kind.isBinaryOperator = true := by
    unfold binaryOperator? TokenKind.isBinaryOperator
    split <;> simp [*]
  have hne : Productive (oneOf fun kind => kind.isBinaryOperator = true) :=
    ⟨_, .operator .plus, rfl, rfl⟩
  exact .bind (tracks_accept hop hne _) (productive_words _) fun op rest _ =>
    (h follow rest hf).map _

theorem tracks_expressionWith {p : Parser Operand} (h : TracksOperand p)
    (hf : Begins follow fun kind => kind.endsExpression = true) :
    Tracks follow (words .expression) ahead (expressionWith p ahead) := by
  rw [words_expression]
  refine .bind (h _ _ (begins_links hf)) (productive_words _) fun first rest _ => ?_
  refine Tracks.many words_links (fun _ _ => startsLink_iff) (by simp)
    (begins_oneOf_mul fun _ => id) ?_ (productive_words _)
    (fun ahead => tracks_link h (begins_links hf)) fun items rest => tracks_pure _
  rw [one_mul]
  refine hf.imp fun kind hkind hop => ?_
  simp [TokenKind.endsExpression, hop] at hkind

theorem tracks_commaSeparated {item : Parser α} {part more : Language TokenKind}
    {p : TokenKind → Prop} (hmore : more = only (.delimiter .comma) * part * more + 1)
    (hpart : Productive part)
    (hitem : ∀ follow ahead, Begins follow p → Tracks follow part ahead (item ahead))
    (hcomma : p (.delimiter .comma)) (hf : Begins follow p)
    (hf' : Begins follow (· ≠ .delimiter .comma)) :
    Tracks follow (part * more) ahead (commaSeparated item ahead) := by
  have hfollow : Begins (more * follow) p := by
    refine .mul ?_ hf
    rw [hmore, mul_assoc]
    exact .add (begins_only_mul hcomma) begins_one
  have hne : Productive more := ⟨[], hmore ▸ .inr rfl⟩
  refine .bind (hitem _ _ hfollow) hne fun first rest _ => ?_
  refine Tracks.many hmore (fun _ _ => isAt_iff_of_mem) (by simp)
    (begins_oneOf_mul fun _ => id) ?_ hne
    (fun ahead => .after _ hpart fun _ rest => hitem _ _ hfollow) fun items rest => tracks_pure _
  rwa [one_mul]

def TracksDeeper (deeper : Option (Parser Operand)) : Prop :=
  ∀ operand ∈ deeper, TracksOperand operand

variable {deeper : Option (Parser Operand)}

theorem tracks_nested {kinds : Language TokenKind} {inner : Option α} {rule : α → Parser β}
    (h : ∀ a ∈ inner, Tracks follow kinds ahead (rule a ahead)) :
    Tracks follow kinds ahead (nested inner rule ahead) := by
  cases inner with
  | none => exact .tooDeep [] rfl
  | some a => exact h a rfl

theorem tracks_nestedExpression (hd : TracksDeeper deeper)
    (hf : Begins follow fun kind => kind.endsExpression = true) :
    Tracks follow (words .expression) ahead (nested deeper expressionWith ahead) :=
  tracks_nested fun operand hoperand => tracks_expressionWith (hd operand hoperand) hf

theorem tracks_argumentsWith (hd : TracksDeeper deeper) :
    Tracks follow
      (only (.delimiter .openParen) * (words .arguments * only (.delimiter .closeParen))) ahead
      (argumentsWith deeper ahead) := by
  refine .after _ (by simp) fun _ rest => ?_
  rw [get_bind, words_arguments, add_mul, one_mul]
  split
  · rename_i hclose
    rw [isAt_iff] at hclose
    refine .right (Tracks.map (tracks_expect _) _)
      (Begins.misses (p := (·.startsExpression = true)) ?_ ?_)
    · simp only [mul_assoc]
      exact begins_expression.mul_left nil_notMem_expression
    · simp [hclose, TokenKind.startsExpression]
  · rename_i hother
    rw [isAt_iff] at hother
    refine .left (.bind (tracks_commaSeparated words_moreArguments (productive_words _)
      (fun _ _ => tracks_nestedExpression hd) rfl (begins_only_mul rfl) (begins_only_mul nofun))
      (productive_only _) fun _ _ _ => Tracks.map (tracks_expect _) _) ?_
    exact misses_only_mul hother

theorem tracks_bracketed {p : Parser Expression} {f : Expression → α}
    (h : ∀ follow ahead, Begins follow (fun kind => kind.endsExpression = true) →
      Tracks follow (words .expression) ahead (p ahead)) (opening closing : TokenKind)
    (hclosing : closing.endsExpression = true) :
    Tracks follow (only opening * (words .expression * only closing)) ahead
      ((expect opening >>= fun _ => p >>= fun inner => expect closing >>= fun _ => pure (f inner))
        ahead) :=
  .after _ (by simp) fun _ _ =>
    .bind (h _ _ (begins_only_mul hclosing)) (productive_only _) fun _ _ _ =>
      Tracks.map (tracks_expect _) _

theorem tracks_reference (hd : TracksDeeper deeper) (id : String)
    (hf : Begins follow fun kind => kind.endsOperand = true) :
    Tracks follow Rule.reference ahead (Grammar.reference id deeper ahead) := by
  have hends {kind : TokenKind} (h : kind? ahead = some kind) (hkind : kind.endsOperand = false) :
      Misses ahead follow := hf.misses (by simp [h, hkind])
  refine tracks_peek fun found hfound => ?_
  split
  · exact .left (Tracks.map (tracks_argumentsWith hd) _)
      (by simp [add_mul, mul_assoc, hfound, hends hfound rfl])
  · refine .right (.left (tracks_bracketed (fun _ _ => tracks_nestedExpression hd) _ _ rfl) ?_) ?_
    · simp [hends hfound rfl]
    · simp [mul_assoc, hfound]
  · rename_i hparen hbracket
    subst hfound
    refine .right (.right (tracks_pure _) ?_) ?_
    · exact mul_assoc _ _ follow ▸ misses_only_mul hbracket
    · exact mul_assoc _ _ follow ▸ misses_only_mul hparen

theorem tracks_operandWith (hd : TracksDeeper deeper) : TracksOperand (operandWith deeper) := by
  intro follow ahead hf
  have hne := productive_words .operand
  rw [words_operand] at hne ⊢
  refine tracks_peek fun found hfound => ?_
  split
  · rename_i op
    split
    · rename_i hop
      refine .left
        (.ofOnly (tracks_nested fun operand hoperand => .after (.operator op) (productive_words _)
        fun _ rest => (hd operand hoperand follow rest hf).map _) hfound hop) ?_
      simp [add_mul, mul_assoc, hfound, TokenKind.isLiteral]
    · rename_i hop
      refine tracks_unexpected hne ?_ _
      simp [add_mul, mul_assoc, hfound, TokenKind.isUnaryOperator, TokenKind.isLiteral, hop]
  · refine .right (.right
      (.left (.bind tracks_identifier ?_ fun id rest _ => tracks_reference hd id hf) ?_) ?_) ?_
    · exact ⟨[], .inr (.inr rfl)⟩
    all_goals simp [add_mul, mul_assoc, hfound, TokenKind.isUnaryOperator, TokenKind.isLiteral]
  · refine .right (.right (.right
      (.left (.after _ (productive_only _) fun _ _ => tracks_identifier.map _) ?_) ?_) ?_) ?_
    all_goals simp [mul_assoc, hfound, TokenKind.isUnaryOperator, TokenKind.isLiteral]
  · refine .right (.right (.right
      (.right (tracks_bracketed (fun _ _ => tracks_nestedExpression hd) _ _ rfl) ?_) ?_) ?_) ?_
    all_goals simp [mul_assoc, hfound, TokenKind.isUnaryOperator, TokenKind.isLiteral]
  · rename_i hoperator hidentifier hfunction hparen
    subst hfound
    have hliteral (token : Token) :
      (literal? token).isSome = true ↔ token.kind.isLiteral = true := by
      unfold literal?
      split <;> simp [*, TokenKind.isLiteral]
    refine .right (.left (tracks_accept hliteral ?_ _) ?_) ?_
    · have hkind : TokenKind.isLiteral (.literal .integer) = true := rfl
      exact productive_oneOf hkind
    · simp only [add_mul, mul_assoc, misses_add]
      exact ⟨misses_only_mul hidentifier, misses_only_mul hfunction, misses_only_mul hparen⟩
    · rw [mul_assoc]
      refine misses_oneOf_mul fun kind hkind hunary => ?_
      cases kind with
      | operator op => exact hoperator op hkind
      | _ => cases hunary

theorem tracks_operand : ∀ levels, TracksOperand (operand levels)
  | 0 => tracks_operandWith nofun
  | levels + 1 => tracks_operandWith fun _ h => Option.some.inj h ▸ tracks_operand levels

theorem tracks_deeperOperand : ∀ levels, TracksDeeper (deeperOperand levels)
  | 0 => nofun
  | levels + 1 => fun _ h => Option.some.inj h ▸ tracks_operand levels

theorem tracks_expression (levels : Nat)
    (hf : Begins follow fun kind => kind.endsExpression = true) :
    Tracks follow (words .expression) ahead (expression levels ahead) :=
  tracks_expressionWith (tracks_operand levels) hf

-- ---------------------------------------------------------------------------
-- Statements
-- ---------------------------------------------------------------------------

variable {inLoop : Bool} {levels : Nat}

def TracksStatement (inLoop : Bool) (p : Parser Statement) : Prop := ∀ follow ahead,
  Begins follow (· = .newline) → Tracks follow (words (.statement inLoop)) ahead (p ahead)

def TracksBlock (inLoop : Bool) (p : Parser Block) : Prop := ∀ follow ahead,
  Begins follow (fun kind => kind.startsStatement = false) →
    Tracks follow (words (.block inLoop)) ahead (p ahead)

theorem tracks_blockWith (h : TracksStatement inLoop p) : TracksBlock inLoop (blockWith p) := by
  intro follow ahead hf
  refine Tracks.many (p := fun kind => kind.startsStatement = true) (words_block inLoop)
    (fun ahead kind hkind => ?_) (fun hnil => ?_) ?_ ?_ (productive_words _) (fun ahead => ?_)
    fun items rest => tracks_pure _
  · rw [startsStatement_eq, Option.mem_def.mp hkind, Option.any_some]
  · exact nil_notMem_statement inLoop (nil_mem_mul.mp hnil).1
  · exact (begins_statement inLoop).mul_left (nil_notMem_statement inLoop)
  · rw [one_mul]
    exact hf.imp fun kind hkind => by simp [hkind]
  · exact .bind (h _ _ (begins_only_mul rfl)) (productive_only _) fun _ _ _ =>
      (tracks_expect _).map _

theorem tracks_body {body : Option (Parser Block)} (h : ∀ block ∈ body, TracksBlock inLoop block)
    (hf : Begins follow fun kind => kind.startsStatement = false) :
    Tracks follow (words (.block inLoop)) ahead (nested body id ahead) :=
  tracks_nested fun block hblock => h block hblock follow ahead hf

theorem tracks_setIndex (hf : Begins follow (· = .assign)) :
    Tracks follow index ahead (setIndex levels ahead) := by
  refine .eat _ (fun _ rest => ?_) (fun _ => tracks_pure none) ?_
  · exact .bind (tracks_expression levels (begins_only_mul rfl)) (productive_only _)
      fun _ _ _ => (tracks_expect _).map _
  · rw [one_mul]
    exact hf.imp fun kind hkind => by simp [hkind]

theorem tracks_guarded {body : Option (Parser Block)} (h : ∀ block ∈ body, TracksBlock inLoop block)
    (hf : Begins follow fun kind => kind.startsStatement = false) :
    Tracks follow (Rule.guarded inLoop) ahead (Grammar.guarded levels body ahead) := by
  refine .bind (tracks_expression levels (begins_only_mul_mul rfl)) (by simp)
    fun condition rest _ => ?_
  refine .after _ (by simp) fun _ rest => .after _ (by simp) fun _ rest => ?_
  exact (tracks_body h hf).map _

theorem begins_alternative (inLoop : Bool) :
    Begins (words (.alternative inLoop)) fun kind => kind.startsStatement = false := by
  rw [words_alternative, mul_assoc, add_mul, one_mul]
  exact .add (begins_only_mul rfl) (.add (begins_only_mul_mul rfl) (begins_only rfl))

theorem nil_notMem_alternative (inLoop : Bool) : [] ∉ words (.alternative inLoop) := by
  rw [words_alternative]
  simp [Language.mem_add, nil_mem_mul]

theorem tracks_otherwise {body : Option (Parser Block)}
    (h : ∀ block ∈ body, TracksBlock inLoop block)
    {f : Option Block → α} : Tracks follow
      ((only (.keyword .elseWord) * (only .newline * words (.block inLoop)) + 1) *
        only (.keyword .endif)) ahead
      ((do
        let last ← match ← eat? (.keyword .elseWord) with
          | none => pure none
          | some _ =>
            let _ ← expect .newline
            some <$> nested body id
        let _ ← expect (.keyword .endif)
        return f last) ahead) := by
  rw [add_mul, one_mul, mul_assoc]
  refine .eat _ (fun _ rest => ?_) (fun _ => (tracks_expect _).map _) (begins_only_mul nofun)
  rw [mul_assoc]
  refine .after _ (by simp) fun _ rest => ?_
  rw [bind_map_left]
  exact .bind (tracks_body h (begins_only_mul rfl)) (by simp) fun _ _ _ => (tracks_expect _).map _

theorem tracks_alternative {body : Option (Parser Block)}
    (h : ∀ block ∈ body, TracksBlock inLoop block)
    {f : List (Expression × Block) → Option Block → α} :
    Tracks follow (words (.alternative inLoop)) ahead ((do
      let rest ← many (isAt (.keyword .elseif)) do
        let _ ← expect (.keyword .elseif)
        Grammar.guarded levels body
      let last ← match ← eat? (.keyword .elseWord) with
        | none => pure none
        | some _ =>
          let _ ← expect .newline
          some <$> nested body id
      let _ ← expect (.keyword .endif)
      return f rest last) ahead) := by
  refine Tracks.many (words_alternative inLoop) (fun _ _ => isAt_iff_of_mem) (by simp)
    (begins_oneOf_mul fun _ => id) ?_ (productive_words _) (fun ahead => ?_) fun rest _ =>
      tracks_otherwise h
  · simp only [add_mul, one_mul, mul_assoc]
    exact .add (begins_only_mul nofun) (begins_only_mul nofun)
  · refine .after _ (by simp [Rule.guarded]) fun _ rest => tracks_guarded h ?_
    exact (begins_alternative inLoop).mul_left (nil_notMem_alternative inLoop)

theorem tracks_actionWith {deeper : Option (Bool → Parser Block)}
    (hd : ∀ block ∈ deeper, ∀ inLoop, TracksBlock inLoop (block inLoop))
    (hf : Begins follow (· = .newline)) :
    Tracks follow (words (.action inLoop)) ahead (actionWith levels deeper inLoop ahead) := by
  have hends : Begins follow fun kind => kind.endsExpression = true :=
    hf.imp fun kind hkind => by rw [hkind]; rfl
  have hbody (inLoop : Bool) : ∀ block ∈ deeper.map (· inLoop), TracksBlock inLoop block := by
    intro block hblock
    obtain ⟨all, hall, rfl⟩ := Option.map_eq_some_iff.mp hblock
    exact hd all hall inLoop
  have hne := productive_words (.action inLoop)
  rw [words_action] at hne ⊢
  refine tracks_peek fun found hfound => ?_
  split
  · refine .left (.after _ ?_ fun _ rest => .bind tracks_identifier ?_ fun id rest _ =>
      .bind (tracks_setIndex (begins_only_mul_mul rfl)) (by simp) fun index rest _ =>
        .after _ (by simp)
        fun _ rest => (tracks_expression levels hends).map _) ?_
    · simp [Rule.index]
    · simp [Rule.index]
    · simp [add_mul, mul_assoc, hfound]
  · rw [words_call]
    refine .right
      (.left (.after _ (by simp) fun _ rest => .bind tracks_identifier (by simp) fun id rest _ =>
      (tracks_argumentsWith (tracks_deeperOperand levels)).map _) ?_) ?_
    all_goals simp [add_mul, mul_assoc, hfound]
  · refine .right
      (.right (.left (.after _ ?_ fun _ rest => .bind (tracks_guarded (hbody inLoop) ?_) (by simp)
      fun first rest _ => tracks_alternative (hbody inLoop)) ?_) ?_) ?_
    · simp [Rule.guarded]
    · exact (begins_alternative inLoop).mul_left (nil_notMem_alternative inLoop)
    all_goals simp [mul_assoc, hfound]
  · refine .right (.right (.right (.after _ (by simp) fun _ rest => .after _ (by simp) fun _ rest =>
      .bind (tracks_body (hbody true) (begins_only_mul rfl)) (by simp) fun _ _ _ =>
        (tracks_expect _).map _) ?_) ?_) ?_
    all_goals simp [mul_assoc, hfound]
  · rename_i hset hcall hif hloop
    subst hfound
    refine tracks_unexpected hne ?_ _
    simp only [add_mul, mul_assoc, misses_add]
    exact ⟨misses_only_mul hset, misses_only_mul hcall, misses_only_mul hif, misses_only_mul hloop⟩

theorem tracks_returnValue (hf : Begins follow (· = .newline)) :
    Tracks follow (words .expression + 1) ahead (returnValue levels ahead) := by
  have hends : Begins follow fun kind => kind.endsExpression = true :=
    hf.imp fun kind hkind => by rw [hkind]; rfl
  have hexpression (h : ∀ kind ∈ kind? ahead, kind.startsExpression = false) :
      Misses ahead (words .expression * follow) :=
    (begins_expression.mul_left nil_notMem_expression).misses fun kind hkind =>
      by simp [h kind hkind]
  refine tracks_peek fun found hfound => ?_
  split
  · exact .right (tracks_pure _) (hexpression (by simp [hfound]))
  · exact .right (tracks_pure _) (hexpression (by simp [hfound, TokenKind.startsExpression]))
  · rename_i hnewline
    subst hfound
    refine .left ((tracks_expression levels hends).map _) ?_
    rw [one_mul]
    exact hf.misses fun kind hkind heq => hnewline (heq ▸ hkind)

theorem misses_exits (h : inLoop = true → kind? ahead ≠ some (.keyword .exitwhen)) :
    Misses ahead (exits inLoop * follow) := by
  cases inLoop with
  | true => exact mul_assoc _ _ follow ▸ misses_only_mul (h rfl)
  | false => simp [exits]

theorem tracks_statementWith {deeper : Option (Bool → Parser Block)}
    (hd : ∀ block ∈ deeper, ∀ inLoop, TracksBlock inLoop (block inLoop)) :
    TracksStatement inLoop (statementWith levels deeper inLoop) := by
  intro follow ahead hf
  have hends : Begins follow fun kind => kind.endsExpression = true :=
    hf.imp fun kind hkind => by rw [hkind]; rfl
  have hmisses (ahead : List Lexeme) (h : ∀ kind ∈ kind? ahead, ¬kind.startsAction = true) :
      Misses ahead (words (.action inLoop) * follow) :=
    ((begins_action inLoop).mul_left (nil_notMem_action inLoop)).misses h
  have hne := productive_words (.statement inLoop)
  rw [words_statement] at hne ⊢
  refine tracks_peek fun found hfound => ?_
  split
  · have haction := hmisses ahead (by simp [hfound, TokenKind.startsAction])
    split
    · rename_i hloop
      subst hloop
      refine .right (.right (.right (.after _ (by simp) fun _ _ =>
        (tracks_expression levels hends).map _) ?_) ?_) haction
      all_goals simp [mul_assoc, hfound]
    · rename_i hloop
      refine tracks_throw hne ?_ _
      simp only [add_mul, mul_assoc, misses_add]
      refine ⟨haction, ?_, ?_, misses_exits fun h => absurd h hloop⟩
      all_goals simp [hfound]
  · refine .right
      (.right (.left (.after _ (by simp) fun _ _ => (tracks_returnValue hf).map _) ?_) ?_) ?_
    · exact misses_exits fun _ => by simp [hfound]
    · simp [mul_assoc, hfound]
    · exact hmisses ahead (by simp [hfound, TokenKind.startsAction])
  · refine .right (.left (.after _ (by simp) fun _ rest => ?_) ?_) ?_
    · rw [get_bind]
      split
      · exact (tracks_actionWith hd hf).map _
      · rename_i hother
        refine tracks_unexpected (productive_words _)
          (hmisses rest fun kind hkind hstarts => hother ?_) _
        rw [startsAction_eq, Option.mem_def.mp hkind, Option.any_some, hstarts]
    · rw [add_mul]
      exact misses_add.mpr ⟨by simp [mul_assoc, hfound], misses_exits fun _ => by simp [hfound]⟩
    · exact hmisses ahead (by simp [hfound, TokenKind.startsAction])
  · rename_i hexit hreturn hdebug
    subst hfound
    refine .left ((tracks_actionWith hd hf).map _) ?_
    simp only [add_mul, mul_assoc, misses_add]
    exact ⟨misses_only_mul hdebug, misses_only_mul hreturn, misses_exits fun _ => hexit⟩

theorem tracks_statement (levels : Nat) (inLoop : Bool) :
    TracksStatement inLoop (statement levels inLoop) := by
  induction levels generalizing inLoop with
  | zero => exact tracks_statementWith nofun
  | succ levels ih =>
    refine tracks_statementWith ?_
    rintro _ ⟨⟩ inLoop
    exact tracks_blockWith (ih inLoop)

end Grammar

end Mapsmith.Script
