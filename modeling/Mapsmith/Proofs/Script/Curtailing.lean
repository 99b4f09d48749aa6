import Mapsmith.Proofs.Script.Combinators
import Mapsmith.Proofs.Script.Levels
import Mapsmith.Proofs.Script.Tracking

/-!
# Parsers with fewer levels

`curtails_statement`: a parser with fewer levels does what it does with more, unless it gives
up for lack of levels: it curtails the other one. So over the tokens of a tree that fits the
levels of the other, it gives that tree or gives up. Both go from the parts of a parser to the
whole, whatever the parts have done.
-/

namespace Mapsmith.Script

namespace Parser

-- ---------------------------------------------------------------------------
-- The same run or none
-- ---------------------------------------------------------------------------

/-- Whatever tokens are ahead, the one parser does what the other does or gives up. -/
def Curtails (p q : Parser α) : Prop :=
  ∀ ahead, p ahead = q ahead ∨ ∃ left, p ahead = .error .tooDeep left

theorem Curtails.refl (p : Parser α) : p.Curtails p := fun _ => .inl rfl

theorem Curtails.bind {p q : Parser α} {f g : α → Parser β} (h : p.Curtails q)
    (h' : ∀ a, (f a).Curtails (g a)) : (p >>= f).Curtails (q >>= g) := by
  intro ahead
  obtain heq | ⟨left, hdeep⟩ := h ahead
  · cases hrun : q ahead with
    | ok a rest =>
      rw [hrun] at heq
      rw [bind_ok heq, bind_ok hrun]
      exact h' a rest
    | error fault rest =>
      rw [hrun] at heq
      exact .inl (by rw [bind_error heq, bind_error hrun])
  · exact .inr ⟨left, bind_error hdeep⟩

theorem Curtails.after (p : Parser α) {f g : α → Parser β} (h : ∀ a, (f a).Curtails (g a)) :
    (p >>= f).Curtails (p >>= g) := (refl p).bind h

theorem Curtails.before {p q : Parser α} (h : p.Curtails q) (f : α → Parser β) :
    (p >>= f).Curtails (q >>= f) := h.bind fun a => refl (f a)

theorem Curtails.many {p q : Parser α} (h : p.Curtails q) (continues : List Lexeme → Bool) :
    (many continues p).Curtails (Parser.many continues q) := by
  have hfrom (bound : List Lexeme) (items : List α) :
      (manyFrom continues p bound items).Curtails (manyFrom continues q bound items) := by
    induction bound generalizing items with
    | nil =>
      rw [manyFrom, manyFrom]
      refine .after _ fun ahead => ?_
      split
      · exact h.before _
      · exact .refl _
    | cons lexeme bound ih =>
      rw [manyFrom, manyFrom]
      refine .after _ fun ahead => ?_
      split
      · exact h.bind fun a => ih (a :: items)
      · exact .refl _
  exact fun ahead => hfrom ahead [] ahead

theorem Curtails.commaSeparated {p q : Parser α} (h : p.Curtails q) :
    (commaSeparated p).Curtails (Parser.commaSeparated q) :=
  h.bind fun _ => Curtails.before (.many (.after _ fun _ => h) _) _

-- ---------------------------------------------------------------------------
-- Parsers that may give up
-- ---------------------------------------------------------------------------

/-- The run has given a result with the property before the rest, or has given up for
lack of levels. -/
inductive Finishes (result : α → Prop) (rest : List Lexeme) :
    EStateM.Result SyntaxFault (List Lexeme) α → Prop
  | ok {a} : result a → Finishes result rest (.ok a rest)
  | tooDeep {left} : Finishes result rest (.error .tooDeep left)

variable {result : α → Prop} {result' : β → Prop} {stop stop' : List Lexeme → Prop}

theorem Finishes.bind {p : Parser α} {f : α → Parser β} (h : Finishes result middle (p ahead))
    (h' : ∀ a, result a → Finishes result' rest (f a middle)) :
    Finishes result' rest ((p >>= f) ahead) := by
  generalize hrun : p ahead = outcome at h
  cases h with
  | ok ha =>
    rw [bind_ok hrun]
    exact h' _ ha
  | tooDeep =>
    rw [bind_error hrun]
    exact .tooDeep

/-- The parser takes the tokens to give a result with the property, or gives up. -/
def Tries (p : Parser α) (result : α → Prop) (tokens : List Token)
    (stop : List Lexeme → Prop) : Prop :=
  ∀ ahead rest, Ahead tokens ahead rest → stop rest → Finishes result rest (p ahead)

theorem Takes.tries {p : Parser α} (h : p.Takes result tokens stop) :
    p.Tries result tokens stop := by
  intro ahead rest ha hs
  obtain ⟨a, hrun, hr⟩ := h ahead rest ha hs
  exact hrun ▸ .ok hr

theorem Curtails.tries {p q : Parser α} (h : p.Curtails q) (hq : q.Takes result tokens stop) :
    p.Tries result tokens stop := by
  intro ahead rest ha hs
  obtain heq | ⟨left, hdeep⟩ := h ahead
  · exact heq ▸ hq.tries ahead rest ha hs
  · exact hdeep ▸ .tooDeep

theorem Tries.weaken {p : Parser α} (h : p.Tries result tokens stop)
    (himp : ∀ rest, stop' rest → stop rest) : p.Tries result tokens stop' :=
  fun ahead rest ha hs => h ahead rest ha (himp rest hs)

theorem Tries.bind {p : Parser α} {f : α → Parser β} (h : p.Tries result first stop)
    (h' : ∀ a, result a → (f a).Tries result' second stop')
    (hstop : ∀ ahead rest, Ahead second ahead rest → stop' rest → stop ahead) :
    (p >>= f).Tries result' (first ++ second) stop' := by
  intro ahead rest ha hs
  obtain ⟨middle, hfirst, hsecond⟩ := ahead_append.mp ha
  exact (h _ _ hfirst (hstop _ _ hsecond hs)).bind fun a hr => h' a hr _ _ hsecond hs

theorem Takes.before {p : Parser α} {f : α → Parser β} (h : p.Takes (· = a) first fun _ => True)
    (h' : (f a).Tries result' second stop') : (p >>= f).Tries result' (first ++ second) stop' := by
  refine h.tries.bind ?_ fun _ _ _ _ => trivial
  rintro _ rfl
  exact h'

theorem Tries.return {p : Parser α} (h : p.Tries result tokens stop) (f : α → β)
    (hf : ∀ a, result a → result' (f a)) :
    (p >>= fun a => pure (f a)).Tries result' tokens stop := by
  intro ahead rest ha hs
  exact (h ahead rest ha hs).bind fun a hr => .ok (hf a hr)

theorem Tries.position {f : Position → Parser α} (h : ∀ start, (f start).Tries result tokens stop) :
    (position >>= f).Tries result tokens stop := fun ahead => h _ ahead

theorem Tries.after {f : Position → Parser α} (token : Token)
    (h : ∀ start, (f start).Tries result tokens stop) :
    (expect token.kind >>= f).Tries result (token :: tokens) stop := by
  rintro _ rest ⟨lexeme, others, rfl, rfl, ha⟩ hs
  rw [bind_ok (expect_iff.mpr ⟨lexeme, rfl, rfl, rfl⟩)]
  exact h lexeme.position others rest ha hs

theorem Tries.eat {f : Option Position → Parser α} (token : Token)
    (h : ∀ start, (f (some start)).Tries result tokens stop) :
    (eat? token.kind >>= f).Tries result (token :: tokens) stop := by
  rintro _ rest ⟨lexeme, others, rfl, rfl, ha⟩ hs
  rw [eat?_some_bind rfl]
  exact h lexeme.position others rest ha hs

theorem Tries.skip {f : Option Position → Parser α} {kind : TokenKind}
    (hkind : ∀ ahead rest, Ahead tokens ahead rest → kind? ahead ≠ some kind)
    (h : (f none).Tries result tokens stop) : (eat? kind >>= f).Tries result tokens stop := by
  intro ahead rest ha hs
  rw [eat?_none_bind (hkind ahead rest ha)]
  exact h ahead rest ha hs

theorem Tries.many {continues : List Lexeme → Bool} {item : Parser α} {items : List γ}
    {tokens : γ → List Token} {result : γ → α → Prop} {f : List α → Parser β}
    (hless : ∀ ahead a rest, item ahead = .ok a rest → rest.length < ahead.length)
    (h : ∀ c ∈ items, item.Tries (result c) (tokens c) fun _ => True)
    (hstart : ∀ c ∈ items, ∀ ahead rest, Ahead (tokens c) ahead rest → continues ahead = true)
    (hend : ∀ ahead rest, Ahead last ahead rest → stop rest → continues ahead = false)
    (hlast : ∀ found, List.Forall₂ result items found → (f found).Tries result' last stop) :
    (many continues item >>= f).Tries result' (items.flatMap tokens ++ last) stop := by
  intro ahead rest ha hs
  induction items generalizing ahead f with
  | nil =>
    rw [many_bind hless, hend ahead rest ha hs]
    exact hlast [] .nil ahead rest ha hs
  | cons c items ih =>
    obtain ⟨hc, hcs⟩ := List.forall_mem_cons.mp h
    obtain ⟨hstartc, hstarts⟩ := List.forall_mem_cons.mp hstart
    rw [List.flatMap_cons, List.append_assoc] at ha
    obtain ⟨middle, hfirst, hsecond⟩ := ahead_append.mp ha
    rw [many_bind hless, if_pos (hstartc _ _ hfirst)]
    exact (hc _ _ hfirst trivial).bind fun a hr =>
      ih hcs hstarts (fun found hfound => hlast (a :: found) (.cons hr hfound)) _ hsecond

theorem Tries.line {p : Parser α} (h : p.Tries result tokens (Before (· == .newline))) :
    (do let a ← p; let _ ← expect .newline; return a : Parser α).Tries result
      (tokens ++ [.newline]) stop :=
  h.bind (fun _ hr => .after .newline fun _ => (takes_pure hr).tries)
    fun _ _ ha _ => Ahead.before ha rfl

def TriesLine (p : Parser α) (result : α → Prop) (tokens : List Token) : Prop :=
  ∀ ahead rest, Ahead (tokens ++ [.newline]) ahead rest ∨ Ahead tokens ahead [] ∧ rest = [] →
    Finishes result rest (p ahead)

theorem finishes_lines {tokens : γ → List Token} {continues : List Lexeme → Bool} {item : Parser α}
    {result : γ → α → Prop} {f : List α → Parser β}
    (hless : ∀ ahead a rest, item ahead = .ok a rest → rest.length < ahead.length)
    (hlines : Lines tokens others items ts) (ha : Ahead ts ahead [])
    (h : ∀ c ∈ items, item.TriesLine (result c) (tokens c))
    (hstart : ∀ c ahead more rest, Ahead (tokens c ++ more) ahead rest → continues ahead = true)
    (hend : ∀ ts ahead, others ts → Ahead ts ahead [] → continues ahead = false)
    (hlast : ∀ found ts ahead, List.Forall₂ result items found → others ts → Ahead ts ahead [] →
      Finishes result' [] (f found ahead)) :
    Finishes result' [] ((many continues item >>= f) ahead) := by
  induction hlines generalizing ahead f with
  | nil hothers =>
    rw [many_bind hless, hend _ _ hothers ha]
    exact hlast [] _ _ .nil hothers ha
  | @last c hothers =>
    rw [many_bind hless, if_pos (hstart c _ _ _ ha.append_nil)]
    refine (h c List.mem_cons_self ahead [] (.inr ⟨ha, rfl⟩)).bind fun a hr => ?_
    rw [many_bind hless, hend [] [] hothers rfl]
    exact hlast [a] [] [] (.cons hr .nil) hothers rfl
  | @cons c items ts hrest ih =>
    obtain ⟨hc, hcs⟩ := List.forall_mem_cons.mp h
    obtain ⟨middle, hline, hothers⟩ := ha.line
    rw [many_bind hless, if_pos (hstart c _ _ _ hline)]
    exact (hc ahead middle (.inl hline)).bind fun a hr => ih hothers hcs
      fun found ts ahead hfound => hlast (a :: found) ts ahead (.cons hr hfound)

end Parser

namespace Grammar

open Mapsmith.Script.Parser

/-- What stands one level deeper is curtailed too; there may be no level for it. -/
def CurtailsDeeper (deeper deeper' : Option (Parser α)) : Prop :=
  ∀ p ∈ deeper, ∃ q ∈ deeper', p.Curtails q

theorem curtails_nested {deeper deeper' : Option (Parser α)} {rule : Parser α → Parser β}
    (hd : CurtailsDeeper deeper deeper')
    (h : ∀ p q : Parser α, p.Curtails q → (rule p).Curtails (rule q)) :
    (nested deeper rule).Curtails (nested deeper' rule) := by
  cases deeper with
  | none => exact fun ahead => .inr ⟨ahead, rfl⟩
  | some p =>
    obtain ⟨q, rfl, hpq⟩ := hd p rfl
    exact h p q hpq

-- ---------------------------------------------------------------------------
-- Expressions
-- ---------------------------------------------------------------------------

theorem curtails_expressionWith {p q : Parser Operand} (h : p.Curtails q) :
    (expressionWith p).Curtails (expressionWith q) :=
  h.bind fun _ => Curtails.before (.many (.after _ fun _ => h.before _) _) _

section

variable {deeper deeper' : Option (Parser Operand)} (hd : CurtailsDeeper deeper deeper')

include hd

theorem curtails_nestedExpression :
    (nested deeper expressionWith).Curtails (nested deeper' expressionWith) :=
  curtails_nested hd fun _ _ => curtails_expressionWith

theorem curtails_argumentsWith : (argumentsWith deeper).Curtails (argumentsWith deeper') := by
  refine .after _ fun _ => .after _ fun ahead => ?_
  split
  · exact .refl _
  · exact (curtails_nestedExpression hd).commaSeparated.before _

theorem curtails_reference (id : String) :
    (reference id deeper).Curtails (reference id deeper') := by
  refine .after _ fun found => ?_
  split
  · exact (curtails_argumentsWith hd).before _
  · exact .after _ fun _ => (curtails_nestedExpression hd).before _
  · exact .refl _

theorem curtails_operandWith : (operandWith deeper).Curtails (operandWith deeper') := by
  refine .after _ fun found => ?_
  split
  · split
    · exact curtails_nested hd fun _ _ h => .after _ fun _ => h.before _
    · exact .refl _
  · exact .after _ fun id => curtails_reference hd id
  · exact .refl _
  · exact .after _ fun _ => (curtails_nestedExpression hd).before _
  · exact .refl _

end

theorem operand_eq (n : Nat) : operand n = operandWith (deeperOperand n) := by
  cases n <;> rfl

theorem curtails_deeperOperand (h : n ≤ m) :
    CurtailsDeeper (deeperOperand n) (deeperOperand m) := by
  induction n generalizing m with
  | zero => exact nofun
  | succ n ih =>
    obtain ⟨m, rfl⟩ := Nat.exists_eq_add_of_le' (Nat.one_le_of_lt h)
    rintro _ ⟨⟩
    refine ⟨operand m, rfl, ?_⟩
    rw [operand_eq, operand_eq]
    exact curtails_operandWith (ih (Nat.le_of_succ_le_succ h))

theorem curtails_expression (h : n ≤ m) : (expression n).Curtails (expression m) := by
  rw [expression, expression, operand_eq, operand_eq]
  exact curtails_expressionWith (curtails_operandWith (curtails_deeperOperand h))

-- ---------------------------------------------------------------------------
-- Statements
-- ---------------------------------------------------------------------------

theorem curtails_blockWith {p q : Parser Statement} (h : p.Curtails q) :
    (blockWith p).Curtails (blockWith q) := Curtails.before (.many (h.before _) _) _

theorem curtails_setIndex (h : n ≤ m) : (setIndex n).Curtails (setIndex m) := by
  refine .after _ fun found => ?_
  cases found with
  | none => exact .refl _
  | some _ => exact (curtails_expression h).before _

theorem curtails_guarded (h : n ≤ m) {body body' : Option (Parser Block)}
    (hd : CurtailsDeeper body body') : (guarded n body).Curtails (guarded m body') :=
  (curtails_expression h).bind fun _ => .after _ fun _ => .after _ fun _ =>
    (curtails_nested hd fun _ _ => id).before _

section

variable {n m : Nat} {deeper deeper' : Option (Bool → Parser Block)} (h : n ≤ m)
  (hd : ∀ inLoop, CurtailsDeeper (deeper.map (· inLoop)) (deeper'.map (· inLoop)))

include h hd

theorem curtails_actionWith (inLoop : Bool) :
    (actionWith n deeper inLoop).Curtails (actionWith m deeper' inLoop) := by
  refine .after _ fun found => ?_
  split
  · exact .after _ fun _ => .after _ fun _ => (curtails_setIndex h).bind fun _ => .after _ fun _ =>
      (curtails_expression h).before _
  · exact .after _ fun _ => .after _ fun _ =>
      (curtails_argumentsWith (curtails_deeperOperand h)).before _
  · have hguarded := curtails_guarded h (hd inLoop)
    refine .after _ fun _ => hguarded.bind fun _ =>
      (Curtails.many (.after _ fun _ => hguarded) _).bind fun _ => .after _ fun found => ?_
    cases found with
    | none => exact .refl _
    | some _ =>
      exact .after _ fun _ => ((curtails_nested (hd inLoop) fun _ _ => id).before _).before _
  · exact .after _ fun _ => .after _ fun _ => (curtails_nested (hd true) fun _ _ => id).before _
  · exact .refl _

theorem curtails_statementWith (inLoop : Bool) :
    (statementWith n deeper inLoop).Curtails (statementWith m deeper' inLoop) := by
  have haction := curtails_actionWith h hd inLoop
  have hvalue : (returnValue n).Curtails (returnValue m) := by
    refine .after _ fun found => ?_
    split
    · exact .refl _
    · exact .refl _
    · exact (curtails_expression h).before _
  refine .after _ fun found => ?_
  split
  · split
    · exact .after _ fun _ => (curtails_expression h).before _
    · exact .refl _
  · exact .after _ fun _ => hvalue.before _
  · refine .after _ fun _ => .after _ fun ahead => ?_
    split
    · exact haction.before _
    · exact .refl _
  · exact haction.before _

end

theorem curtails_statement (h : n ≤ m) (inLoop : Bool) :
    (statement n inLoop).Curtails (statement m inLoop) := by
  induction n generalizing m inLoop with
  | zero =>
    cases m with
    | zero => exact .refl _
    | succ m =>
      refine curtails_statementWith h (fun inLoop => ?_) inLoop
      rintro _ ⟨⟩
  | succ n ih =>
    obtain ⟨m, rfl⟩ := Nat.exists_eq_add_of_le' (Nat.one_le_of_lt h)
    refine curtails_statementWith h (fun inLoop => ?_) inLoop
    rintro _ ⟨⟩
    exact ⟨_, rfl, curtails_blockWith (ih (Nat.le_of_succ_le_succ h) inLoop)⟩

end Grammar

end Mapsmith.Script
