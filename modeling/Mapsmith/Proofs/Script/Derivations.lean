import Mapsmith.Proofs.Script.Combinators
import Mapsmith.Proofs.Script.Levels
import Mapsmith.Proofs.Script.Rules

/-!
# Trees and derivations

`Derives.tree`: the tokens of a tree that fits so many levels are derived within them, and
canonical tokens that are derived are those of a tree.
-/

namespace Mapsmith.Script

-- ---------------------------------------------------------------------------
-- Trees are derived
-- ---------------------------------------------------------------------------

mutual

theorem Expression.derives : ∀ (e : Expression) (n : Nat), e.Fits n →
    Derives .expression n (e.tokens.map Token.kind)
  | .chain first rest, n, h => by
    rw [Expression.tokens, List.map_append]
    exact .expression (first.derives n h.1) (rest.derives n h.2)

theorem Links.derives : ∀ (links : Links) (n : Nat), links.Fits n →
    Derives .links n (links.tokens.map Token.kind)
  | .nil, n, _ => .noLinks
  | .cons op operand rest, n, h => by
    rw [Links.tokens, List.map_cons, List.map_append]
    exact .links op.2 (operand.derives n h.1) (rest.derives n h.2)

theorem Operand.derives : ∀ (e : Operand) (n : Nat), e.Fits n →
    Derives .operand n (e.tokens.map Token.kind)
  | .unary op operand, _, ⟨m, rfl, h⟩ => by
    rw [Operand.tokens, List.map_cons]
    exact .unary op.2 (operand.derives m h)
  | .literal kind text, n, _ => .literal
  | .name id, n, _ => .name
  | .call id arguments, n, h => by
    rw [Operand.tokens, List.map_cons, List.map_cons, List.map_append]
    exact .called (.call (arguments.derives n h))
  | .element id index, _, ⟨m, rfl, h⟩ => by
    rw [Operand.tokens, List.map_cons, List.map_cons, List.map_append]
    exact .element (index.derives m h)
  | .function id, n, _ => .function
  | .parens inner, _, ⟨m, rfl, h⟩ => by
    rw [Operand.tokens, List.map_cons, List.map_append]
    exact .parens (inner.derives m h)

theorem Arguments.derives : ∀ (arguments : Arguments) (n : Nat), arguments.Fits n →
    Derives .arguments n (arguments.tokens.map Token.kind)
  | .nil, n, _ => .noArguments
  | .cons argument rest, _, ⟨⟨m, rfl, h⟩, hrest⟩ => by
    rw [Arguments.tokens, List.map_append]
    exact .arguments (argument.derives m h) (rest.derivesMore (m + 1) hrest)

theorem Arguments.derivesMore : ∀ (arguments : Arguments) (n : Nat), arguments.Fits n →
    Derives .moreArguments n (arguments.moreTokens.map Token.kind)
  | .nil, n, _ => .lastArgument
  | .cons argument rest, _, ⟨⟨m, rfl, h⟩, hrest⟩ => by
    rw [Arguments.moreTokens, List.map_cons, List.map_append]
    exact .moreArguments (argument.derives m h) (rest.derivesMore (m + 1) hrest)

end

mutual

theorem Statement.derives : ∀ (statement : Statement) (n : Nat) (inLoop : Bool),
    statement.Fits n inLoop → Derives (.statement inLoop) n (statement.tokens.map Token.kind)
  | .action action, n, inLoop, h => by
    rw [Statement.tokens]
    exact .action (action.derives n inLoop h)
  | .debug action, n, inLoop, h => by
    rw [Statement.tokens, List.map_cons]
    exact .debug (action.derives n inLoop h)
  | .exitwhen condition, n, _, ⟨rfl, h⟩ => by
    rw [Statement.tokens, List.map_cons]
    exact .exitwhen (condition.derives n h)
  | .returns none, n, inLoop, _ => .returns
  | .returns (some value), n, inLoop, h => by
    rw [Statement.tokens, List.map_cons]
    exact .returnsValue (value.derives n h)

theorem Action.derives : ∀ (action : Action) (n : Nat) (inLoop : Bool),
    action.Fits n inLoop → Derives (.action inLoop) n (action.tokens.map Token.kind)
  | .set id none value, n, inLoop, h => by
    rw [Action.tokens, List.map_cons, List.map_cons, List.map_cons]
    exact .set (value.derives n h)
  | .set id (some index) value, n, inLoop, h => by
    rw [Action.tokens]
    simp only [List.map_cons, List.map_append]
    exact .setElement (index.derives n h.1) (value.derives n h.2)
  | .call id arguments, n, inLoop, h => by
    rw [Action.tokens, List.map_cons]
    rw [Operand.tokens, List.map_cons, List.map_cons, List.map_append]
    exact .callAction (.call (arguments.derives n h))
  | .branch condition body alternative, n, inLoop, h => by
    obtain ⟨hc, ⟨m, rfl, hb⟩, ha⟩ := h
    rw [Action.tokens]
    simp only [List.map_cons, List.map_append]
    exact .branch (condition.derives _ hc) (body.derives m inLoop hb)
      (alternative.derives _ inLoop ha)
  | .loop body, _, inLoop, ⟨m, rfl, h⟩ => by
    rw [Action.tokens]
    simp only [List.map_cons, List.map_append]
    exact .loop (body.derives m true h)

theorem Block.derives : ∀ (block : Block) (n : Nat) (inLoop : Bool),
    block.Fits n inLoop → Derives (.block inLoop) n (block.tokens.map Token.kind)
  | .nil, n, inLoop, _ => .noStatements
  | .cons statement rest, n, inLoop, h => by
    rw [Block.tokens, List.map_append, List.map_cons]
    exact .block (statement.derives n inLoop h.1) (rest.derives n inLoop h.2)

theorem Alternative.derives : ∀ (alternative : Alternative) (n : Nat) (inLoop : Bool),
    alternative.Fits n inLoop → Derives (.alternative inLoop) n (alternative.tokens.map Token.kind)
  | .nothing, n, inLoop, _ => .nothing
  | .otherwise body, _, inLoop, ⟨m, rfl, h⟩ => by
    rw [Alternative.tokens]
    simp only [List.map_cons, List.map_append]
    exact .otherwise (body.derives m inLoop h)
  | .elseif condition body alternative, n, inLoop, h => by
    obtain ⟨hc, ⟨m, rfl, hb⟩, ha⟩ := h
    rw [Alternative.tokens]
    simp only [List.map_cons, List.map_append]
    exact .elseif (condition.derives _ hc) (body.derives m inLoop hb)
      (alternative.derives _ inLoop ha)

end

-- ---------------------------------------------------------------------------
-- What is derived is a tree
-- ---------------------------------------------------------------------------

/-- Canonical tokens of the kinds. -/
def OfKinds (kinds : List TokenKind) (tokens : List Token) : Prop :=
  tokens.map Token.kind = kinds ∧ ∀ token ∈ tokens, token.Canonical

theorem ofKinds_nil : OfKinds [] tokens ↔ tokens = [] := by
  simp +contextual [OfKinds]

theorem ofKinds_append : OfKinds (first ++ second) tokens ↔
    ∃ ts ts', tokens = ts ++ ts' ∧ OfKinds first ts ∧ OfKinds second ts' := by
  constructor
  · rintro ⟨hkinds, hcanonical⟩
    obtain ⟨ts, ts', rfl, rfl, rfl⟩ := List.map_eq_append_iff.mp hkinds
    obtain ⟨hts, hts'⟩ := List.forall_mem_append.mp hcanonical
    exact ⟨ts, ts', rfl, ⟨rfl, hts⟩, rfl, hts'⟩
  · rintro ⟨ts, ts', rfl, ⟨rfl, hts⟩, rfl, hts'⟩
    exact ⟨List.map_append, List.forall_mem_append.mpr ⟨hts, hts'⟩⟩

theorem ofKinds_cons : OfKinds (kind :: kinds) tokens ↔ ∃ token others, tokens = token :: others ∧
    token.kind = kind ∧ token.Canonical ∧ OfKinds kinds others := by
  constructor
  · rintro ⟨hkinds, hcanonical⟩
    obtain ⟨token, others, rfl, rfl, rfl⟩ := List.map_eq_cons_iff.mp hkinds
    obtain ⟨htoken, hothers⟩ := List.forall_mem_cons.mp hcanonical
    exact ⟨token, others, rfl, rfl, htoken, rfl, hothers⟩
  · rintro ⟨token, others, rfl, rfl, htoken, rfl, hothers⟩
    exact ⟨rfl, List.forall_mem_cons.mpr ⟨htoken, hothers⟩⟩

theorem ofKinds_fixed (token : Token) (ht : token.Fixed) : OfKinds (token.kind :: kinds) tokens ↔
    ∃ others, tokens = token :: others ∧ OfKinds kinds others := by
  rw [ofKinds_cons]
  constructor
  · rintro ⟨found, others, rfl, hkind, hcanonical, hothers⟩
    exact ⟨others, by rw [hcanonical.eq ht.canonical hkind ht.fixed], hothers⟩
  · rintro ⟨others, rfl, hothers⟩
    exact ⟨token, others, rfl, rfl, ht.canonical, hothers⟩

theorem ofKinds_keyword : OfKinds (.keyword word :: kinds) tokens ↔
    ∃ others, tokens = .keyword word :: others ∧ OfKinds kinds others :=
  ofKinds_fixed (.keyword word) (by simp)

theorem ofKinds_operator : OfKinds (.operator op :: kinds) tokens ↔
    ∃ others, tokens = .operator op :: others ∧ OfKinds kinds others :=
  ofKinds_fixed (.operator op) (by simp)

theorem ofKinds_delimiter : OfKinds (.delimiter mark :: kinds) tokens ↔
    ∃ others, tokens = .delimiter mark :: others ∧ OfKinds kinds others :=
  ofKinds_fixed (.delimiter mark) (by simp)

theorem ofKinds_assign : OfKinds (.assign :: kinds) tokens ↔
    ∃ others, tokens = .assign :: others ∧ OfKinds kinds others := ofKinds_fixed .assign (by simp)

theorem ofKinds_newline : OfKinds (.newline :: kinds) tokens ↔
    ∃ others, tokens = .newline :: others ∧ OfKinds kinds others := ofKinds_fixed .newline (by simp)

theorem ofKinds_identifier : OfKinds (.identifier :: kinds) tokens ↔ ∃ id others,
    tokens = .identifier id :: others ∧ TokenKind.ofWord? id = none ∧ OfKinds kinds others := by
  rw [ofKinds_cons]
  constructor
  · rintro ⟨⟨_, text⟩, others, rfl, ⟨⟩, hcanonical, hothers⟩
    exact ⟨text, others, rfl, hcanonical, hothers⟩
  · rintro ⟨id, others, rfl, hcanonical, hothers⟩
    exact ⟨_, others, rfl, rfl, hcanonical, hothers⟩

theorem ofKinds_literal : OfKinds (.literal kind :: kinds) tokens ↔
    ∃ text others, tokens = ⟨.literal kind, text⟩ :: others ∧ OfKinds kinds others := by
  rw [ofKinds_cons]
  constructor
  · rintro ⟨⟨_, text⟩, others, rfl, ⟨⟩, -, hothers⟩
    exact ⟨text, others, rfl, hothers⟩
  · rintro ⟨text, others, rfl, hothers⟩
    exact ⟨_, others, rfl, rfl, trivial, hothers⟩

/-- The tokens are those of a tree of the rule that fits the levels. -/
def Rule.Tree (n : Nat) (tokens : List Token) : Rule → Prop
  | .expression => ∃ e : Expression, e.Fits n ∧ e.tokens = tokens
  | .links => ∃ links : Links, links.Fits n ∧ links.tokens = tokens
  | .operand => ∃ e : Operand, e.Fits n ∧ e.tokens = tokens
  | .call => ∃ id arguments, arguments.Fits n ∧ (Operand.call id arguments).tokens = tokens
  | .arguments => ∃ arguments : Arguments, arguments.Fits n ∧ arguments.tokens = tokens
  | .moreArguments => ∃ arguments : Arguments, arguments.Fits n ∧ arguments.moreTokens = tokens
  | .statement inLoop => ∃ statement : Statement, statement.Fits n inLoop ∧
    statement.tokens = tokens
  | .action inLoop => ∃ action : Action, action.Fits n inLoop ∧ action.tokens = tokens
  | .block inLoop => ∃ block : Block, block.Fits n inLoop ∧ block.tokens = tokens
  | .alternative inLoop =>
    ∃ alternative : Alternative, alternative.Fits n inLoop ∧ alternative.tokens = tokens

theorem Derives.tree (h : Derives rule n kinds) : ∀ tokens, OfKinds kinds tokens →
    rule.Tree n tokens := by
  induction h with
  | expression _ _ ihfirst ihrest =>
    intro tokens ht
    obtain ⟨_, _, rfl, hfirst, hrest⟩ := ofKinds_append.mp ht
    obtain ⟨first, hf, rfl⟩ := ihfirst _ hfirst
    obtain ⟨rest, hr, rfl⟩ := ihrest _ hrest
    exact ⟨.chain first rest, ⟨hf, hr⟩, rfl⟩
  | noLinks =>
    intro tokens ht
    cases ofKinds_nil.mp ht
    exact ⟨.nil, trivial, rfl⟩
  | @links n op operand rest hop _ _ ihoperand ihrest =>
    intro tokens ht
    simp only [ofKinds_operator, ofKinds_append] at ht
    obtain ⟨_, rfl, _, _, rfl, hoperand, hrest⟩ := ht
    obtain ⟨operand, ho, rfl⟩ := ihoperand _ hoperand
    obtain ⟨rest, hr, rfl⟩ := ihrest _ hrest
    exact ⟨.cons ⟨op, hop⟩ operand rest, ⟨ho, hr⟩, rfl⟩
  | @unary n op operand hop _ ih =>
    intro tokens ht
    obtain ⟨_, rfl, hoperand⟩ := ofKinds_operator.mp ht
    obtain ⟨operand, ho, rfl⟩ := ih _ hoperand
    exact ⟨.unary ⟨op, hop⟩ operand, ⟨_, rfl, ho⟩, rfl⟩
  | @literal n kind =>
    intro tokens ht
    simp only [ofKinds_literal, ofKinds_nil] at ht
    obtain ⟨text, _, rfl, rfl⟩ := ht
    exact ⟨.literal kind text, trivial, rfl⟩
  | name =>
    intro tokens ht
    simp only [ofKinds_identifier, ofKinds_nil] at ht
    obtain ⟨id, _, rfl, -, rfl⟩ := ht
    exact ⟨.name id, trivial, rfl⟩
  | called _ ih =>
    intro tokens ht
    obtain ⟨id, arguments, ha, rfl⟩ := ih _ ht
    exact ⟨.call id arguments, ha, rfl⟩
  | element _ ih =>
    intro tokens ht
    simp only [ofKinds_identifier, ofKinds_delimiter, ofKinds_append, ofKinds_nil] at ht
    obtain ⟨id, _, rfl, -, _, rfl, _, _, rfl, hindex, _, rfl, rfl⟩ := ht
    obtain ⟨index, hi, rfl⟩ := ih _ hindex
    exact ⟨.element id index, ⟨_, rfl, hi⟩, rfl⟩
  | function =>
    intro tokens ht
    simp only [ofKinds_keyword, ofKinds_identifier, ofKinds_nil] at ht
    obtain ⟨_, rfl, id, _, rfl, -, rfl⟩ := ht
    exact ⟨.function id, trivial, rfl⟩
  | parens _ ih =>
    intro tokens ht
    simp only [ofKinds_delimiter, ofKinds_append, ofKinds_nil] at ht
    obtain ⟨_, rfl, _, _, rfl, hinner, _, rfl, rfl⟩ := ht
    obtain ⟨inner, hi, rfl⟩ := ih _ hinner
    exact ⟨.parens inner, ⟨_, rfl, hi⟩, rfl⟩
  | call _ ih =>
    intro tokens ht
    simp only [ofKinds_identifier, ofKinds_delimiter, ofKinds_append, ofKinds_nil] at ht
    obtain ⟨id, _, rfl, -, _, rfl, _, _, rfl, harguments, _, rfl, rfl⟩ := ht
    obtain ⟨arguments, ha, rfl⟩ := ih _ harguments
    exact ⟨id, arguments, ha, rfl⟩
  | noArguments | lastArgument =>
    intro tokens ht
    cases ofKinds_nil.mp ht
    exact ⟨.nil, trivial, rfl⟩
  | arguments _ _ ihfirst ihrest =>
    intro tokens ht
    obtain ⟨_, _, rfl, hfirst, hrest⟩ := ofKinds_append.mp ht
    obtain ⟨first, hf, rfl⟩ := ihfirst _ hfirst
    obtain ⟨rest, hr, rfl⟩ := ihrest _ hrest
    exact ⟨.cons first rest, ⟨⟨_, rfl, hf⟩, hr⟩, rfl⟩
  | moreArguments _ _ ihnext ihrest =>
    intro tokens ht
    simp only [ofKinds_delimiter, ofKinds_append] at ht
    obtain ⟨_, rfl, _, _, rfl, hnext, hrest⟩ := ht
    obtain ⟨next, hn, rfl⟩ := ihnext _ hnext
    obtain ⟨rest, hr, rfl⟩ := ihrest _ hrest
    exact ⟨.cons next rest, ⟨⟨_, rfl, hn⟩, hr⟩, rfl⟩
  | action _ ih =>
    intro tokens ht
    obtain ⟨action, ha, rfl⟩ := ih _ ht
    exact ⟨.action action, ha, rfl⟩
  | debug _ ih =>
    intro tokens ht
    obtain ⟨_, rfl, haction⟩ := ofKinds_keyword.mp ht
    obtain ⟨action, ha, rfl⟩ := ih _ haction
    exact ⟨.debug action, ha, rfl⟩
  | exitwhen _ ih =>
    intro tokens ht
    obtain ⟨_, rfl, hcondition⟩ := ofKinds_keyword.mp ht
    obtain ⟨condition, hc, rfl⟩ := ih _ hcondition
    exact ⟨.exitwhen condition, ⟨rfl, hc⟩, rfl⟩
  | returns =>
    intro tokens ht
    simp only [ofKinds_keyword, ofKinds_nil] at ht
    obtain ⟨_, rfl, rfl⟩ := ht
    exact ⟨.returns none, trivial, rfl⟩
  | returnsValue _ ih =>
    intro tokens ht
    obtain ⟨_, rfl, hvalue⟩ := ofKinds_keyword.mp ht
    obtain ⟨value, hv, rfl⟩ := ih _ hvalue
    exact ⟨.returns (some value), hv, rfl⟩
  | set _ ih =>
    intro tokens ht
    simp only [ofKinds_keyword, ofKinds_identifier, ofKinds_assign] at ht
    obtain ⟨_, rfl, id, _, rfl, -, _, rfl, hvalue⟩ := ht
    obtain ⟨value, hv, rfl⟩ := ih _ hvalue
    exact ⟨.set id none value, hv, rfl⟩
  | setElement _ _ ihindex ihvalue =>
    intro tokens ht
    simp only [ofKinds_keyword, ofKinds_identifier, ofKinds_delimiter, ofKinds_append,
      ofKinds_assign] at ht
    obtain ⟨_, rfl, id, _, rfl, -, _, rfl, _, _, rfl, hindex, _, rfl, _, rfl, hvalue⟩ := ht
    obtain ⟨index, hi, rfl⟩ := ihindex _ hindex
    obtain ⟨value, hv, rfl⟩ := ihvalue _ hvalue
    exact ⟨.set id (some index) value, ⟨hi, hv⟩, rfl⟩
  | callAction _ ih =>
    intro tokens ht
    obtain ⟨_, rfl, hcall⟩ := ofKinds_keyword.mp ht
    obtain ⟨id, arguments, ha, rfl⟩ := ih _ hcall
    exact ⟨.call id arguments, ha, rfl⟩
  | branch _ _ _ ihcondition ihbody ihalternative =>
    intro tokens ht
    simp only [ofKinds_keyword, ofKinds_append, ofKinds_newline] at ht
    obtain ⟨_, rfl, _, _, rfl, hcondition, _, rfl, _, rfl, _, _, rfl, hbody, halternative⟩ := ht
    obtain ⟨condition, hc, rfl⟩ := ihcondition _ hcondition
    obtain ⟨body, hb, rfl⟩ := ihbody _ hbody
    obtain ⟨alternative, ha, rfl⟩ := ihalternative _ halternative
    exact ⟨.branch condition body alternative, ⟨hc, ⟨_, rfl, hb⟩, ha⟩, rfl⟩
  | loop _ ih =>
    intro tokens ht
    simp only [ofKinds_keyword, ofKinds_append, ofKinds_newline, ofKinds_nil] at ht
    obtain ⟨_, rfl, _, rfl, _, _, rfl, hbody, _, rfl, rfl⟩ := ht
    obtain ⟨body, hb, rfl⟩ := ih _ hbody
    exact ⟨.loop body, ⟨_, rfl, hb⟩, rfl⟩
  | noStatements =>
    intro tokens ht
    cases ofKinds_nil.mp ht
    exact ⟨.nil, trivial, rfl⟩
  | block _ _ ihstatement ihrest =>
    intro tokens ht
    simp only [ofKinds_append, ofKinds_newline] at ht
    obtain ⟨_, _, rfl, hstatement, _, rfl, hrest⟩ := ht
    obtain ⟨statement, hs, rfl⟩ := ihstatement _ hstatement
    obtain ⟨rest, hr, rfl⟩ := ihrest _ hrest
    exact ⟨.cons statement rest, ⟨hs, hr⟩, rfl⟩
  | nothing =>
    intro tokens ht
    simp only [ofKinds_keyword, ofKinds_nil] at ht
    obtain ⟨_, rfl, rfl⟩ := ht
    exact ⟨.nothing, trivial, rfl⟩
  | otherwise _ ih =>
    intro tokens ht
    simp only [ofKinds_keyword, ofKinds_append, ofKinds_newline, ofKinds_nil] at ht
    obtain ⟨_, rfl, _, rfl, _, _, rfl, hbody, _, rfl, rfl⟩ := ht
    obtain ⟨body, hb, rfl⟩ := ih _ hbody
    exact ⟨.otherwise body, ⟨_, rfl, hb⟩, rfl⟩
  | elseif _ _ _ ihcondition ihbody ihalternative =>
    intro tokens ht
    simp only [ofKinds_keyword, ofKinds_append, ofKinds_newline] at ht
    obtain ⟨_, rfl, _, _, rfl, hcondition, _, rfl, _, rfl, _, _, rfl, hbody, halternative⟩ := ht
    obtain ⟨condition, hc, rfl⟩ := ihcondition _ hcondition
    obtain ⟨body, hb, rfl⟩ := ihbody _ hbody
    obtain ⟨alternative, ha, rfl⟩ := ihalternative _ halternative
    exact ⟨.elseif condition body alternative, ⟨hc, ⟨_, rfl, hb⟩, ha⟩, rfl⟩

end Mapsmith.Script
