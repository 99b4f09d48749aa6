import Mapsmith.Proofs.Script.Completeness
import Mapsmith.Proofs.Script.Languages
import Mapsmith.Proofs.Script.Rules

/-!
# The rules as equations

`begins_function`: the words of each rule, with any number of levels at hand, are a sum of
products, one for each way to begin. A repetition is an item and the repetition again, or what
is after it.
-/

namespace Mapsmith.Script

-- ---------------------------------------------------------------------------
-- Expressions and statements
-- ---------------------------------------------------------------------------

theorem Derives.succ (h : Derives rule n kinds) : Derives rule (n + 1) kinds := by
  induction h with
  | expression _ _ ih ih' => exact .expression ih ih'
  | noLinks => exact .noLinks
  | links hop _ _ ih ih' => exact .links hop ih ih'
  | unary hop _ ih => exact .unary hop ih
  | literal => exact .literal
  | name => exact .name
  | called _ ih => exact .called ih
  | element _ ih => exact .element ih
  | function => exact .function
  | parens _ ih => exact .parens ih
  | call _ ih => exact .call ih
  | noArguments => exact .noArguments
  | arguments _ _ ih ih' => exact .arguments ih ih'
  | lastArgument => exact .lastArgument
  | moreArguments _ _ ih ih' => exact .moreArguments ih ih'
  | action _ ih => exact .action ih
  | debug _ ih => exact .debug ih
  | exitwhen _ ih => exact .exitwhen ih
  | returns => exact .returns
  | returnsValue _ ih => exact .returnsValue ih
  | set _ ih => exact .set ih
  | setElement _ _ ih ih' => exact .setElement ih ih'
  | callAction _ ih => exact .callAction ih
  | branch _ _ _ ih ih' ih'' => exact .branch ih ih' ih''
  | loop _ ih => exact .loop ih
  | noStatements => exact .noStatements
  | block _ _ ih ih' => exact .block ih ih'
  | nothing => exact .nothing
  | otherwise _ ih => exact .otherwise ih
  | elseif _ _ _ ih ih' ih'' => exact .elseif ih ih' ih''

theorem Derives.mono (h : Derives rule n kinds) (hle : n ≤ m) : Derives rule m kinds := by
  induction hle with
  | refl => exact h
  | step _ ih => exact ih.succ

def anyLevels (rule : Nat → List TokenKind → Prop) : Language TokenKind :=
  {kinds | ∃ n, rule n kinds}

abbrev Rule.words (rule : Rule) : Language TokenKind := anyLevels (Derives rule)

namespace Rule

theorem exists_levels (h : first ∈ words rule) (h' : second ∈ words other) :
    ∃ n, Derives rule n first ∧ Derives other n second := by
  obtain ⟨n, h⟩ := h
  obtain ⟨m, h'⟩ := h'
  exact ⟨max n m, h.mono (Nat.le_max_left n m), h'.mono (Nat.le_max_right n m)⟩

theorem words_expression : words .expression = words .operand * words .links := by
  ext kinds
  constructor
  · rintro ⟨n, h⟩
    cases h with
    | expression hfirst hrest => exact append_mem ⟨n, hfirst⟩ ⟨n, hrest⟩
  · intro h
    obtain ⟨first, rest, hfirst, hrest, rfl⟩ := mem_mul_iff.mp h
    obtain ⟨n, hfirst, hrest⟩ := exists_levels hfirst hrest
    exact ⟨n, .expression hfirst hrest⟩

theorem words_links : words .links =
    oneOf (fun kind => kind.isBinaryOperator = true) * words .operand * words .links + 1 := by
  ext kinds
  rw [mul_assoc]
  constructor
  · rintro ⟨n, h⟩
    cases h with
    | noLinks => exact .inr rfl
    | links hop hoperand hrest =>
      exact .inl (cons_mem_oneOf_mul.mpr ⟨hop, append_mem ⟨n, hoperand⟩ ⟨n, hrest⟩⟩)
  · rintro (h | rfl)
    · obtain ⟨kind, _, hkind, hmore, rfl⟩ := mem_oneOf_mul.mp h
      obtain ⟨operand, rest, hoperand, hrest, rfl⟩ := mem_mul_iff.mp hmore
      obtain ⟨n, hoperand, hrest⟩ := exists_levels hoperand hrest
      cases kind with
      | operator op => exact ⟨n, .links hkind hoperand hrest⟩
      | _ => cases hkind
    · exact ⟨0, .noLinks⟩

theorem words_call : words .call =
    only .identifier *
      (only (.delimiter .openParen) * (words .arguments * only (.delimiter .closeParen))) := by
  ext kinds
  constructor
  · rintro ⟨n, h⟩
    cases h with
    | call h => exact cons_mem (cons_mem (snoc_mem ⟨n, h⟩))
  · intro h
    obtain ⟨_, hcall, rfl⟩ := mem_only_mul.mp h
    obtain ⟨_, hopen, rfl⟩ := mem_only_mul.mp hcall
    obtain ⟨arguments, ⟨n, harguments⟩, rfl⟩ := mem_mul_only.mp hopen
    exact ⟨n, .call harguments⟩

theorem words_arguments : words .arguments = words .expression * words .moreArguments + 1 := by
  ext kinds
  constructor
  · rintro ⟨n, h⟩
    cases h with
    | noArguments => exact .inr rfl
    | arguments hfirst hrest => exact .inl (append_mem ⟨_, hfirst⟩ ⟨_, hrest⟩)
  · rintro (h | rfl)
    · obtain ⟨first, rest, hfirst, hrest, rfl⟩ := mem_mul_iff.mp h
      obtain ⟨n, hfirst, hrest⟩ := exists_levels hfirst hrest
      exact ⟨n + 1, .arguments hfirst hrest.succ⟩
    · exact ⟨0, .noArguments⟩

theorem words_moreArguments : words .moreArguments =
    only (.delimiter .comma) * words .expression * words .moreArguments + 1 := by
  ext kinds
  rw [mul_assoc]
  constructor
  · rintro ⟨n, h⟩
    cases h with
    | lastArgument => exact .inr rfl
    | moreArguments hnext hrest => exact .inl (cons_mem (append_mem ⟨_, hnext⟩ ⟨_, hrest⟩))
  · rintro (h | rfl)
    · obtain ⟨_, hmore, rfl⟩ := mem_only_mul.mp h
      obtain ⟨next, rest, hnext, hrest, rfl⟩ := mem_mul_iff.mp hmore
      obtain ⟨n, hnext, hrest⟩ := exists_levels hnext hrest
      exact ⟨n + 1, .moreArguments hnext hrest.succ⟩
    · exact ⟨0, .lastArgument⟩

def reference : Language TokenKind :=
  only (.delimiter .openParen) * (words .arguments * only (.delimiter .closeParen)) +
    (only (.delimiter .openBracket) * (words .expression * only (.delimiter .closeBracket)) + 1)

theorem words_operand : words .operand =
    oneOf (fun kind => kind.isUnaryOperator = true) * words .operand +
      (oneOf (fun kind => kind.isLiteral = true) + (only .identifier * reference +
        (only (.keyword .function) * only .identifier +
          only (.delimiter .openParen) *
            (words .expression * only (.delimiter .closeParen))))) := by
  ext kinds
  constructor
  · rintro ⟨n, h⟩
    cases h with
    | unary hop hoperand => exact .inl (cons_mem_oneOf_mul.mpr ⟨hop, ⟨_, hoperand⟩⟩)
    | literal => exact .inr (.inl ⟨_, rfl, rfl⟩)
    | name => exact .inr (.inr (.inl (cons_mem (.inr (.inr rfl)))))
    | called h =>
      cases h with
      | call h => exact .inr (.inr (.inl (cons_mem (.inl (cons_mem (snoc_mem ⟨_, h⟩))))))
    | element h => exact .inr (.inr (.inl (cons_mem (.inr (.inl (cons_mem (snoc_mem ⟨_, h⟩)))))))
    | function => exact .inr (.inr (.inr (.inl (cons_mem ⟨_, rfl, rfl⟩))))
    | parens h => exact .inr (.inr (.inr (.inr (cons_mem (snoc_mem ⟨_, h⟩)))))
  · rintro (h | ⟨kind, hkind, rfl⟩ | h | h | h)
    · obtain ⟨kind, operand, hkind, ⟨n, hoperand⟩, rfl⟩ := mem_oneOf_mul.mp h
      cases kind with
      | operator op => exact ⟨n + 1, .unary hkind hoperand⟩
      | _ => cases hkind
    · cases kind with
      | literal => exact ⟨0, .literal⟩
      | _ => cases hkind
    · obtain ⟨_, hcall | helement | rfl, rfl⟩ := mem_only_mul.mp h
      · obtain ⟨_, hopen, rfl⟩ := mem_only_mul.mp hcall
        obtain ⟨arguments, ⟨n, harguments⟩, rfl⟩ := mem_mul_only.mp hopen
        exact ⟨n, .called (.call harguments)⟩
      · obtain ⟨_, hopen, rfl⟩ := mem_only_mul.mp helement
        obtain ⟨index, ⟨n, hindex⟩, rfl⟩ := mem_mul_only.mp hopen
        exact ⟨n + 1, .element hindex⟩
      · exact ⟨0, .name⟩
    · obtain ⟨_, ⟨_, rfl, rfl⟩, rfl⟩ := mem_only_mul.mp h
      exact ⟨0, .function⟩
    · obtain ⟨_, hopen, rfl⟩ := mem_only_mul.mp h
      obtain ⟨inner, ⟨n, hinner⟩, rfl⟩ := mem_mul_only.mp hopen
      exact ⟨n + 1, .parens hinner⟩

def index : Language TokenKind :=
  only (.delimiter .openBracket) * (words .expression * only (.delimiter .closeBracket)) + 1

def guarded (inLoop : Bool) : Language TokenKind :=
  words .expression * (only (.keyword .thenWord) * (only .newline * words (.block inLoop)))

theorem mem_guarded_mul : kinds ∈ guarded inLoop * words rule ↔ ∃ n condition body rest,
    Derives .expression (n + 1) condition ∧ Derives (.block inLoop) n body ∧
      Derives rule (n + 1) rest ∧
      kinds = condition ++ .keyword .thenWord :: .newline :: (body ++ rest) := by
  simp only [guarded, mul_assoc]
  constructor
  · intro h
    obtain ⟨condition, _, ⟨n, hcondition⟩, hthen, rfl⟩ := mem_mul_iff.mp h
    obtain ⟨_, hline, rfl⟩ := mem_only_mul.mp hthen
    obtain ⟨_, hblock, rfl⟩ := mem_only_mul.mp hline
    obtain ⟨body, rest, ⟨m, hbody⟩, ⟨k, hrest⟩, rfl⟩ := mem_mul_iff.mp hblock
    exact ⟨n + m + k, condition, body, rest, hcondition.mono (by omega), hbody.mono (by omega),
      hrest.mono (by omega), rfl⟩
  · rintro ⟨n, condition, body, rest, hcondition, hbody, hrest, rfl⟩
    exact append_mem ⟨_, hcondition⟩ (cons_mem (cons_mem (append_mem ⟨_, hbody⟩ ⟨_, hrest⟩)))

theorem words_action (inLoop : Bool) : words (.action inLoop) =
    only (.keyword .set) * (only .identifier * (index * (only .assign * words .expression))) +
      (only (.keyword .call) * words .call +
        (only (.keyword .ifWord) * (guarded inLoop * words (.alternative inLoop)) +
          only (.keyword .loop) *
            (only .newline * (words (.block true) * only (.keyword .endloop))))) := by
  ext kinds
  constructor
  · rintro ⟨n, h⟩
    cases h with
    | set hvalue =>
      have hnone : [] ∈ index := .inr rfl
      exact .inl (cons_mem (cons_mem (append_mem hnone (cons_mem ⟨n, hvalue⟩))))
    | setElement hindex hvalue =>
      refine .inl (cons_mem (cons_mem ?_))
      rw [List.append_cons, ← List.cons_append]
      have hsome : _ ∈ index := .inl (cons_mem (snoc_mem ⟨n, hindex⟩))
      exact append_mem hsome (cons_mem ⟨n, hvalue⟩)
    | callAction hcall => exact .inr (.inl (cons_mem ⟨n, hcall⟩))
    | branch hcondition hbody halternative =>
      exact .inr (.inr (.inl (cons_mem
        (mem_guarded_mul.mpr ⟨_, _, _, _, hcondition, hbody, halternative, rfl⟩))))
    | loop hbody => exact .inr (.inr (.inr (cons_mem (cons_mem (snoc_mem ⟨_, hbody⟩)))))
  · rintro (h | h | h | h)
    · obtain ⟨_, hid, rfl⟩ := mem_only_mul.mp h
      obtain ⟨_, hset, rfl⟩ := mem_only_mul.mp hid
      obtain ⟨_, _, helement | rfl, hassign, rfl⟩ := mem_mul_iff.mp hset
      · obtain ⟨_, hopen, rfl⟩ := mem_only_mul.mp helement
        obtain ⟨index, hindex, rfl⟩ := mem_mul_only.mp hopen
        obtain ⟨value, hvalue, rfl⟩ := mem_only_mul.mp hassign
        obtain ⟨n, hindex, hvalue⟩ := exists_levels hindex hvalue
        have hderives : Derives (.action inLoop) n _ := .setElement hindex hvalue
        exact ⟨n, by simpa using hderives⟩
      · obtain ⟨value, ⟨n, hvalue⟩, rfl⟩ := mem_only_mul.mp hassign
        exact ⟨n, .set hvalue⟩
    · obtain ⟨_, ⟨n, hcall⟩, rfl⟩ := mem_only_mul.mp h
      exact ⟨n, .callAction hcall⟩
    · obtain ⟨_, hbranch, rfl⟩ := mem_only_mul.mp h
      obtain ⟨n, _, _, _, hcondition, hbody, halternative, rfl⟩ := mem_guarded_mul.mp hbranch
      exact ⟨n + 1, .branch hcondition hbody halternative⟩
    · obtain ⟨_, hline, rfl⟩ := mem_only_mul.mp h
      obtain ⟨_, hloop, rfl⟩ := mem_only_mul.mp hline
      obtain ⟨body, ⟨n, hbody⟩, rfl⟩ := mem_mul_only.mp hloop
      exact ⟨n + 1, .loop hbody⟩

/-- What ends a loop from inside. -/
def exits : Bool → Language TokenKind
  | true => only (.keyword .exitwhen) * words .expression
  | false => 0

theorem words_statement (inLoop : Bool) : words (.statement inLoop) =
    words (.action inLoop) + (only (.keyword .debug) * words (.action inLoop) +
      (only (.keyword .returnWord) * (words .expression + 1) + exits inLoop)) := by
  ext kinds
  constructor
  · rintro ⟨n, h⟩
    cases h with
    | action h => exact .inl ⟨n, h⟩
    | debug h => exact .inr (.inl (cons_mem ⟨n, h⟩))
    | exitwhen h => exact .inr (.inr (.inr (cons_mem ⟨n, h⟩)))
    | returns => exact .inr (.inr (.inl (cons_mem (.inr rfl))))
    | returnsValue h => exact .inr (.inr (.inl (cons_mem (.inl ⟨n, h⟩))))
  · rintro (⟨n, h⟩ | h | h | h)
    · exact ⟨n, .action h⟩
    · obtain ⟨_, ⟨n, haction⟩, rfl⟩ := mem_only_mul.mp h
      exact ⟨n, .debug haction⟩
    · obtain ⟨_, ⟨n, hvalue⟩ | rfl, rfl⟩ := mem_only_mul.mp h
      · exact ⟨n, .returnsValue hvalue⟩
      · exact ⟨0, .returns⟩
    · cases inLoop with
      | true =>
        obtain ⟨_, ⟨n, hcondition⟩, rfl⟩ := mem_only_mul.mp h
        exact ⟨n, .exitwhen hcondition⟩
      | false => cases h

theorem words_block (inLoop : Bool) : words (.block inLoop) =
    words (.statement inLoop) * only .newline * words (.block inLoop) + 1 := by
  ext kinds
  rw [mul_assoc]
  constructor
  · rintro ⟨n, h⟩
    cases h with
    | noStatements => exact .inr rfl
    | block hstatement hrest => exact .inl (append_mem ⟨n, hstatement⟩ (cons_mem ⟨n, hrest⟩))
  · rintro (h | rfl)
    · obtain ⟨statement, _, hstatement, hline, rfl⟩ := mem_mul_iff.mp h
      obtain ⟨rest, hrest, rfl⟩ := mem_only_mul.mp hline
      obtain ⟨n, hstatement, hrest⟩ := exists_levels hstatement hrest
      exact ⟨n, .block hstatement hrest⟩
    · exact ⟨0, .noStatements⟩

theorem words_alternative (inLoop : Bool) : words (.alternative inLoop) =
    only (.keyword .elseif) * guarded inLoop * words (.alternative inLoop) +
      (only (.keyword .elseWord) * (only .newline * words (.block inLoop)) + 1) *
        only (.keyword .endif) := by
  ext kinds
  rw [mul_assoc]
  constructor
  · rintro ⟨n, h⟩
    cases h with
    | nothing =>
      show [] ++ [_] ∈ _
      exact .inr (snoc_mem (.inr rfl))
    | otherwise hbody =>
      rw [← List.cons_append, ← List.cons_append]
      exact .inr (snoc_mem (.inl (cons_mem (cons_mem ⟨_, hbody⟩))))
    | elseif hcondition hbody halternative =>
      exact .inl (cons_mem (mem_guarded_mul.mpr ⟨_, _, _, _, hcondition, hbody, halternative, rfl⟩))
  · rintro (h | h)
    · obtain ⟨_, hguarded, rfl⟩ := mem_only_mul.mp h
      obtain ⟨n, _, _, _, hcondition, hbody, halternative, rfl⟩ := mem_guarded_mul.mp hguarded
      exact ⟨n + 1, .elseif hcondition hbody halternative⟩
    · obtain ⟨_, helse | rfl, rfl⟩ := mem_mul_only.mp h
      · obtain ⟨_, hline, rfl⟩ := mem_only_mul.mp helse
        obtain ⟨body, ⟨n, hbody⟩, rfl⟩ := mem_only_mul.mp hline
        exact ⟨n + 1, .otherwise hbody⟩
      · exact ⟨0, .nothing⟩

/-- Every rule has words. -/
@[simp] theorem productive_words : ∀ rule, Productive (words rule)
  | .expression => ⟨_, 0, .expression .name .noLinks⟩
  | .links => ⟨_, 0, .noLinks⟩
  | .operand => ⟨_, 0, .name⟩
  | .call => ⟨_, 0, .call .noArguments⟩
  | .arguments => ⟨_, 0, .noArguments⟩
  | .moreArguments => ⟨_, 0, .lastArgument⟩
  | .statement _ => ⟨_, 0, .returns⟩
  | .action _ => ⟨_, 0, .callAction (.call .noArguments)⟩
  | .block _ => ⟨_, 0, .noStatements⟩
  | .alternative _ => ⟨_, 0, .nothing⟩

theorem begins_operand : Begins (words .operand) fun kind => kind.startsExpression = true := by
  rw [words_operand]
  refine .add (begins_oneOf_mul fun kind hkind => ?_) (.add (begins_oneOf fun kind hkind => ?_)
    (.add (begins_only_mul rfl) (.add (begins_only_mul rfl) (begins_only_mul rfl))))
  · cases kind with
    | operator op => exact hkind
    | _ => cases hkind
  · cases kind with
    | literal => rfl
    | _ => cases hkind

theorem nil_notMem_operand : [] ∉ words .operand := by
  rw [words_operand]
  simp [Language.mem_add]

theorem begins_expression :
    Begins (words .expression) fun kind => kind.startsExpression = true := by
  rw [words_expression]
  exact begins_operand.mul_left nil_notMem_operand

theorem nil_notMem_expression : [] ∉ words .expression := by
  rw [words_expression, nil_mem_mul]
  exact fun h => nil_notMem_operand h.1

theorem begins_action (inLoop : Bool) :
    Begins (words (.action inLoop)) fun kind => kind.startsAction = true := by
  rw [words_action]
  exact .add (begins_only_mul rfl) (.add (begins_only_mul rfl)
    (.add (begins_only_mul rfl) (begins_only_mul rfl)))

theorem nil_notMem_action (inLoop : Bool) : [] ∉ words (.action inLoop) := by
  rw [words_action]
  simp [Language.mem_add]

theorem begins_statement (inLoop : Bool) :
    Begins (words (.statement inLoop)) fun kind => kind.startsStatement = true := by
  rw [words_statement]
  refine .add ((begins_action inLoop).imp fun kind hkind => ?_)
    (.add (begins_only_mul rfl) (.add (begins_only_mul rfl) ?_))
  · unfold TokenKind.startsStatement
    split
    · rfl
    · rfl
    · rfl
    · exact hkind
  · cases inLoop with
    | true => exact begins_only_mul rfl
    | false => exact fun _ _ h => h.elim

theorem nil_notMem_statement (inLoop : Bool) : [] ∉ words (.statement inLoop) := by
  rw [words_statement]
  cases inLoop <;> simp [exits, Language.mem_add, nil_notMem_action]

-- ---------------------------------------------------------------------------
-- Declarations
-- ---------------------------------------------------------------------------

section

variable {n m : Nat} {kinds : List TokenKind}

theorem Variable.mono (h : Variable n kinds) (hle : n ≤ m) : Variable m kinds := by
  cases h with
  | array htype => exact .array htype
  | unset htype => exact .unset htype
  | value htype hvalue => exact .value htype (hvalue.mono hle)

theorem Global.mono (h : Global n kinds) (hle : n ≤ m) : Global m kinds := by
  cases h with
  | constant htype hvalue => exact .constant htype (hvalue.mono hle)
  | plain h => exact .plain (h.mono hle)

theorem Globals.mono (h : Globals n kinds) (hle : n ≤ m) : Globals m kinds := by
  induction h with
  | nil => exact .nil
  | cons hfirst _ ih => exact .cons (hfirst.mono hle) ih

theorem Declaration.mono (h : Declaration n kinds) (hle : n ≤ m) : Declaration m kinds := by
  cases h with
  | type hparent => exact .type hparent
  | native hsignature => exact .native hsignature
  | constantNative hsignature => exact .constantNative hsignature
  | globals hmembers => exact .globals (hmembers.mono hle)

theorem Locals.mono (h : Locals n kinds) (hle : n ≤ m) : Locals m kinds := by
  induction h with
  | nil => exact .nil
  | cons hfirst _ ih => exact .cons (hfirst.mono hle) ih

theorem Body.mono (h : Body n kinds) (hle : n ≤ m) : Body m kinds := by
  cases h with
  | intro hsignature hlocals hstatements =>
    exact .intro hsignature (hlocals.mono hle) (Derives.mono hstatements hle)

theorem Function.mono (h : Function n kinds) (hle : n ≤ m) : Function m kinds := by
  cases h with
  | plain hbody => exact .plain (hbody.mono hle)
  | constant hbody => exact .constant (hbody.mono hle)

theorem Functions.mono (h : Functions n kinds) (hle : n ≤ m) : Functions m kinds := by
  induction h with
  | nil => exact .nil
  | last hfunction => exact .last (hfunction.mono hle)
  | cons hfunction _ ih => exact .cons (hfunction.mono hle) ih

theorem Declarations.mono (h : Declarations n kinds) (hle : n ≤ m) : Declarations m kinds := by
  induction h with
  | functions h => exact .functions (h.mono hle)
  | last hdeclaration => exact .last (hdeclaration.mono hle)
  | cons hdeclaration _ ih => exact .cons (hdeclaration.mono hle) ih

end

def parameter : Language TokenKind := oneOf TypeName * only .identifier

def parameters : Language TokenKind := {kinds | Parameters kinds}

theorem parameters_eq : parameters = parameter * (only (.delimiter .comma) * parameters + 1) := by
  ext kinds
  rw [parameter, mul_assoc]
  constructor
  · rintro (htype | ⟨htype, hrest⟩)
    · exact cons_mem_oneOf_mul.mpr ⟨htype, cons_mem (.inr rfl)⟩
    · exact cons_mem_oneOf_mul.mpr ⟨htype, cons_mem (.inl (cons_mem hrest))⟩
  · intro h
    obtain ⟨type, _, htype, hid, rfl⟩ := mem_oneOf_mul.mp h
    obtain ⟨_, hmore | rfl, rfl⟩ := mem_only_mul.mp hid
    · obtain ⟨_, hrest, rfl⟩ := mem_only_mul.mp hmore
      exact .more htype hrest
    · exact .last htype

/-- The parameters after the first one, each after a comma. -/
def moreParameters : Language TokenKind := only (.delimiter .comma) * parameters + 1

theorem moreParameters_eq :
    moreParameters = only (.delimiter .comma) * parameter * moreParameters + 1 := by
  rw [mul_assoc, moreParameters, ← parameters_eq]

def taken : Language TokenKind := only (.keyword .nothing) + parameters

def returned : Language TokenKind := only (.keyword .nothing) + oneOf TypeName

def signature : Language TokenKind := {kinds | Signature kinds}

theorem signature_eq : signature =
    only .identifier *
      (only (.keyword .takes) * (taken * (only (.keyword .returns) * returned))) := by
  ext kinds
  constructor
  · rintro ⟨htaken, hreturned⟩
    refine cons_mem (cons_mem (append_mem ?_ (cons_mem ?_)))
    · cases htaken with
      | nothing => exact .inl ⟨_, rfl, rfl⟩
      | parameters h => exact .inr h
    · cases hreturned with
      | nothing => exact .inl ⟨_, rfl, rfl⟩
      | type h => exact .inr ⟨_, h, rfl⟩
  · intro h
    obtain ⟨_, hid, rfl⟩ := mem_only_mul.mp h
    obtain ⟨_, htakes, rfl⟩ := mem_only_mul.mp hid
    obtain ⟨taken, _, htaken, hreturns, rfl⟩ := mem_mul_iff.mp htakes
    obtain ⟨_, hreturned, rfl⟩ := mem_only_mul.mp hreturns
    have htaken : Taken taken := by
      obtain ⟨_, rfl, rfl⟩ | h := htaken
      · exact .nothing
      · exact .parameters h
    obtain ⟨_, rfl, rfl⟩ | ⟨type, htype, rfl⟩ := hreturned
    · exact .intro htaken .nothing
    · exact .intro htaken (.type htype)

def variableRest : Language TokenKind :=
  only (.keyword .array) * only .identifier +
    only .identifier * (only .assign * words .expression + 1)

theorem variable_eq : anyLevels Variable = oneOf TypeName * variableRest := by
  ext kinds
  constructor
  · rintro ⟨n, htype | htype | ⟨htype, hvalue⟩⟩
    · exact cons_mem_oneOf_mul.mpr ⟨htype, .inl (cons_mem ⟨_, rfl, rfl⟩)⟩
    · exact cons_mem_oneOf_mul.mpr ⟨htype, .inr (cons_mem (.inr rfl))⟩
    · exact cons_mem_oneOf_mul.mpr ⟨htype, .inr (cons_mem (.inl (cons_mem ⟨n, hvalue⟩)))⟩
  · intro h
    obtain ⟨type, _, htype, harray | hid, rfl⟩ := mem_oneOf_mul.mp h
    · obtain ⟨_, ⟨_, rfl, rfl⟩, rfl⟩ := mem_only_mul.mp harray
      exact ⟨0, .array htype⟩
    · obtain ⟨_, hassign | rfl, rfl⟩ := mem_only_mul.mp hid
      · obtain ⟨_, ⟨n, hvalue⟩, rfl⟩ := mem_only_mul.mp hassign
        exact ⟨n, .value htype hvalue⟩
      · exact ⟨0, .unset htype⟩

theorem global_eq : anyLevels Global =
    only (.keyword .constant) *
      (oneOf TypeName * (only .identifier * (only .assign * words .expression))) +
      anyLevels Variable := by
  ext kinds
  constructor
  · rintro ⟨n, ⟨htype, hvalue⟩ | h⟩
    · exact .inl (cons_mem (cons_mem_oneOf_mul.mpr ⟨htype, cons_mem (cons_mem ⟨n, hvalue⟩)⟩))
    · exact .inr ⟨n, h⟩
  · rintro (h | ⟨n, h⟩)
    · obtain ⟨_, hconstant, rfl⟩ := mem_only_mul.mp h
      obtain ⟨type, _, htype, hid, rfl⟩ := mem_oneOf_mul.mp hconstant
      obtain ⟨_, hassign, rfl⟩ := mem_only_mul.mp hid
      obtain ⟨_, ⟨n, hvalue⟩, rfl⟩ := mem_only_mul.mp hassign
      exact ⟨n, .constant htype hvalue⟩
    · exact ⟨n, .plain h⟩

theorem globals_eq :
    anyLevels Globals = anyLevels Global * only .newline * anyLevels Globals + 1 := by
  ext kinds
  rw [mul_assoc]
  constructor
  · rintro ⟨n, _ | ⟨hfirst, hrest⟩⟩
    · exact .inr rfl
    · exact .inl (append_mem ⟨n, hfirst⟩ (cons_mem ⟨n, hrest⟩))
  · rintro (h | rfl)
    · obtain ⟨first, _, ⟨n, hfirst⟩, hline, rfl⟩ := mem_mul_iff.mp h
      obtain ⟨_, ⟨m, hrest⟩, rfl⟩ := mem_only_mul.mp hline
      exact ⟨max n m, .cons (hfirst.mono (Nat.le_max_left n m)) (hrest.mono (Nat.le_max_right n m))⟩
    · exact ⟨0, .nil⟩

theorem declaration_eq : anyLevels Declaration =
    only (.keyword .type) * (only .identifier * (only (.keyword .extendsWord) * oneOf Parent)) +
      (only (.keyword .globals) *
        (only .newline * (anyLevels Globals * only (.keyword .endglobals))) +
        (only (.keyword .constant) * (only (.keyword .native) * signature) +
          only (.keyword .native) * signature)) := by
  ext kinds
  constructor
  · rintro ⟨n, hparent | hsignature | hsignature | hmembers⟩
    · exact .inl (cons_mem (cons_mem (cons_mem ⟨_, hparent, rfl⟩)))
    · exact .inr (.inr (.inr (cons_mem hsignature)))
    · exact .inr (.inr (.inl (cons_mem (cons_mem hsignature))))
    · exact .inr (.inl (cons_mem (cons_mem (snoc_mem ⟨n, hmembers⟩))))
  · rintro (h | h | h | h)
    · obtain ⟨_, htype, rfl⟩ := mem_only_mul.mp h
      obtain ⟨_, hid, rfl⟩ := mem_only_mul.mp htype
      obtain ⟨_, ⟨parent, hparent, rfl⟩, rfl⟩ := mem_only_mul.mp hid
      exact ⟨0, .type hparent⟩
    · obtain ⟨_, hglobals, rfl⟩ := mem_only_mul.mp h
      obtain ⟨_, hline, rfl⟩ := mem_only_mul.mp hglobals
      obtain ⟨members, ⟨n, hmembers⟩, rfl⟩ := mem_mul_only.mp hline
      exact ⟨n, .globals hmembers⟩
    · obtain ⟨_, hconstant, rfl⟩ := mem_only_mul.mp h
      obtain ⟨_, hsignature, rfl⟩ := mem_only_mul.mp hconstant
      exact ⟨0, .constantNative hsignature⟩
    · obtain ⟨_, hsignature, rfl⟩ := mem_only_mul.mp h
      exact ⟨0, .native hsignature⟩

theorem locals_eq : anyLevels Locals =
    only (.keyword .localWord) * (anyLevels Variable * only .newline) * anyLevels Locals + 1 := by
  ext kinds
  simp only [mul_assoc]
  constructor
  · rintro ⟨n, _ | ⟨hfirst, hrest⟩⟩
    · exact .inr rfl
    · exact .inl (cons_mem (append_mem ⟨n, hfirst⟩ (cons_mem ⟨n, hrest⟩)))
  · rintro (h | rfl)
    · obtain ⟨_, hlocal, rfl⟩ := mem_only_mul.mp h
      obtain ⟨first, _, ⟨n, hfirst⟩, hline, rfl⟩ := mem_mul_iff.mp hlocal
      obtain ⟨_, ⟨m, hrest⟩, rfl⟩ := mem_only_mul.mp hline
      exact ⟨max n m, .cons (hfirst.mono (Nat.le_max_left n m)) (hrest.mono (Nat.le_max_right n m))⟩
    · exact ⟨0, .nil⟩

theorem body_eq : anyLevels Body = only (.keyword .function) * (signature * (only .newline *
    (anyLevels Locals * (words (.block false) * only (.keyword .endfunction))))) := by
  ext kinds
  constructor
  · rintro ⟨n, ⟨hsignature, hlocals, hstatements⟩⟩
    exact cons_mem (append_mem hsignature
      (cons_mem (append_mem ⟨n, hlocals⟩ (snoc_mem ⟨n, hstatements⟩))))
  · intro h
    obtain ⟨_, hfunction, rfl⟩ := mem_only_mul.mp h
    obtain ⟨signature, _, hsignature, hline, rfl⟩ := mem_mul_iff.mp hfunction
    obtain ⟨_, hrest, rfl⟩ := mem_only_mul.mp hline
    obtain ⟨locals, _, ⟨n, hlocals⟩, hend, rfl⟩ := mem_mul_iff.mp hrest
    obtain ⟨statements, ⟨m, hstatements⟩, rfl⟩ := mem_mul_only.mp hend
    exact ⟨max n m, .intro hsignature (hlocals.mono (Nat.le_max_left n m))
      (Derives.mono hstatements (Nat.le_max_right n m))⟩

theorem function_eq :
    anyLevels Function = only (.keyword .constant) * anyLevels Body + anyLevels Body := by
  ext kinds
  constructor
  · rintro ⟨n, hbody | hbody⟩
    · exact .inr ⟨n, hbody⟩
    · exact .inl (cons_mem ⟨n, hbody⟩)
  · rintro (h | ⟨n, hbody⟩)
    · obtain ⟨_, ⟨n, hbody⟩, rfl⟩ := mem_only_mul.mp h
      exact ⟨n, .constant hbody⟩
    · exact ⟨n, .plain hbody⟩

def line (words : Language TokenKind) : Language TokenKind := only .newline * words + 1

theorem functions_eq :
    anyLevels Functions = anyLevels Function * line (anyLevels Functions) + 1 := by
  ext kinds
  constructor
  · rintro ⟨n, _ | hfunction | ⟨hfunction, hrest⟩⟩
    · exact .inr rfl
    · rw [← List.append_nil kinds]
      exact .inl (append_mem ⟨n, hfunction⟩ (.inr rfl))
    · exact .inl (append_mem ⟨n, hfunction⟩ (.inl (cons_mem ⟨n, hrest⟩)))
  · rintro (h | rfl)
    · obtain ⟨function, _, ⟨n, hfunction⟩, hline | rfl, rfl⟩ := mem_mul_iff.mp h
      · obtain ⟨_, ⟨m, hrest⟩, rfl⟩ := mem_only_mul.mp hline
        exact ⟨max n m, .cons (hfunction.mono (Nat.le_max_left n m))
          (hrest.mono (Nat.le_max_right n m))⟩
      · exact ⟨n, by simpa using Functions.last hfunction⟩
    · exact ⟨0, .nil⟩

theorem declarations_eq : anyLevels Declarations =
    anyLevels Declaration * line (anyLevels Declarations) + anyLevels Functions := by
  ext kinds
  constructor
  · rintro ⟨n, hfunctions | hdeclaration | ⟨hdeclaration, hrest⟩⟩
    · exact .inr ⟨n, hfunctions⟩
    · rw [← List.append_nil kinds]
      exact .inl (append_mem ⟨n, hdeclaration⟩ (.inr rfl))
    · exact .inl (append_mem ⟨n, hdeclaration⟩ (.inl (cons_mem ⟨n, hrest⟩)))
  · rintro (h | ⟨n, hfunctions⟩)
    · obtain ⟨declaration, _, ⟨n, hdeclaration⟩, hline | rfl, rfl⟩ := mem_mul_iff.mp h
      · obtain ⟨_, ⟨m, hrest⟩, rfl⟩ := mem_only_mul.mp hline
        exact ⟨max n m, .cons (hdeclaration.mono (Nat.le_max_left n m))
          (hrest.mono (Nat.le_max_right n m))⟩
      · exact ⟨n, by simpa using Declarations.last hdeclaration⟩
    · exact ⟨n, .functions hfunctions⟩

theorem declarations_eq_constant : anyLevels Declarations =
    only (.keyword .constant) *
      (only (.keyword .native) * signature * line (anyLevels Declarations) +
        anyLevels Body * line (anyLevels Functions)) +
      ((only (.keyword .type) * (only .identifier * (only (.keyword .extendsWord) * oneOf Parent)) +
          (only (.keyword .globals) *
            (only .newline * (anyLevels Globals * only (.keyword .endglobals))) +
            only (.keyword .native) * signature)) * line (anyLevels Declarations) +
        (anyLevels Body * line (anyLevels Functions) + 1)) := by
  conv_lhs => rw [declarations_eq, declaration_eq, functions_eq, function_eq]
  simp only [mul_add, add_mul, mul_assoc]
  ac_rfl

theorem program_eq :
    anyLevels Program = only .newline * anyLevels Declarations + anyLevels Declarations := by
  ext kinds
  constructor
  · rintro ⟨n, hdeclarations | hdeclarations⟩
    · exact .inr ⟨n, hdeclarations⟩
    · exact .inl (cons_mem ⟨n, hdeclarations⟩)
  · rintro (h | ⟨n, hdeclarations⟩)
    · obtain ⟨_, ⟨n, hdeclarations⟩, rfl⟩ := mem_only_mul.mp h
      exact ⟨n, .newline hdeclarations⟩
    · exact ⟨n, .plain hdeclarations⟩

-- ---------------------------------------------------------------------------
-- First kinds
-- ---------------------------------------------------------------------------

theorem begins_block (inLoop : Bool) :
    Begins (words (.block inLoop)) fun kind => kind.startsStatement = true := by
  rw [words_block, mul_assoc]
  exact .add ((begins_statement inLoop).mul_left (nil_notMem_statement inLoop)) begins_one

theorem begins_global : Begins (anyLevels Global) (· ≠ .keyword .endglobals) := by
  rw [global_eq, variable_eq]
  exact .add (begins_only_mul nofun)
    (begins_oneOf_mul fun kind htype heq => by cases htype <;> cases heq)

theorem nil_notMem_global : [] ∉ anyLevels Global := by
  rw [global_eq, variable_eq]
  simp [Language.mem_add]

theorem begins_declaration : Begins (anyLevels Declaration) fun kind =>
    kind = .keyword .type ∨ kind = .keyword .globals ∨ kind = .keyword .native ∨
      kind = .keyword .constant := by
  rw [declaration_eq]
  exact .add (begins_only_mul (by simp)) (.add (begins_only_mul (by simp))
    (.add (begins_only_mul (by simp)) (begins_only_mul (by simp))))

theorem nil_notMem_declaration : [] ∉ anyLevels Declaration := by
  rw [declaration_eq]
  simp [Language.mem_add]

theorem begins_body : Begins (anyLevels Body) (· = .keyword .function) := by
  rw [body_eq]
  exact begins_only_mul rfl

theorem nil_notMem_body : [] ∉ anyLevels Body := by
  rw [body_eq]
  simp

theorem begins_function : Begins (anyLevels Function) fun kind =>
    kind = .keyword .function ∨ kind = .keyword .constant := by
  rw [function_eq]
  exact .add (begins_only_mul (.inr rfl)) (begins_body.imp fun _ => .inl)

theorem nil_notMem_function : [] ∉ anyLevels Function := by
  rw [function_eq]
  simp [Language.mem_add, nil_notMem_body]

theorem begins_functions : Begins (anyLevels Functions) fun kind =>
    kind = .keyword .function ∨ kind = .keyword .constant := by
  rw [functions_eq]
  exact .add (begins_function.mul_left nil_notMem_function) begins_one

-- ---------------------------------------------------------------------------
-- Words of each
-- ---------------------------------------------------------------------------

@[simp] theorem productive_typeName : Productive (oneOf TypeName) := productive_oneOf .identifier

@[simp] theorem productive_parent : Productive (oneOf Parent) := productive_oneOf .identifier

@[simp] theorem productive_signature : Productive signature := ⟨_, .intro .nothing .nothing⟩

@[simp] theorem productive_globals : Productive (anyLevels Globals) := ⟨_, 0, .nil⟩

@[simp] theorem productive_locals : Productive (anyLevels Locals) := ⟨_, 0, .nil⟩

@[simp] theorem productive_functions : Productive (anyLevels Functions) := ⟨_, 0, .nil⟩

@[simp] theorem productive_declarations : Productive (anyLevels Declarations) :=
    ⟨_, 0, .functions .nil⟩

@[simp] theorem productive_function : Productive (anyLevels Function) :=
  ⟨_, 0, .plain (.intro (.intro .nothing .nothing) .nil .noStatements)⟩

@[simp] theorem productive_line {words : Language TokenKind} (h : Productive words) :
    Productive (line words) := by
  simp [line, h]

end Rule

end Mapsmith.Script
