import Mathlib.Data.String.Basic
import Mapsmith.Proofs.Script.Nesting

/-!
# The token at fault

`ofText_error_offending`: every rule of the parser tracks the words of its rule of the grammar,
so that a script is refused at the first token with which no script goes on.

What the error says was expected there is not looked at.
-/

namespace Mapsmith.Script

namespace Grammar

open Mapsmith.Script.Parser Mapsmith.Script.Rule

variable {follow : Language TokenKind} {ahead : List Lexeme}

-- ---------------------------------------------------------------------------
-- Variables and signatures
-- ---------------------------------------------------------------------------

theorem typeName_iff : TypeName kind ↔ kind = .identifier ∨ kind.isBuiltinType = true := by
  constructor
  · intro h
    cases h with
    | builtin => exact .inr rfl
    | identifier => exact .inl rfl
  · intro h
    cases kind with
    | builtin => exact .builtin
    | identifier => exact .identifier
    | _ => simp [TokenKind.isBuiltinType] at h

theorem tracks_typeName : Tracks follow (oneOf TypeName) ahead (typeName ahead) := by
  refine tracks_accept (fun token => ?_) productive_typeName _
  simp [typeName?, typeName_iff]

theorem tracks_parentType :
    Tracks follow (oneOf Parent) ahead (accept parentType? .parentType ahead) := by
  refine tracks_accept (fun token => ?_) productive_parent _
  unfold parentType?
  constructor
  · intro h
    split at h
    · rename_i hkind
      obtain hkind | hkind := hkind
      · exact hkind ▸ .identifier
      · exact hkind ▸ .handle
    · cases h
  · intro h
    cases hkind : token.kind <;> rw [hkind] at h <;> cases h <;> simp

theorem tracks_parameter : Tracks follow Rule.parameter ahead (Grammar.parameter ahead) :=
  .bind tracks_typeName (by simp) fun _ _ _ => tracks_identifier.map _

theorem tracks_parameters (hf : Begins follow (· ≠ .delimiter .comma)) :
    Tracks follow taken ahead (Grammar.parameters ahead) := by
  rw [taken, ← mul_one (only (.keyword .nothing))]
  refine .eat _ (fun _ rest => tracks_pure []) (fun _ => ?_) ?_
  · rw [parameters_eq]
    exact tracks_commaSeparated (p := fun _ => True) moreParameters_eq (by simp [Rule.parameter])
      (fun _ _ _ => tracks_parameter) trivial (fun _ _ _ => trivial) hf
  · rw [parameters_eq, Rule.parameter]
    simp only [mul_assoc]
    exact begins_oneOf_mul fun kind htype heq => by cases htype <;> cases heq

theorem tracks_returnType : Tracks follow returned ahead (returnType ahead) := by
  rw [returned, ← mul_one (only (.keyword .nothing))]
  refine .eat _ (fun _ rest => tracks_pure none) (fun _ => tracks_typeName.map _) ?_
  exact begins_oneOf_mul fun kind htype heq => by cases htype <;> cases heq

theorem tracks_signature : Tracks follow Rule.signature ahead (Grammar.signature ahead) := by
  rw [signature_eq]
  refine .bind tracks_identifier (by simp [taken, returned]) fun id rest _ =>
    .after _ (by simp [taken, returned]) fun _ rest =>
      .bind (tracks_parameters ?_) (by simp [returned]) fun takes rest _ =>
        .after _ (by simp [returned]) fun _ rest => tracks_returnType.map _
  exact begins_only_mul_mul nofun

theorem tracks_variableRest (start : Position) (type : String) (hf : Begins follow (· = .newline)) :
    Tracks follow Rule.variableRest ahead (Grammar.variableRest start type ahead) := by
  refine .eat _ (fun _ rest => tracks_identifier.map _) (fun _ => ?_) (begins_only_mul_mul nofun)
  refine .bind tracks_identifier (by simp) fun id rest _ =>
    .eat _ (fun _ rest => ?_) (fun _ => tracks_pure _) ?_
  · exact (tracks_expression maxLevels (hf.imp fun kind hkind => by rw [hkind]; rfl)).map _
  · rw [one_mul]
    exact hf.imp fun kind hkind => by simp [hkind]

-- ---------------------------------------------------------------------------
-- Declarations
-- ---------------------------------------------------------------------------

theorem tracks_position {kinds : Language TokenKind} {f : Position → Parser α}
    (h : ∀ start, Tracks follow kinds ahead (f start ahead)) :
    Tracks follow kinds ahead ((position >>= f) ahead) := h _

theorem tracks_globalVariable (hf : Begins follow (· = .newline)) :
    Tracks follow (anyLevels Global) ahead (globalVariable ahead) := by
  rw [global_eq]
  refine .eat _ (fun _ rest => ?_) (fun _ => ?_) ?_
  · refine .bind tracks_typeName (by simp) fun type rest _ =>
      .bind tracks_identifier (by simp) fun id rest _ =>
      .after _ (by simp) fun _ rest => ?_
    exact (tracks_expression maxLevels (hf.imp fun kind hkind => by rw [hkind]; rfl)).map _
  · rw [variable_eq]
    exact tracks_position fun start => .bind tracks_typeName (by simp [Rule.variableRest])
      fun type rest _ => (tracks_variableRest start type hf).map _
  · rw [variable_eq, mul_assoc]
    exact begins_oneOf_mul fun kind htype heq => by cases htype <;> cases heq

theorem tracks_globals : Tracks follow (only (.keyword .globals) *
    (only .newline * (anyLevels Globals * only (.keyword .endglobals)))) ahead (globals ahead) := by
  refine .after _ (by simp) fun position rest => .after _ (by simp) fun _ rest => ?_
  have hwords : anyLevels Globals * only (.keyword .endglobals) = anyLevels Global * only .newline *
      (anyLevels Globals * only (.keyword .endglobals)) + only (.keyword .endglobals) := by
    conv_lhs => rw [globals_eq, add_mul, one_mul, mul_assoc]
  refine Tracks.many (p := (· ≠ .keyword .endglobals)) hwords (fun ahead kind hkind => ?_) ?_ ?_ ?_
    (by simp)
    (fun ahead => ?_) fun members rest => (tracks_expect _).map _
  · rw [Bool.not_eq_true', Bool.eq_false_iff, ne_eq, isAt_iff_of_mem hkind]
  · exact fun hnil => nil_notMem_global (nil_mem_mul.mp hnil).1
  · exact begins_global.mul_left nil_notMem_global
  · exact begins_only_mul (not_not_intro rfl)
  · exact .bind (tracks_globalVariable (begins_only_mul rfl)) (by simp) fun _ _ _ =>
      (tracks_expect _).map _

theorem tracks_typeDeclaration : Tracks follow (only (.keyword .type) * (only .identifier *
    (only (.keyword .extendsWord) * oneOf Parent))) ahead (typeDeclaration ahead) :=
  .after _ (by simp) fun _ _ => .bind tracks_identifier (by simp) fun _ _ _ =>
    .after _ (by simp) fun _ _ => tracks_parentType.map _

theorem tracks_native :
    Tracks follow (only (.keyword .constant) * (only (.keyword .native) * Rule.signature) +
    only (.keyword .native) * Rule.signature) ahead (native ahead) :=
  .eat _ (fun _ _ => .after _ (by simp) fun _ _ => tracks_signature.map _)
    (fun _ => .after _ (by simp) fun _ _ => tracks_signature.map _) (begins_only_mul_mul nofun)

theorem tracks_localVariable :
    Tracks follow (only (.keyword .localWord) * (anyLevels Variable * only .newline))
    ahead (localVariable ahead) := by
  rw [variable_eq, mul_assoc]
  refine .after _ (by simp [Rule.variableRest]) fun _ _ =>
    .bind tracks_typeName (by simp [Rule.variableRest]) fun type _ _ =>
      .bind (tracks_variableRest _ type (begins_only_mul rfl)) (by simp) fun _ _ _ => ?_
  exact (tracks_expect _).map _

def functionBody (constant : Option Position) : Parser FunctionDeclaration := do
  let position ← expect (.keyword .function)
  let signature ← Grammar.signature
  let _ ← expect .newline
  let locals ← many (isAt (.keyword .localWord)) localVariable
  let body ← blockWith (statement maxLevels false)
  return ⟨constant, position, signature, locals, body, ← expect (.keyword .endfunction)⟩

theorem tracks_functionBody (constant : Option Position) :
    Tracks follow (anyLevels Body) ahead (functionBody constant ahead) := by
  rw [body_eq]
  refine .after _ (by simp) fun position _ => .bind tracks_signature (by simp) fun signature _ _ =>
    .after _ (by simp) fun _ rest => ?_
  have hwords : anyLevels Locals * (words (.block false) * only (.keyword .endfunction)) =
      only (.keyword .localWord) * (anyLevels Variable * only .newline) *
        (anyLevels Locals * (words (.block false) * only (.keyword .endfunction))) +
      words (.block false) * only (.keyword .endfunction) := by
    conv_lhs => rw [locals_eq, add_mul, one_mul, mul_assoc]
  refine Tracks.many hwords (fun _ _ => isAt_iff_of_mem) (by simp) (begins_oneOf_mul fun _ => id) ?_
    (by simp)
    (fun _ => tracks_localVariable) fun locals rest => ?_
  · rw [mul_assoc]
    refine .mul ((begins_block false).imp fun kind hkind heq => ?_) (begins_only_mul nofun)
    rw [heq] at hkind
    cases hkind
  · refine .bind (tracks_blockWith (tracks_statement maxLevels false) _ _ (begins_only_mul rfl))
      (by simp)
      fun body rest _ => ?_
    exact (tracks_expect _).map _

theorem tracks_function : Tracks follow (anyLevels Function) ahead (function ahead) := by
  rw [function_eq]
  refine .eat _ (fun position _ => tracks_functionBody (some position))
    (fun _ => tracks_functionBody none) ?_
  exact (begins_body.imp fun kind hkind => by simp [hkind]).mul_left nil_notMem_body

-- ---------------------------------------------------------------------------
-- Programs
-- ---------------------------------------------------------------------------

theorem tracks_endOfLine {next : Parser α} {kinds : Language TokenKind} (hne : Productive kinds)
    (hnext : ∀ rest, rest.length < ahead.length → Tracks 1 kinds rest (next rest))
    (hend : ∃ a, next [] = .ok a []) :
    Tracks 1 (line kinds) ahead ((endOfLine >>= fun _ => next) ahead) := by
  rw [endOfLine, bind_assoc]
  refine tracks_peek fun found hfound => ?_
  split
  · obtain rfl : ahead = [] := by simpa [kind?] using hfound
    obtain ⟨a, ha⟩ := hend
    show Tracks 1 _ [] (next [])
    rw [ha]
    exact .right (tracks_pure a) misses_nil
  · rw [bind_assoc]
    refine .left (.bind (tracks_expect .newline) hne fun _ rest hrun => hnext rest ?_) (by simp)
    obtain ⟨_, rfl, -⟩ := expect_iff.mp hrun
    simp

section

variable {item : Parser α} {next : α → Parser β} {part kinds : Language TokenKind}

theorem tracks_itemLine (hitem : Tracks (line kinds * 1) part ahead (item ahead)) (hnil : [] ∉ part)
    (hne : Productive kinds)
    (hnext : ∀ a rest, rest.length < ahead.length → Tracks 1 kinds rest (next a rest))
    (hend : ∀ a, ∃ b, next a [] = .ok b []) :
    Tracks 1 (part * line kinds) ahead
      ((item >>= fun a => endOfLine >>= fun _ => next a) ahead) := by
  refine .bind hitem (productive_line hne) fun a rest hrun => ?_
  have hless := hitem.length_lt hnil hrun
  exact tracks_endOfLine hne (fun others h => hnext a others (h.trans hless)) (hend a)

theorem length_lt_itemLine (hitem : ∀ ahead, Tracks 1 part ahead (item ahead)) (hnil : [] ∉ part)
    (hrun : (item >>= fun a => endOfLine >>= fun _ => pure a) ahead = .ok a rest) :
    rest.length < ahead.length := by
  obtain ⟨a, middle, ha, hline⟩ := bind_iff.mp hrun
  obtain ⟨_, others, hend, hpure⟩ := bind_iff.mp hline
  obtain ⟨-, rfl⟩ := pure_iff.mp hpure
  have hless := (hitem ahead).length_lt hnil ha
  obtain ⟨rfl, rfl⟩ | ⟨_, rfl, -⟩ := endOfLine_iff.mp hend
  · exact hless
  · exact (Nat.lt_succ_self _).trans hless

end

theorem tracks_functionOr {next : FunctionDeclaration → Parser α} (expected : Expected)
    (hnext : ∀ f rest, rest.length < ahead.length →
      Tracks 1 (anyLevels Functions) rest (next f rest))
    (hend : ∀ f, ∃ a, next f [] = .ok a []) :
    Tracks 1 (anyLevels Function * line (anyLevels Functions)) ahead
      ((functionOr expected >>= next) ahead) := by
  rw [functionOr, bind_assoc, get_bind]
  split
  · simp only [bind_assoc, pure_bind]
    exact tracks_itemLine tracks_function nil_notMem_function (by simp) hnext hend
  · rename_i hother
    refine tracks_unexpected (by simp) ?_ _
    rw [mul_assoc]
    refine (begins_function.mul_left nil_notMem_function).misses fun kind hkind hstarts => hother ?_
    simpa [startsFunction, isAt_iff_of_mem hkind] using hstarts

theorem functionOr_length_lt (hrun : functionOr expected ahead = .ok f rest) :
    rest.length < ahead.length := by
  rw [functionOr, get_bind] at hrun
  split at hrun
  · exact length_lt_itemLine (fun _ => tracks_function) nil_notMem_function hrun
  · cases hrun

theorem tracks_moreFunctions (f : List FunctionDeclaration → α) :
    Tracks 1 (anyLevels Functions) ahead
      ((many (fun tokens => !tokens.isEmpty) (functionOr .function) >>= fun items =>
        pure (f items)) ahead) := by
  induction hn : ahead.length using Nat.strongRecOn generalizing ahead f with
  | ind n ih =>
    rw [many_bind fun _ _ _ => functionOr_length_lt, functions_eq]
    split
    · refine .left (tracks_functionOr _ (fun first rest h => ?_) fun first => ⟨_, rfl⟩) (by simp)
      exact ih rest.length (hn ▸ h) _ rfl
    · rename_i hempty
      obtain rfl : ahead = [] := by simpa using hempty
      exact .right (tracks_pure _) misses_nil

theorem tracks_functions (f : List FunctionDeclaration → α) :
    Tracks 1 (anyLevels Functions) ahead ((functions >>= fun items => pure (f items)) ahead) := by
  rw [functions, bind_assoc, get_bind, functions_eq]
  split
  · rename_i hempty
    obtain rfl : ahead = [] := by simpa using hempty
    rw [pure_bind]
    exact .right (tracks_pure _) misses_nil
  · simp only [bind_assoc, pure_bind]
    exact .left (tracks_functionOr _ (fun first rest _ => tracks_moreFunctions _)
      fun first => ⟨_, rfl⟩) (by simp)

def declarationPart : Parser Declaration := do
  match ← peek with
  | some (.keyword .type) => typeDeclaration
  | some (.keyword .globals) => globals
  | _ => native

theorem declaration_eq_part :
    declaration = declarationPart >>= fun d => endOfLine >>= fun _ => pure d := by
  rw [declaration, declarationPart, bind_assoc]
  congr 1
  funext found
  split
  · rfl
  · rfl
  · simp

theorem declaration_bind {f : Declaration → Parser α} :
    (declaration >>= f) = declarationPart >>= fun d => endOfLine >>= fun _ => f d := by
  simp only [declaration_eq_part, bind_assoc, pure_bind]

theorem tracks_declarationPart :
    Tracks follow (anyLevels Rule.Declaration) ahead (declarationPart ahead) := by
  rw [declaration_eq]
  refine tracks_peek fun found hfound => ?_
  split
  · exact .left tracks_typeDeclaration (by simp [add_mul, mul_assoc, hfound])
  · exact .right (.left tracks_globals (by simp [add_mul, mul_assoc, hfound]))
      (by simp [mul_assoc, hfound])
  · rename_i htype hglobals
    subst hfound
    refine .right (.right tracks_native ?_) ?_
    · exact mul_assoc _ _ follow ▸ misses_only_mul hglobals
    · exact mul_assoc _ _ follow ▸ misses_only_mul htype

theorem declaration_length_lt (hrun : declaration ahead = .ok d rest) :
    rest.length < ahead.length :=
  length_lt_itemLine (fun _ => tracks_declarationPart) nil_notMem_declaration
    (declaration_eq_part ▸ hrun)

theorem startsDeclaration_constant (h : lexeme.token.kind = .keyword .constant) :
    startsDeclaration (lexeme :: rest) = isAt (.keyword .native) rest := by
  cases rest <;> simp [startsDeclaration, startsNative, isAt, h]

def declarations (f : List Declaration → List FunctionDeclaration → α) : Parser α := do
  let declarations ← many startsDeclaration declaration
  return f declarations (← functions)

theorem declarations_run (f : List Declaration → List FunctionDeclaration → α)
    (ahead : List Lexeme) :
    declarations f ahead = if startsDeclaration ahead then
      (declarationPart >>= fun d => endOfLine >>= fun _ => declarations fun items => f (d :: items))
        ahead
    else (functions >>= fun items => pure (f [] items)) ahead := by
  rw [declarations, many_bind fun _ _ _ => declaration_length_lt, declaration_bind]
  rfl

theorem misses_body {kinds : Language TokenKind} (h : kind? ahead ≠ some (.keyword .function)) :
    Misses ahead (anyLevels Body * kinds) :=
  (begins_body.mul_left nil_notMem_body).misses fun _ hkind heq => h (heq ▸ hkind)

theorem tracks_afterConstant {f : List Declaration → List FunctionDeclaration → α}
    (h : lexeme.token.kind = .keyword .constant) (hnext : ∀ d others, others.length < rest.length →
      Tracks 1 (anyLevels Declarations) others
        (declarations (fun items => f (d :: items)) others)) :
    Tracks 1 (only (.keyword .native) * Rule.signature * line (anyLevels Declarations) +
      anyLevels Body * line (anyLevels Functions)) rest (declarations f (lexeme :: rest)) := by
  rw [declarations_run, startsDeclaration_constant h]
  split
  · rename_i hnative
    have hpart : declarationPart (lexeme :: rest) = (do
        let position ← expect (.keyword .native)
        return Declaration.native (some lexeme.position) position (← Grammar.signature) :
          Parser _) rest := by
      have hkind : kind? (lexeme :: rest) = some (.keyword .constant) := congrArg some h
      show (match kind? (lexeme :: rest) with
        | some (.keyword .type) => typeDeclaration
        | some (.keyword .globals) => globals
        | _ => native) (lexeme :: rest) = _
      rw [hkind]
      exact eat?_some_bind h
    rw [bind_congr hpart]
    refine .left
      (tracks_itemLine (.after _ (by simp) fun _ _ => tracks_signature.map _) (by simp) (by simp)
      hnext fun d => ⟨_, rfl⟩) ?_
    rw [isAt_iff] at hnative
    exact mul_assoc _ _ (1 : Language TokenKind) ▸ misses_body (by simp [hnative])
  · rename_i hother
    have hrun : (functions >>= fun items => pure (f [] items)) (lexeme :: rest) =
        (functionBody (some lexeme.position) >>= fun first => endOfLine >>= fun _ =>
          many (fun tokens => !tokens.isEmpty) (functionOr .function) >>= fun items =>
            pure (f [] (first :: items))) rest := by
      have hstarts : startsFunction (lexeme :: rest) = true := by simp [startsFunction, isAt, h]
      have hfunction : function (lexeme :: rest) = functionBody (some lexeme.position) rest :=
        eat?_some_bind h
      rw [functions, bind_assoc, get_bind, if_neg (by simp), bind_assoc, functionOr, bind_assoc,
        get_bind, if_pos hstarts]
      simp only [bind_assoc, pure_bind]
      exact bind_congr hfunction
    rw [hrun]
    refine .right (tracks_itemLine (tracks_functionBody _) nil_notMem_body (by simp)
      (fun first _ _ => tracks_moreFunctions _) fun first => ⟨_, rfl⟩) ?_
    rw [isAt_iff] at hother
    simp [mul_assoc, hother]

theorem startsDeclaration_iff (hkind : kind ∈ kind? ahead) (hne : kind ≠ .keyword .constant) :
    startsDeclaration ahead = true ↔ kind = .keyword .type ∨ kind = .keyword .globals ∨
      kind = .keyword .native := by
  have hnative : startsNative ahead = isAt (.keyword .native) ahead := by
    match ahead, hkind with
    | [lexeme], _ => rfl
    | lexeme :: _ :: _, rfl => simp [startsNative, isAt, hne]
  simp [startsDeclaration, hnative, isAt_iff_of_mem hkind, or_assoc]

theorem tracks_declarations (f : List Declaration → List FunctionDeclaration → α) :
    Tracks 1 (anyLevels Declarations) ahead (declarations f ahead) := by
  induction hn : ahead.length using Nat.strongRecOn generalizing ahead f with
  | ind n ih =>
    by_cases hconstant : kind? ahead = some (.keyword .constant)
    · obtain ⟨lexeme, rest, rfl⟩ : ∃ lexeme rest, ahead = lexeme :: rest := by
        cases ahead with
        | nil => cases hconstant
        | cons lexeme rest => exact ⟨lexeme, rest, rfl⟩
      have h : lexeme.token.kind = .keyword .constant := Option.some.inj hconstant
      have hrest := tracks_afterConstant (f := f) h fun d others hless =>
        ih others.length (hn ▸ hless.trans (Nat.lt_succ_self rest.length)) _ rfl
      rw [declarations_eq_constant]
      refine .left (hrest.cons h) ?_
      simp [add_mul, mul_assoc, hconstant, misses_body]
    · rw [declarations_run, declarations_eq]
      split
      · rename_i hstarts
        refine .left (tracks_itemLine tracks_declarationPart nil_notMem_declaration (by simp)
          (fun first rest h => ih rest.length (hn ▸ h) _ rfl) fun first => ⟨_, rfl⟩) ?_
        rw [mul_one]
        refine begins_functions.misses fun kind hkind hfunction => hconstant ?_
        obtain rfl | rfl := hfunction
        · rw [startsDeclaration_iff hkind nofun] at hstarts
          simp at hstarts
        · exact hkind
      · rename_i hother
        refine .right (tracks_functions _) ?_
        rw [mul_assoc]
        refine (begins_declaration.mul_left nil_notMem_declaration).misses
          fun kind hkind hdeclaration => ?_
        have hne : kind ≠ .keyword .constant := fun heq => hconstant (heq ▸ hkind)
        rw [startsDeclaration_iff hkind hne] at hother
        simp [hne] at hdeclaration
        exact hother hdeclaration

theorem tracks_program (ahead : List Lexeme) :
    Tracks 1 (anyLevels Rule.Program) ahead (program ahead) := by
  rw [program_eq]
  refine .eat _ (fun _ rest => tracks_declarations _) (fun _ => tracks_declarations _) ?_
  rw [mul_one, declarations_eq]
  refine .add (.mul_left (begins_declaration.imp fun kind h heq => ?_) nil_notMem_declaration)
    (begins_functions.imp fun kind h heq => ?_)
  · simp [heq] at h
  · simp [heq] at h

end Grammar

-- ---------------------------------------------------------------------------
-- Texts
-- ---------------------------------------------------------------------------

theorem Position.offset_after (position : Position) (text : List Char) :
    (position.after text).offset = position.offset + String.utf8Len text := by
  induction text generalizing position with
  | nil => rfl
  | cons c text ih =>
    have hadvance : (position.advance c).offset = position.offset + c.utf8Size := by
      unfold advance
      split <;> rfl
    show ((position.advance c).after text).offset = _
    rw [ih, hadvance, String.utf8Len_cons]
    omega

theorem offsets_of_lexemesFrom (h : lexemesFrom position input found = .ok all) : ∃ others,
    all = found.reverse ++ others ∧
      others.Pairwise (fun first second => first.position.offset < second.position.offset) ∧
      ∀ lexeme ∈ others, position.offset ≤ lexeme.position.offset ∧
        lexeme.position.offset < position.offset + String.utf8Len input := by
  fun_induction lexemesFrom position input found with
  | case1 position input found gap hdrop =>
    cases h
    exact ⟨[], by simp, .nil, by simp⟩
  | case2 => cases h
  | case3 position input found gap start first rest hdrop kind n hlexeme spelling ih =>
    obtain ⟨others, rfl, hpairwise, hbounds⟩ := ih h
    have hinput : String.utf8Len input = String.utf8Len (input.take gap) +
      (String.utf8Len spelling +
        String.utf8Len (rest.drop n)) := by
      rw [← String.utf8Len_append, List.cons_append, List.take_append_drop, ← hdrop,
        ← String.utf8Len_append,
        List.take_append_drop]
    have hspelling : 0 < String.utf8Len spelling := Nat.add_pos_right _ first.utf8Size_pos
    have hstart : start.offset = position.offset + String.utf8Len (input.take gap) :=
      Position.offset_after _ _
    simp only [Position.offset_after] at hbounds
    refine ⟨⟨⟨kind, tokenText kind spelling⟩, start⟩ :: others, by simp,
      .cons (fun lexeme hlexeme => ?_) hpairwise,
      List.forall_mem_cons.mpr ⟨?_, fun lexeme hlexeme => ?_⟩⟩
    · have hbound := hbounds lexeme hlexeme
      show start.offset < _
      omega
    · show position.offset ≤ start.offset ∧ start.offset < _
      omega
    · have hbound := hbounds lexeme hlexeme
      omega

theorem offsets_of_lexemes (h : lexemes text = .ok all) :
    all.Pairwise (fun first second => first.position.offset < second.position.offset) ∧
      ∀ lexeme ∈ all, lexeme.position.offset < text.utf8ByteSize := by
  obtain ⟨others, rfl, hpairwise, hbounds⟩ := offsets_of_lexemesFrom h
  refine ⟨hpairwise, fun lexeme hlexeme => (hbounds lexeme hlexeme).2.trans_eq ?_⟩
  rw [← String.utf8ByteSize_ofList, String.ofList_toList]
  exact Nat.zero_add _

theorem Program.ofText_error (h : lexemes text = .ok all) : Program.ofText text = .error error ↔
    ∃ fault rest, Grammar.program all = .error fault rest ∧ error = .before text fault rest := by
  rw [ofText, h]
  cases hrun : Grammar.program all with
  | ok parsed rest => simp [bind, Except.bind, pure, Except.pure, hrun]
  | error fault rest =>
    simp [bind, Except.bind, throw, throwThe, MonadExceptOf.throw, hrun, eq_comm]

theorem offset_end (text : String) :
    (Position.start.after text.toList).offset = text.utf8ByteSize := by
  rw [Position.offset_after, ← String.utf8ByteSize_ofList, String.ofList_toList]
  exact Nat.zero_add _

/-- The fault is at the offset of the first token that is left, which no token before it has. -/
theorem findIdx_before (hall : lexemes text = .ok (taken ++ rest)) (fault : SyntaxFault) :
    (taken ++ rest).findIdx (fun lexeme =>
      lexeme.position.offset = (SyntaxError.before text fault rest).position.offset) =
        taken.length := by
  obtain ⟨hpairwise, hbounds⟩ := offsets_of_lexemes hall
  have hbefore (lexeme : Lexeme) (h : lexeme ∈ taken) :
      lexeme.position.offset ≠ (SyntaxError.before text fault rest).position.offset := by
    cases rest with
    | nil => exact (offset_end text ▸ hbounds lexeme (List.mem_append_left _ h)).ne
    | cons next rest =>
        exact ((List.pairwise_append.mp hpairwise).2.2 lexeme h next List.mem_cons_self).ne
  have hnone := List.findIdx_eq_length_of_false fun lexeme h => decide_eq_false (hbefore lexeme h)
  rw [List.findIdx_append, hnone, if_neg (Nat.lt_irrefl _)]
  cases rest with
  | nil => simp
  | cons next rest => simp [List.findIdx_cons, SyntaxError.before]

/-- A script is refused at the first token that no script goes on with. What is before it
starts some script, with however many levels. -/
theorem ofText_error_offending (hall : lexemes text = .ok all)
    (h : Program.ofText text = .error error)
    (hlevels : error.fault ≠ .tooDeep) :
    let k := all.findIdx fun lexeme => lexeme.position.offset = error.position.offset
    (k = all.length ↔ error.position.offset = text.utf8ByteSize) ∧
      (∃ n more, Rule.Program n (kindsOf (all.take k) ++ more)) ∧
      (k < all.length → ∀ n more, ¬Rule.Program n (kindsOf (all.take (k + 1)) ++ more)) := by
  obtain ⟨fault, rest, hrun, rfl⟩ := (Program.ofText_error hall).mp h
  have htracks := Grammar.tracks_program all
  rw [hrun] at htracks
  cases htracks with
  | tooDeep => cases rest <;> exact absurd rfl hlevels
  | error taken heq hmore hdead =>
    obtain ⟨more, n, hmore⟩ := hmore
    subst heq
    rw [findIdx_before hall]
    refine ⟨?_, ⟨n, more, by rwa [List.take_left]⟩, fun hlength m others => ?_⟩
    · cases rest with
      | nil => simp [SyntaxError.before, offset_end]
      | cons next rest =>
        have hbound := (offsets_of_lexemes hall).2 next (by simp)
        simp [SyntaxError.before, hbound.ne]
    · cases rest with
      | nil => simp at hlength
      | cons next rest =>
        rw [List.take_length_add_append, kindsOf_append, List.append_assoc]
        exact fun hderives => hdead _ rfl others (by rw [mul_one]; exact ⟨m, hderives⟩)

def nameless : String := "globals\ninteger = 5\nendglobals\n"

def namelessTokens : List Lexeme := [
  ⟨⟨.keyword .globals, "globals"⟩, ⟨1, 1, 0⟩⟩,
  ⟨⟨.newline, "\n"⟩, ⟨1, 8, 7⟩⟩,
  ⟨⟨.builtin .integer, "integer"⟩, ⟨2, 1, 8⟩⟩,
  ⟨⟨.assign, "="⟩, ⟨2, 9, 16⟩⟩,
  ⟨⟨.literal .integer, "5"⟩, ⟨2, 11, 18⟩⟩,
  ⟨⟨.newline, "\n"⟩, ⟨2, 12, 19⟩⟩,
  ⟨⟨.keyword .endglobals, "endglobals"⟩, ⟨3, 1, 20⟩⟩,
  ⟨⟨.newline, "\n"⟩, ⟨3, 11, 30⟩⟩]

def namelessError : SyntaxError :=
  ⟨.unexpected (.token .identifier) (some ⟨.assign, "="⟩), ⟨2, 9, 16⟩, 1⟩

theorem ofText_nameless_offending : lexemes nameless = .ok namelessTokens ∧
    Program.ofText nameless = .error namelessError ∧ namelessError.fault ≠ .tooDeep ∧
    (∃ n more, Rule.Program n ([.keyword .globals, .newline, .builtin .integer] ++ more)) ∧
    ∀ n more, ¬Rule.Program n
      ([.keyword .globals, .newline, .builtin .integer, .assign] ++ more) := by
  have hall : lexemes nameless = .ok namelessTokens := by decide +kernel
  have h : Program.ofText nameless = .error namelessError :=
    (Program.ofText_error hall).mpr ⟨_, _, rfl, rfl⟩
  obtain ⟨-, hstarts, hnone⟩ := ofText_error_offending hall h nofun
  exact ⟨hall, h, nofun, hstarts, hnone (by decide)⟩

end Mapsmith.Script
