import Mapsmith.Proofs.Script.Acceptance
import Mapsmith.Proofs.Script.Curtailing
import Mapsmith.Proofs.Script.Depth
import Mapsmith.Proofs.Script.Offending

/-!
# The limit on levels

`ofText_iff_depth`: over the tokens of a tree that is too deep the parser does not go wrong: it
gives up for lack of levels. So whether a script is read depends on the depth of its tree
alone, the index of what is set taking no level.
-/

namespace Mapsmith.Script

namespace Grammar

open Mapsmith.Script.Parser

-- ---------------------------------------------------------------------------
-- Declarations
-- ---------------------------------------------------------------------------

theorem tries_expression (n : Nat) (e : Expression) :
    (expression n).Tries (· = e) e.tokens (Before TokenKind.endsExpression) :=
  (curtails_expression (Nat.le_max_left n e.depth)).tries
    (takes_expression ((e.fits_iff_depth _).mpr (Nat.le_max_right n e.depth)))

theorem tries_block {block : Block} (h : block.Fits m inLoop) (n : Nat) :
    (blockWith (statement n inLoop)).Tries (· = block) block.tokens
      (Before fun kind => !kind.startsStatement) := by
  have hmore : block.Fits (max n m) inLoop := by
    rw [block.fits_iff_depth h]
    exact ((block.fits_iff_depth h m).mp h).trans (Nat.le_max_right n m)
  exact (curtails_blockWith (curtails_statement (Nat.le_max_left n m) inLoop)).tries
    (takes_blockWith (takes_statement _ inLoop) block hmore)

theorem tries_value (value : Expression) {f : Expression → α} (hf : result (f value)) :
    (do return f (← expression maxLevels) : Parser α).Tries result value.tokens
      (Before (· == .newline)) := by
  have hexpression :
      (expression maxLevels).Tries (· = value) value.tokens (Before (· == .newline)) :=
    (tries_expression maxLevels value).weaken fun _ hs => hs.imp (by simp; rfl)
  exact hexpression.return f fun _ heq => heq ▸ hf

theorem tries_variableRest (declared : VariableDeclaration) (start : Position) :
    (variableRest start declared.type).Tries (fun found => found.unplaced = declared.unplaced)
      declared.tokens.tail (Before (· == .newline)) := by
  obtain ⟨position, type, id, initial⟩ := declared
  cases initial with
  | array | unset =>
    exact (takes_variableRest ((VariableDeclaration.fits_iff_depth _ _).mpr (Nat.zero_le _))
      start).tries
  | value value =>
    refine .skip (fun ahead rest ha => ?_) (Takes.before (takes_identifier id)
      (.eat .assign fun _ => tries_value value rfl))
    rw [Ahead.kind?_eq ha]
    nofun

theorem tries_globalVariable (member : GlobalDeclaration) :
    globalVariable.Tries (fun found => found.unplaced = member.unplaced) member.tokens
      (Before (· == .newline)) := by
  cases member with
  | constant position type id value =>
    exact .eat (.keyword .constant) fun _ => Takes.before (takes_typeName type)
      (Takes.before (takes_identifier id) (.after .assign fun _ => tries_value value rfl))
  | plain declared =>
    refine .skip (fun ahead rest ha hk => ?_) (.position fun start =>
      Takes.before (takes_typeName declared.type)
        ((tries_variableRest declared start).return _ fun _ heq => ?_))
    · exact typeName_ne_keyword _ _ (Option.some.inj ((Ahead.kind?_eq ha).symm.trans hk))
    · exact congrArg GlobalDeclaration.plain heq

theorem tries_globals (start : Position) (members : List GlobalDeclaration) : globals.Tries
    (fun found => found.unplaced = (Declaration.globals start members).unplaced)
    (Declaration.globals start members).tokens stop := by
  refine .after (.keyword .globals) fun start => .after .newline fun _ => .many
    (fun ahead declared rest hrun => ?_) (fun member _ => (tries_globalVariable member).line)
    (fun member _ ahead rest ha => by simp [(global_of_ahead member ha).1])
    (fun ahead rest ha _ => by simp [isAt_of_ahead ha])
    fun found hfound => .after (.keyword .endglobals) fun _ => (takes_pure ?_).tries
  · have htracks : Tracks 1 (anyLevels Rule.Global * only .newline) ahead ((do
        let declared ← globalVariable
        let _ ← expect .newline
        return declared : Parser GlobalDeclaration) ahead) :=
      .bind (tracks_globalVariable (begins_only_mul rfl)) (by simp) fun _ _ _ =>
        (tracks_expect _).map _
    exact htracks.length_lt (fun hnil => Rule.nil_notMem_global (nil_mem_mul.mp hnil).1) hrun
  · exact congrArg (Declaration.globals .start) (map_eq_of_forall₂ hfound)

theorem tries_localVariable (declared : VariableDeclaration) :
    localVariable.Tries (fun found => found.unplaced = declared.unplaced)
      (.keyword .localWord :: (declared.tokens ++ [.newline])) stop := by
  refine .after (.keyword .localWord) fun start => ?_
  show Tries _ _ ([.typeName declared.type] ++ (declared.tokens.tail ++ [.newline])) stop
  exact Takes.before (takes_typeName declared.type) (tries_variableRest declared start).line

theorem tries_functionBody {declaration : FunctionDeclaration} (hd : declaration.Fits n)
    (hc : (found.map fun _ => Position.start) = declaration.constant.map fun _ => Position.start) :
    (functionBody found).Tries (fun found => found.unplaced = declaration.unplaced)
      (.keyword .function :: (declaration.signature.tokens ++ .newline ::
        (declaration.locals.flatMap (fun declared =>
          .keyword .localWord :: (declared.tokens ++ [.newline])) ++
            (declaration.body.tokens ++ [.keyword .endfunction])))) stop := by
  have hless (ahead : List Lexeme) (declared : VariableDeclaration) (rest : List Lexeme)
      (hrun : localVariable ahead = .ok declared rest) : rest.length < ahead.length := by
    have htracks : Tracks 1 _ ahead (localVariable ahead) := tracks_localVariable
    exact htracks.length_lt (by simp) hrun
  refine .after (.keyword .function) fun start => Takes.before
    (takes_signature declaration.signature)
    (.after .newline fun _ => .many hless (fun declared _ => tries_localVariable declared)
      (fun declared _ ahead rest ha => isAt_of_ahead ha)
      (fun ahead rest ha _ => isAt_eq_false (body_of_ahead declaration.body ha) (by simp))
      fun locals hlocals => (tries_block hd.2 maxLevels).bind ?_ fun _ _ ha _ =>
        Ahead.before ha rfl)
  rintro _ rfl
  refine .after (.keyword .endfunction) fun finish => (takes_pure ?_).tries
  simp only [FunctionDeclaration.unplaced, hc, map_eq_of_forall₂ hlocals]

theorem tries_function {declaration : FunctionDeclaration} (hd : declaration.Fits n) :
    function.Tries (fun found => found.unplaced =
      declaration.unplaced) declaration.tokens stop := by
  obtain ⟨constant, position, s, locals, body, finish⟩ := declaration
  cases constant with
  | none =>
    refine .skip (fun ahead rest ha hk => ?_) (tries_functionBody hd rfl)
    cases (Ahead.kind?_eq ha).symm.trans hk
  | some start => exact .eat (.keyword .constant) fun start => tries_functionBody hd rfl

-- ---------------------------------------------------------------------------
-- Programs
-- ---------------------------------------------------------------------------

theorem TakesLine.tries {p : Parser α} (h : TakesLine p result tokens) :
    p.TriesLine result tokens := by
  intro ahead rest ha
  obtain ⟨a, hrun, hr⟩ := h ahead rest ha
  exact hrun ▸ .ok hr

theorem triesLine_bind {p : Parser α} (h : p.Tries result tokens fun _ => True) :
    (do let a ← p; endOfLine; return a : Parser α).TriesLine result tokens := by
  rintro ahead rest (ha | ⟨ha, rfl⟩)
  · obtain ⟨middle, hfirst, lexeme, others, rfl, hlexeme, rfl⟩ := ahead_append.mp ha
    have hend : endOfLine (lexeme :: others) = .ok () others :=
      endOfLine_iff.mpr (.inr ⟨lexeme, rfl, congrArg Token.kind hlexeme⟩)
    refine (h _ _ hfirst trivial).bind fun a hr => ?_
    rw [Parser.bind_ok hend]
    exact .ok hr
  · exact (h _ _ ha trivial).bind fun a hr => .ok hr

theorem TriesLine.peek {f : Option TokenKind → Parser α}
    (h : (f (some token.kind)).TriesLine result (token :: tokens)) :
    (peek >>= f).TriesLine result (token :: tokens) := by
  intro ahead rest ha
  have hkind : kind? ahead = some token.kind := by
    obtain ha | ⟨ha, -⟩ := ha <;> exact Ahead.kind?_eq ha
  show Finishes result rest (f (kind? ahead) ahead)
  rw [hkind]
  exact h ahead rest ha

theorem triesLine_declaration {d : Declaration} (hd : d.Fits n) :
    declaration.TriesLine (fun found => found.unplaced = d.unplaced) d.tokens := by
  cases d with
  | type start id parent =>
    have hparent : (Declaration.type start id parent).Fits maxLevels := hd
    exact (takesLine_declaration hparent).tries
  | native constant start s =>
    have hnative : (Declaration.native constant start s).Fits maxLevels := trivial
    exact (takesLine_declaration hnative).tries
  | globals start members =>
    exact TriesLine.peek (triesLine_bind (tries_globals start members))

theorem triesLine_functionOr (expected : Expected) {f : FunctionDeclaration} (hf : f.Fits n) :
    (functionOr expected).TriesLine (fun found => found.unplaced = f.unplaced) f.tokens := by
  intro ahead rest ha
  rw [functionOr, get_bind, if_pos (startsFunction_of_line ha)]
  exact triesLine_bind (tries_function hf) ahead rest ha

theorem finishes_functions {items : List FunctionDeclaration} (hf : ∀ f ∈ items, f.Fits n)
    (hlines : Lines FunctionDeclaration.tokens (· = []) items ts) (ha : Ahead ts ahead []) :
    Finishes (fun found => found.map FunctionDeclaration.unplaced =
      items.map FunctionDeclaration.unplaced) [] (functions ahead) := by
  have hmore {first : FunctionDeclaration} {others : List FunctionDeclaration} {ts : List Token}
      {middle : List Lexeme} (hfits : ∀ f ∈ first :: others, f.Fits n)
      (hne : ahead ≠ [])
      (hline : Ahead (first.tokens ++ [.newline]) ahead middle ∨
        Ahead first.tokens ahead [] ∧ middle = [])
      (hlines : Lines FunctionDeclaration.tokens (· = []) others ts) (hrest : Ahead ts middle []) :
      Finishes (fun found => found.map FunctionDeclaration.unplaced =
        (first :: others).map FunctionDeclaration.unplaced) [] (functions ahead) := by
    obtain ⟨hfirst, hothers⟩ := List.forall_mem_cons.mp hfits
    rw [functions, get_bind, if_neg (mt List.isEmpty_iff.mp hne)]
    refine (triesLine_functionOr .declaration hfirst ahead middle hline).bind fun a hr => ?_
    refine finishes_lines (fun _ _ _ => functionOr_length_lt) hlines hrest
      (fun f hmem => triesLine_functionOr .function (hothers f hmem))
      (fun f ahead more rest ha => ?_) ?_ fun found _ ahead hfound hnil ha => ?_
    · simpa using ne_nil_of_function f ha
    · rintro _ _ rfl rfl
      rfl
    · subst hnil
      cases ahead_nil.mp ha
      refine .ok ?_
      rw [List.map_cons, List.map_cons, hr, map_eq_of_forall₂ hfound]
  cases hlines with
  | nil hts =>
    cases hts
    cases ahead_nil.mp ha
    exact .ok rfl
  | @last f _ => exact hmore hf (ne_nil_of_function f ha.append_nil) (.inr ⟨ha, rfl⟩) (.nil rfl) rfl
  | @cons f items ts hrest =>
    obtain ⟨middle, hline, hothers⟩ := ha.line
    exact hmore hf (ne_nil_of_function f ha) (.inl hline) hrest hothers

/-- Over the tokens of a tree the parser gives the tree up to its positions, or gives up
for lack of levels. -/
theorem finishes_program {tree : Program} (hf : tree.Fits n) (hs : tree.Spelled ts)
    (ha : Ahead ts ahead [] ∨ Ahead (.newline :: ts) ahead []) :
    Finishes (fun found =>
      found.declarations.map Declaration.unplaced = tree.declarations.map Declaration.unplaced ∧
        found.functions.map FunctionDeclaration.unplaced =
          tree.functions.map FunctionDeclaration.unplaced) [] (program ahead) := by
  have hrest {ahead : List Lexeme} (ha : Ahead ts ahead []) : Finishes (fun found =>
      found.declarations.map Declaration.unplaced = tree.declarations.map Declaration.unplaced ∧
        found.functions.map FunctionDeclaration.unplaced =
          tree.functions.map FunctionDeclaration.unplaced) [] ((do
      let declarations ← many startsDeclaration declaration
      return ⟨declarations, ← functions⟩ : Parser Program) ahead) :=
    finishes_lines (fun _ _ _ => declaration_length_lt) hs ha
      (fun d hd => triesLine_declaration (hf.declarations d hd))
      (fun d _ _ _ => startsDeclaration_of_ahead d) (fun _ _ => startsDeclaration_of_lines)
      fun found ts ahead hfound hlines ha => (finishes_functions hf.functions hlines ha).bind
        fun functions hfunctions => .ok ⟨map_eq_of_forall₂ hfound, hfunctions⟩
  obtain ha | ⟨lexeme, others, rfl, hlexeme, ha⟩ := ha
  · rw [program, eat?_none_bind (not_newline_of_spelled hs ha)]
    exact hrest ha
  · have hkind : lexeme.token.kind = .newline := congrArg Token.kind hlexeme
    rw [program, eat?_some_bind hkind]
    exact hrest ha

end Grammar

-- ---------------------------------------------------------------------------
-- Texts
-- ---------------------------------------------------------------------------

/-- A tree of the tokens of a script by the grammar, however deep. -/
structure Program.IsTreeOf (tree : Program) (tokens : List Token) : Prop where
  fits : ∃ n, tree.Fits n
  written : tree.Written tokens

/-- The kinds of the tokens follow the grammar with some number of levels if and only if the
tokens have a tree. -/
theorem exists_tree_iff (hc : Canonical all) :
    (∃ tree : Program, tree.IsTreeOf (all.map Lexeme.token)) ↔
      ∃ n, Rule.Program n (kindsOf all) := by
  constructor
  · rintro ⟨tree, ⟨n, hfits⟩, hwritten⟩
    refine ⟨n, ?_⟩
    rw [kindsOf, kinds_map_token]
    exact hwritten.derived hfits
  · rintro ⟨n, h⟩
    obtain ⟨tree, hfits, hwritten⟩ := exists_written h (ofKinds_of_canonical hc)
    exact ⟨tree, ⟨n, hfits⟩, hwritten⟩

theorem Grammar.program_of_tree {tree : Program} (hc : Canonical all)
    (h : tree.IsTreeOf (all.map Lexeme.token)) :
    (tree.depth 0 ≤ maxLevels ∧ ∃ found, program all = .ok found []) ∨
      maxLevels < tree.depth 0 ∧ ∃ left, program all = .error .tooDeep left := by
  obtain ⟨⟨n, hfits⟩, hwritten⟩ := h
  obtain ⟨tokens, hs, ha⟩ := hwritten.ahead
  obtain hdepth | hdepth := Nat.lt_or_ge maxLevels (tree.depth 0)
  · refine .inr ⟨hdepth, ?_⟩
    have hrun := finishes_program hfits hs ha
    generalize hresult : program all = outcome at hrun
    cases hrun with
    | tooDeep => exact ⟨_, rfl⟩
    | @ok found heq =>
      -- What is read is no deeper than the limit, and the tree is as deep as what is read.
      obtain ⟨-, hfound, -⟩ := spelled_of_program hc hresult
      have hle := (Program.fits_iff_depth hfound _).mp hfound
      rw [Program.depth_congr heq.1 heq.2] at hle
      exact absurd hle (Nat.not_le_of_lt hdepth)
  · obtain ⟨found, hrun, -⟩ :=
      program_of_spelled ((Program.fits_iff_depth hfits _).mpr hdepth) hs ha
    exact .inl ⟨hdepth, found, hrun⟩

/-- A script that follows the grammar with some number of levels is read if its tree is no
deeper than the limit, and is otherwise refused for its depth. The index of what is set takes
no level: were it to take one, as other indexes do, the tree would be as deep or one deeper. -/
theorem ofText_iff_depth (hall : lexemes text = .ok all)
    (hderived : ∃ n, Rule.Program n (kindsOf all)) :
    (∃ tree : Program, tree.IsTreeOf (all.map Lexeme.token)) ∧
      (∀ parsed, Program.ofText text = .ok parsed → parsed.IsTreeOf (all.map Lexeme.token)) ∧
      ∀ tree : Program, tree.IsTreeOf (all.map Lexeme.token) →
        ((∃ parsed, Program.ofText text = .ok parsed) ↔ tree.depth 0 ≤ maxLevels) ∧
          (maxLevels < tree.depth 0 →
            ∃ error, Program.ofText text = .error error ∧ error.fault = .tooDeep) ∧
          tree.depth 0 ≤ tree.depth 1 ∧ tree.depth 1 ≤ tree.depth 0 + 1 := by
  have hc := canonical_of_lexemes hall
  refine ⟨(exists_tree_iff hc).mpr hderived, fun parsed hparsed => ?_, fun tree htree => ?_⟩
  · obtain ⟨_, rest, hall', hrun⟩ := Program.ofText_ok.mp hparsed
    cases hall.symm.trans hall'
    obtain ⟨-, hfits, hspelled⟩ := Grammar.spelled_of_program hc hrun
    exact ⟨⟨maxLevels, hfits⟩, hspelled⟩
  · rw [← and_assoc]
    refine ⟨?_, tree.depth_target⟩
    obtain ⟨hdepth, found, hrun⟩ | ⟨hdepth, left, hrun⟩ := Grammar.program_of_tree hc htree
    · have hparsed : Program.ofText text = .ok found := Program.ofText_ok.mpr ⟨all, [], hall, hrun⟩
      exact ⟨iff_of_true ⟨found, hparsed⟩ hdepth,
        fun hdeep => absurd hdepth (Nat.not_le_of_lt hdeep)⟩
    · have herror := (Program.ofText_error hall).mpr ⟨_, left, hrun, rfl⟩
      refine ⟨iff_of_false ?_ (Nat.not_le_of_lt hdepth), fun _ => ⟨_, herror, ?_⟩⟩
      · rintro ⟨parsed, hparsed⟩
        cases herror.symm.trans hparsed
      · cases left <;> rfl

/-- A number in so many parentheses. -/
def wrapped : Nat → Expression
  | 0 => .chain (.literal .integer "1") .nil
  | n + 1 => .chain (.parens (wrapped n)) .nil

/-- A function that sets an element, with so many parentheses in the index and in the value. -/
def setting (index value : Nat) : FunctionDeclaration where
  constant := none
  position := .start
  signature := ⟨"f", [], none⟩
  locals := []
  body := .cons (.action (.set "a" (some (wrapped index)) (wrapped value))) .nil
  finish := .start

def settingScript (index value : Nat) : Program := ⟨[], [setting index value]⟩

def wrappedCharacters (n : Nat) : List Char :=
  List.replicate n '(' ++ '1' :: List.replicate n ')'

def settingCharacters (index value : Nat) : List Char :=
  "function f takes nothing returns nothing\nset a[".toList ++ wrappedCharacters index ++
    "] = ".toList ++ wrappedCharacters value ++ "\nendfunction\n".toList

theorem depth_wrapped (n : Nat) : (wrapped n).depth = n := by
  induction n with
  | zero => rfl
  | succ n ih => rw [wrapped, Expression.depth, Operand.depth, ih]; rfl

theorem depth_settingScript (index value target : Nat) :
    (settingScript index value).depth target = max (index + target) value := by
  simp [settingScript, setting, Program.depth, deepest, FunctionDeclaration.depth, Block.depth,
    Statement.depth, Action.depth, depth_wrapped]

/-- A text with the tokens of the script, of which it has to be shown what the tokens are. -/
theorem settingScript_isTreeOf (index value : Nat)
    (h : (lexemesFrom .start (settingCharacters index value) []).map (·.map Lexeme.token) =
      .ok ((setting index value).tokens ++ [.newline])) :
    ∃ all, lexemes (String.ofList (settingCharacters index value)) = .ok all ∧
      (settingScript index value).IsTreeOf (all.map Lexeme.token) := by
  obtain ⟨all, hall, htokens⟩ := map_ok.mp h
  refine ⟨all, ?_, ⟨max index value, ?_⟩, .inl ?_⟩
  · rw [lexemes, String.toList_ofList, hall]
  · have hfits (n m : Nat) (hle : n ≤ m) : (wrapped n).Fits m := by
      rwa [Expression.fits_iff_depth, depth_wrapped]
    refine ⟨by simp [settingScript], List.forall_mem_singleton.mpr ⟨by simp [setting], ?_⟩⟩
    exact ⟨⟨hfits _ _ (Nat.le_max_left ..), hfits _ _ (Nat.le_max_right ..)⟩, trivial⟩
  · rw [htokens]
    exact .nil (.cons (.nil rfl))

/-- A value in more parentheses than there are levels is refused. -/
theorem ofText_iff_depth_setting_value : ∃ all,
    lexemes (String.ofList (settingCharacters 0 129)) = .ok all ∧
      (∃ n, Rule.Program n (kindsOf all)) ∧
      (settingScript 0 129).IsTreeOf (all.map Lexeme.token) ∧
      ¬(∃ parsed, Program.ofText (String.ofList (settingCharacters 0 129)) = .ok parsed) ∧
      ∃ error, Program.ofText (String.ofList (settingCharacters 0 129)) = .error error ∧
        error.fault = .tooDeep := by
  obtain ⟨all, hall, htree⟩ := settingScript_isTreeOf 0 129 (by decide +kernel)
  have hderived := (exists_tree_iff (canonical_of_lexemes hall)).mp ⟨_, htree⟩
  obtain ⟨hread, hrefused, -⟩ := (ofText_iff_depth hall hderived).2.2 _ htree
  rw [depth_settingScript] at hread hrefused
  exact ⟨all, hall, hderived, htree, fun h => absurd (hread.mp h) (by decide), hrefused (by decide)⟩

/-- An index in as many parentheses as there are levels is read, although a level for the
index would be one too many. -/
theorem ofText_setting_index : ∃ all,
    lexemes (String.ofList (settingCharacters 128 0)) = .ok all ∧
      (∃ n, Rule.Program n (kindsOf all)) ∧
      (settingScript 128 0).IsTreeOf (all.map Lexeme.token) ∧
      (settingScript 128 0).depth 1 = maxLevels + 1 ∧
      ∃ parsed, Program.ofText (String.ofList (settingCharacters 128 0)) = .ok parsed := by
  obtain ⟨all, hall, htree⟩ := settingScript_isTreeOf 128 0 (by decide +kernel)
  have hc := canonical_of_lexemes hall
  refine ⟨all, hall, (exists_tree_iff hc).mp ⟨_, htree⟩, htree, depth_settingScript 128 0 1, ?_⟩
  obtain ⟨-, parsed, hrun⟩ | ⟨hdeep, -⟩ := Grammar.program_of_tree hc htree
  · exact ⟨parsed, Program.ofText_ok.mpr ⟨all, [], hall, hrun⟩⟩
  · rw [depth_settingScript] at hdeep
    exact absurd hdeep (by decide)

end Mapsmith.Script
