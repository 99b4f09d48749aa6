import Mapsmith.Proofs.Script.Completeness
import Mapsmith.Proofs.Script.Derivations
import Mapsmith.Proofs.Script.Lexing

/-!
# The parser accepts the grammar

`ofText_iff_derived`: declarations and programs follow the rules as expressions and statements
do. So a text is read if and only if the kinds of its tokens are derived within the levels of
the parser.
-/

namespace Mapsmith.Script

-- ---------------------------------------------------------------------------
-- Declarations are derived
-- ---------------------------------------------------------------------------

theorem typeName_derived (name : String) : Rule.TypeName (Token.typeName name).kind := by
  unfold Token.typeName
  split
  · exact .builtin
  · exact .identifier

theorem parameters_derived (first : Parameter) (rest : List Parameter) :
    Rule.Parameters ((takenTokens (first :: rest)).map Token.kind) := by
  induction rest generalizing first with
  | nil => exact .last (typeName_derived first.type)
  | cons second rest ih => exact .more (typeName_derived first.type) (ih second)

theorem Signature.derived (s : Signature) : Rule.Signature (s.tokens.map Token.kind) := by
  have htaken : Rule.Taken ((takenTokens s.takes).map Token.kind) := by
    cases s.takes with
    | nil => exact .nothing
    | cons first rest => exact .parameters (parameters_derived first rest)
  have hreturned : Rule.Returned (returnedToken s.returns).kind := by
    cases s.returns with
    | none => exact .nothing
    | some name => exact .type (typeName_derived name)
  rw [tokens]
  simp only [List.map_cons, List.map_append]
  exact .intro htaken hreturned

theorem VariableDeclaration.derived {declared : VariableDeclaration} (h : declared.Fits n) :
    Rule.Variable n (declared.tokens.map Token.kind) := by
  obtain ⟨position, type, id, initial⟩ := declared
  cases initial with
  | array => exact .array (typeName_derived type)
  | unset => exact .unset (typeName_derived type)
  | value value => exact .value (typeName_derived type) (value.derives n (h value rfl))

theorem GlobalDeclaration.derived {member : GlobalDeclaration} (h : member.Fits n) :
    Rule.Global n (member.tokens.map Token.kind) := by
  cases member with
  | constant position type id value => exact .constant (typeName_derived type) (value.derives n h)
  | plain declared => exact .plain (VariableDeclaration.derived h)

theorem globals_derived {members : List GlobalDeclaration} (h : ∀ member ∈ members, member.Fits n) :
    Rule.Globals n
      ((members.flatMap fun member => member.tokens ++ [.newline]).map Token.kind) := by
  induction members with
  | nil => exact .nil
  | cons member members ih =>
    obtain ⟨hmember, hmembers⟩ := List.forall_mem_cons.mp h
    simpa using Rule.Globals.cons (GlobalDeclaration.derived hmember) (ih hmembers)

theorem locals_derived {locals : List VariableDeclaration}
    (h : ∀ declared ∈ locals, declared.Fits n) :
    Rule.Locals n ((locals.flatMap fun declared =>
      .keyword .localWord :: (declared.tokens ++ [.newline])).map Token.kind) := by
  induction locals with
  | nil => exact .nil
  | cons declared locals ih =>
    obtain ⟨hdeclared, hlocals⟩ := List.forall_mem_cons.mp h
    simpa using Rule.Locals.cons (VariableDeclaration.derived hdeclared) (ih hlocals)

theorem Declaration.derived {d : Declaration} (h : d.Fits n) :
    Rule.Declaration n (d.tokens.map Token.kind) := by
  cases d with
  | type position id parent =>
    have hparent : Rule.Parent (Token.typeName parent).kind := by
      obtain h | h := h <;> rw [h]
      · exact .identifier
      · exact .handle
    exact .type hparent
  | native constant position s =>
    cases constant with
    | none => exact .native s.derived
    | some _ => exact .constantNative s.derived
  | globals position members =>
    rw [tokens]
    simp only [List.map_cons, List.map_append]
    exact .globals (globals_derived h)

theorem FunctionDeclaration.derived {f : FunctionDeclaration} (h : f.Fits n) :
    Rule.Function n (f.tokens.map Token.kind) := by
  obtain ⟨constant, position, s, locals, body, finish⟩ := f
  have hbody := Rule.Body.intro s.derived (locals_derived h.1) (body.derives n false h.2)
  rw [tokens]
  simp only [List.map_cons, List.map_append]
  cases constant with
  | none => exact .plain hbody
  | some _ => exact .constant hbody

theorem functions_derived (h : ∀ f ∈ items, f.Fits n)
    (hlines : Lines FunctionDeclaration.tokens (· = []) items tokens) :
    Rule.Functions n (tokens.map Token.kind) := by
  induction hlines with
  | nil hrest =>
    cases hrest
    exact .nil
  | last _ => exact .last (FunctionDeclaration.derived (h _ List.mem_cons_self))
  | cons _ ih =>
    obtain ⟨hf, hs⟩ := List.forall_mem_cons.mp h
    simpa using Rule.Functions.cons (FunctionDeclaration.derived hf) (ih hs)

theorem declarations_derived (h : ∀ d ∈ items, d.Fits n)
    (hothers : ∀ tokens, others tokens → Rule.Functions n (tokens.map Token.kind))
    (hlines : Lines Declaration.tokens others items tokens) :
    Rule.Declarations n (tokens.map Token.kind) := by
  induction hlines with
  | nil hrest => exact .functions (hothers _ hrest)
  | last _ => exact .last (Declaration.derived (h _ List.mem_cons_self))
  | cons _ ih =>
    obtain ⟨hd, hs⟩ := List.forall_mem_cons.mp h
    simpa using Rule.Declarations.cons (Declaration.derived hd) (ih hs)

theorem Program.derived {program : Program} (h : program.Fits n) (hs : program.Spelled tokens) :
    Rule.Declarations n (tokens.map Token.kind) :=
  declarations_derived h.declarations (fun _ => functions_derived h.functions) hs

-- ---------------------------------------------------------------------------
-- What is derived is a declaration
-- ---------------------------------------------------------------------------

theorem ofKinds_typeName (hk : Rule.TypeName kind) (h : OfKinds (kind :: kinds) tokens) :
    ∃ name others, tokens = .typeName name :: others ∧ OfKinds kinds others := by
  obtain ⟨token, others, rfl, rfl, hc, hothers⟩ := ofKinds_cons.mp h
  have hkind : token.kind = .identifier ∨ token.kind.isBuiltinType = true := by
    generalize token.kind = kind at hk
    cases hk with
    | builtin => exact .inr rfl
    | identifier => exact .inl rfl
  exact ⟨token.text, others, by rw [Grammar.typeName_eq hc hkind], hothers⟩

theorem exists_parameters (h : Rule.Parameters kinds) : ∀ tokens, OfKinds kinds tokens →
    ∃ first rest, takenTokens (first :: rest) = tokens := by
  induction h with
  | last htype =>
    intro tokens ht
    obtain ⟨type, _, rfl, hid⟩ := ofKinds_typeName htype ht
    simp only [ofKinds_identifier, ofKinds_nil] at hid
    obtain ⟨id, _, rfl, -, rfl⟩ := hid
    exact ⟨⟨type, id⟩, [], rfl⟩
  | more htype _ ih =>
    intro tokens ht
    obtain ⟨type, _, rfl, hid⟩ := ofKinds_typeName htype ht
    simp only [ofKinds_identifier, ofKinds_delimiter] at hid
    obtain ⟨id, _, rfl, -, _, rfl, hrest⟩ := hid
    obtain ⟨first, rest, rfl⟩ := ih _ hrest
    exact ⟨⟨type, id⟩, first :: rest, rfl⟩

theorem exists_taken (h : Rule.Taken kinds) (ht : OfKinds kinds tokens) :
    ∃ takes, takenTokens takes = tokens := by
  cases h with
  | nothing =>
    simp only [ofKinds_keyword, ofKinds_nil] at ht
    obtain ⟨_, rfl, rfl⟩ := ht
    exact ⟨[], rfl⟩
  | parameters hparameters =>
    obtain ⟨first, rest, rfl⟩ := exists_parameters hparameters _ ht
    exact ⟨first :: rest, rfl⟩

theorem exists_signature (h : Rule.Signature kinds) (ht : OfKinds kinds tokens) :
    ∃ s : Signature, s.tokens = tokens := by
  obtain ⟨htaken, hreturned⟩ := h
  simp only [ofKinds_identifier, ofKinds_keyword, ofKinds_append] at ht
  obtain ⟨id, _, rfl, -, _, rfl, _, _, rfl, htakes, _, rfl, hlast⟩ := ht
  obtain ⟨takes, rfl⟩ := exists_taken htaken htakes
  cases hreturned with
  | nothing =>
    simp only [ofKinds_keyword, ofKinds_nil] at hlast
    obtain ⟨_, rfl, rfl⟩ := hlast
    exact ⟨⟨id, takes, none⟩, rfl⟩
  | type htype =>
    obtain ⟨type, _, rfl, hnil⟩ := ofKinds_typeName htype hlast
    cases ofKinds_nil.mp hnil
    exact ⟨⟨id, takes, some type⟩, rfl⟩

theorem exists_value (h : Derives .expression n kinds)
    (ht : OfKinds (.identifier :: .assign :: kinds) tokens) :
    ∃ (id : String) (value : Expression), value.Fits n ∧
      tokens = .identifier id :: .assign :: value.tokens := by
  simp only [ofKinds_identifier, ofKinds_assign] at ht
  obtain ⟨id, _, rfl, -, _, rfl, hvalue⟩ := ht
  obtain ⟨value, hv, rfl⟩ := h.tree _ hvalue
  exact ⟨id, value, hv, rfl⟩

theorem exists_variable (h : Rule.Variable n kinds) (ht : OfKinds kinds tokens) :
    ∃ declared : VariableDeclaration, declared.Fits n ∧ declared.tokens = tokens := by
  cases h with
  | array htype =>
    obtain ⟨type, _, rfl, hid⟩ := ofKinds_typeName htype ht
    simp only [ofKinds_keyword, ofKinds_identifier, ofKinds_nil] at hid
    obtain ⟨_, rfl, id, _, rfl, -, rfl⟩ := hid
    exact ⟨⟨.start, type, id, .array⟩, nofun, rfl⟩
  | unset htype =>
    obtain ⟨type, _, rfl, hid⟩ := ofKinds_typeName htype ht
    simp only [ofKinds_identifier, ofKinds_nil] at hid
    obtain ⟨id, _, rfl, -, rfl⟩ := hid
    exact ⟨⟨.start, type, id, .unset⟩, nofun, rfl⟩
  | value htype hvalue =>
    obtain ⟨type, _, rfl, hid⟩ := ofKinds_typeName htype ht
    obtain ⟨id, value, hv, rfl⟩ := exists_value hvalue hid
    refine ⟨⟨.start, type, id, .value value⟩, ?_, rfl⟩
    rintro _ ⟨⟩
    exact hv

theorem exists_global (h : Rule.Global n kinds) (ht : OfKinds kinds tokens) :
    ∃ member : GlobalDeclaration, member.Fits n ∧ member.tokens = tokens := by
  cases h with
  | constant htype hvalue =>
    obtain ⟨_, rfl, hdeclared⟩ := ofKinds_keyword.mp ht
    obtain ⟨type, _, rfl, hid⟩ := ofKinds_typeName htype hdeclared
    obtain ⟨id, value, hv, rfl⟩ := exists_value hvalue hid
    exact ⟨.constant .start type id value, hv, rfl⟩
  | plain hvariable =>
    obtain ⟨declared, hd, rfl⟩ := exists_variable hvariable ht
    exact ⟨.plain declared, hd, rfl⟩

theorem exists_globals (h : Rule.Globals n kinds) : ∀ tokens, OfKinds kinds tokens →
    ∃ members : List GlobalDeclaration, (∀ member ∈ members, member.Fits n) ∧
      (members.flatMap fun member => member.tokens ++ [.newline]) = tokens := by
  induction h with
  | nil =>
    intro tokens ht
    cases ofKinds_nil.mp ht
    exact ⟨[], by simp, rfl⟩
  | cons hfirst _ ih =>
    intro tokens ht
    simp only [ofKinds_append, ofKinds_newline] at ht
    obtain ⟨_, _, rfl, hmember, _, rfl, hrest⟩ := ht
    obtain ⟨member, hm, rfl⟩ := exists_global hfirst hmember
    obtain ⟨members, hs, rfl⟩ := ih _ hrest
    exact ⟨member :: members, List.forall_mem_cons.mpr ⟨hm, hs⟩, by simp⟩

theorem exists_locals (h : Rule.Locals n kinds) : ∀ tokens, OfKinds kinds tokens →
    ∃ locals : List VariableDeclaration, (∀ declared ∈ locals, declared.Fits n) ∧
      (locals.flatMap fun declared => .keyword .localWord :: (declared.tokens ++ [.newline])) =
        tokens := by
  induction h with
  | nil =>
    intro tokens ht
    cases ofKinds_nil.mp ht
    exact ⟨[], by simp, rfl⟩
  | cons hfirst _ ih =>
    intro tokens ht
    simp only [ofKinds_keyword, ofKinds_append, ofKinds_newline] at ht
    obtain ⟨_, rfl, _, _, rfl, hdeclared, _, rfl, hrest⟩ := ht
    obtain ⟨declared, hd, rfl⟩ := exists_variable hfirst hdeclared
    obtain ⟨locals, hs, rfl⟩ := ih _ hrest
    exact ⟨declared :: locals, List.forall_mem_cons.mpr ⟨hd, hs⟩, by simp⟩

theorem exists_declaration (h : Rule.Declaration n kinds) (ht : OfKinds kinds tokens) :
    ∃ d : Declaration, d.Fits n ∧ d.tokens = tokens := by
  cases h with
  | type hparent =>
    simp only [ofKinds_keyword, ofKinds_identifier] at ht
    obtain ⟨_, rfl, id, _, rfl, -, _, rfl, hname⟩ := ht
    obtain ⟨token, _, rfl, rfl, hc, hnil⟩ := ofKinds_cons.mp hname
    cases ofKinds_nil.mp hnil
    have hkind : token.kind = .identifier ∨ token.kind = .builtin .handle := by
      generalize token.kind = kind at hparent
      cases hparent with
      | handle => exact .inr rfl
      | identifier => exact .inl rfl
    have htoken := Grammar.typeName_eq hc (hkind.imp_right fun h => by rw [h]; rfl)
    refine ⟨.type .start id token.text, ?_, ?_⟩
    · rw [Declaration.Fits, htoken]
      exact hkind
    · rw [Declaration.tokens, htoken]
  | native hsignature =>
    obtain ⟨_, rfl, hs⟩ := ofKinds_keyword.mp ht
    obtain ⟨s, rfl⟩ := exists_signature hsignature hs
    exact ⟨.native none .start s, trivial, rfl⟩
  | constantNative hsignature =>
    simp only [ofKinds_keyword] at ht
    obtain ⟨_, rfl, _, rfl, hs⟩ := ht
    obtain ⟨s, rfl⟩ := exists_signature hsignature hs
    exact ⟨.native (some .start) .start s, trivial, rfl⟩
  | globals hmembers =>
    simp only [ofKinds_keyword, ofKinds_newline, ofKinds_append, ofKinds_nil] at ht
    obtain ⟨_, rfl, _, rfl, _, _, rfl, hms, _, rfl, rfl⟩ := ht
    obtain ⟨members, hm, rfl⟩ := exists_globals hmembers _ hms
    exact ⟨.globals .start members, hm, rfl⟩

theorem exists_body (h : Rule.Body n kinds) (ht : OfKinds kinds tokens)
    (constant : Option Position) :
    ∃ f : FunctionDeclaration, f.Fits n ∧ f.tokens = constantTokens constant ++ tokens := by
  obtain ⟨hsignature, hlocals, hstatements⟩ := h
  simp only [ofKinds_keyword, ofKinds_newline, ofKinds_append, ofKinds_nil] at ht
  obtain ⟨_, rfl, _, _, rfl, hs, _, rfl, _, _, rfl, hls, _, _, rfl, hbs, _, rfl, rfl⟩ := ht
  obtain ⟨s, rfl⟩ := exists_signature hsignature hs
  obtain ⟨locals, hl, rfl⟩ := exists_locals hlocals _ hls
  obtain ⟨body, hb, rfl⟩ := hstatements.tree _ hbs
  exact ⟨⟨constant, .start, s, locals, body, .start⟩, ⟨hl, hb⟩, rfl⟩

theorem exists_function (h : Rule.Function n kinds) (ht : OfKinds kinds tokens) :
    ∃ f : FunctionDeclaration, f.Fits n ∧ f.tokens = tokens := by
  cases h with
  | plain hbody => exact exists_body hbody ht none
  | constant hbody =>
    obtain ⟨_, rfl, ht'⟩ := ofKinds_keyword.mp ht
    exact exists_body hbody ht' (some .start)

theorem exists_functions (h : Rule.Functions n kinds) : ∀ tokens, OfKinds kinds tokens →
    ∃ items, (∀ f ∈ items, f.Fits n) ∧ Lines FunctionDeclaration.tokens (· = []) items tokens := by
  induction h with
  | nil =>
    intro tokens ht
    exact ⟨[], by simp, .nil (ofKinds_nil.mp ht)⟩
  | last hf =>
    intro tokens ht
    obtain ⟨f, hf, rfl⟩ := exists_function hf ht
    exact ⟨[f], by simpa using hf, .last rfl⟩
  | cons hf _ ih =>
    intro tokens ht
    simp only [ofKinds_append, ofKinds_newline] at ht
    obtain ⟨_, _, rfl, hfirst, _, rfl, hrest⟩ := ht
    obtain ⟨f, hf, rfl⟩ := exists_function hf hfirst
    obtain ⟨items, hs, hlines⟩ := ih _ hrest
    exact ⟨f :: items, List.forall_mem_cons.mpr ⟨hf, hs⟩, .cons hlines⟩

theorem exists_program (h : Rule.Declarations n kinds) : ∀ tokens, OfKinds kinds tokens →
    ∃ program : Program, program.Fits n ∧ program.Spelled tokens := by
  induction h with
  | functions hf =>
    intro tokens ht
    obtain ⟨items, hs, hlines⟩ := exists_functions hf tokens ht
    exact ⟨⟨[], items⟩, ⟨by simp, hs⟩, .nil hlines⟩
  | last hd =>
    intro tokens ht
    obtain ⟨d, hd, rfl⟩ := exists_declaration hd ht
    exact ⟨⟨[d], []⟩, ⟨by simpa using hd, by simp⟩, .last (.nil rfl)⟩
  | cons hd _ ih =>
    intro tokens ht
    simp only [ofKinds_append, ofKinds_newline] at ht
    obtain ⟨_, _, rfl, hfirst, _, rfl, hrest⟩ := ht
    obtain ⟨d, hd, rfl⟩ := exists_declaration hd hfirst
    obtain ⟨⟨declarations, functions⟩, hfits, hspelled⟩ := ih _ hrest
    exact ⟨⟨d :: declarations, functions⟩,
      ⟨List.forall_mem_cons.mpr ⟨hd, hfits.declarations⟩, hfits.functions⟩, .cons hspelled⟩

-- ---------------------------------------------------------------------------
-- Texts
-- ---------------------------------------------------------------------------

/-- The tokens of a script: a line break, which may be left out, and the program. -/
def Program.Written (program : Program) (tokens : List Token) : Prop :=
  program.Spelled tokens ∨ ∃ others, tokens = .newline :: others ∧ program.Spelled others

theorem Program.Written.derived {program : Program} (hs : program.Written tokens)
    (hfits : program.Fits n) : Rule.Program n (tokens.map Token.kind) := by
  obtain hs | ⟨others, rfl, hs⟩ := hs
  · exact .plain (Program.derived hfits hs)
  · exact .newline (Program.derived hfits hs)

theorem exists_written (h : Rule.Program n kinds) (ht : OfKinds kinds tokens) :
    ∃ program : Program, program.Fits n ∧ program.Written tokens := by
  cases h with
  | plain hd =>
    obtain ⟨program, hfits, hs⟩ := exists_program hd _ ht
    exact ⟨program, hfits, .inl hs⟩
  | newline hd =>
    obtain ⟨others, heq, hrest⟩ := ofKinds_newline.mp ht
    obtain ⟨program, hfits, hs⟩ := exists_program hd _ hrest
    exact ⟨program, hfits, .inr ⟨others, heq, hs⟩⟩

theorem Program.Written.ahead {program : Program} (hs : program.Written (all.map Lexeme.token)) :
    ∃ tokens, program.Spelled tokens ∧
      (Ahead tokens all [] ∨ Ahead (.newline :: tokens) all []) := by
  have hall : Ahead (all.map Lexeme.token) all [] := ahead_iff.mpr ⟨all, by simp, rfl⟩
  obtain hs | ⟨others, heq, hs⟩ := hs
  · exact ⟨_, hs, .inl hall⟩
  · exact ⟨others, hs, .inr (heq ▸ hall)⟩

theorem kinds_map_token (all : List Lexeme) :
    (all.map fun lexeme => lexeme.token.kind) = (all.map Lexeme.token).map Token.kind := by
  rw [List.map_map]
  rfl

theorem ofKinds_of_canonical (hc : Canonical all) :
    OfKinds (all.map fun lexeme => lexeme.token.kind) (all.map Lexeme.token) :=
  ⟨by simp, List.forall_mem_map.mpr hc⟩

theorem program_derived (hc : Canonical all) (hp : Grammar.program all = .ok parsed rest) :
    Rule.Program maxLevels (all.map fun lexeme => lexeme.token.kind) := by
  obtain ⟨-, hfits, hspelled⟩ := Grammar.spelled_of_program hc hp
  rw [kinds_map_token]
  exact Program.Written.derived hspelled hfits

theorem exists_program_of_derived (hc : Canonical all)
    (h : Rule.Program maxLevels (all.map fun lexeme => lexeme.token.kind)) :
    ∃ parsed rest, Grammar.program all = .ok parsed rest := by
  obtain ⟨program, hfits, hwritten⟩ := exists_written h (ofKinds_of_canonical hc)
  obtain ⟨tokens, hs, ha⟩ := hwritten.ahead
  obtain ⟨found, hp, -⟩ := Grammar.program_of_spelled hfits hs ha
  exact ⟨found, [], hp⟩

/-- A text is read as a program if and only if it has tokens and their kinds follow the
grammar within the levels. -/
theorem ofText_iff_derived (text : String) : (∃ parsed, Program.ofText text = .ok parsed) ↔
    ∃ all, lexemes text = .ok all ∧
      Rule.Program maxLevels (all.map fun lexeme => lexeme.token.kind) := by
  simp only [Program.ofText_ok]
  constructor
  · rintro ⟨parsed, all, rest, hall, hp⟩
    exact ⟨all, hall, program_derived (canonical_of_lexemes hall) hp⟩
  · rintro ⟨all, hall, hderived⟩
    obtain ⟨parsed, rest, hp⟩ := exists_program_of_derived (canonical_of_lexemes hall) hderived
    exact ⟨parsed, all, rest, hall, hp⟩

end Mapsmith.Script
