import Mapsmith.Proofs.Script.Substitution

/-!
# Scripts that can be printed

`printable_iff`: a script can be printed if its text is read as the same script. That is so for
just those scripts whose symbols are well-formed, each by itself: names are read as names,
types as types, and fragments follow the grammar. Neither the order of symbols nor what their
names refer to matters, and positions do not either.
-/

namespace Mapsmith.Script

/-- The text of the script is read as the same script. -/
def Printable (script : Script) : Prop :=
  ∃ again, ofText script.text = .ok again ∧ again.Same script

-- ---------------------------------------------------------------------------
-- Well-formed symbols
-- ---------------------------------------------------------------------------

/-- The tokens follow a rule within the levels of the parser, and are read as such. -/
structure Fragment.Follows (fragment : Fragment) (rule : Rule) : Prop where
  derives : Derives rule maxLevels (fragment.map Token.kind)
  lexed : ∀ token ∈ fragment, token.Lexed

structure Parameter.WellFormed (parameter : Parameter) : Prop where
  type : (Token.typeName parameter.type).Lexed
  id : (Token.identifier parameter.id).Lexed

structure Signature.WellFormed (signature : Signature) : Prop where
  id : (Token.identifier signature.id).Lexed
  takes : ∀ parameter ∈ signature.takes, parameter.WellFormed
  returns : ∀ name ∈ signature.returns, (Token.typeName name).Lexed

structure TypeSymbol.WellFormed (symbol : TypeSymbol) : Prop where
  id : (Token.identifier symbol.id).Lexed
  parent : (Token.typeName symbol.parent).Lexed
  kind : Rule.Parent (Token.typeName symbol.parent).kind

/-- An array has no value. -/
structure Variable.WellFormed (v : Variable) : Prop where
  type : (Token.typeName v.type).Lexed
  id : (Token.identifier v.id).Lexed
  array : v.array = true → v.initial = none
  initial : ∀ fragment ∈ v.initial, fragment.Follows .expression

/-- A constant has a value. -/
structure Global.WellFormed (symbol : Global) : Prop extends symbol.toVariable.WellFormed where
  constant : symbol.constant = true → symbol.initial ≠ none

structure Function.WellFormed (symbol : Function) : Prop where
  signature : symbol.signature.WellFormed
  locals : ∀ v ∈ symbol.locals, v.WellFormed
  statements : ∀ fragment ∈ symbol.statements, fragment.Follows (.statement false)

def Symbol.WellFormed : Symbol → Prop
  | .type symbol => symbol.WellFormed
  | .native symbol => symbol.signature.WellFormed
  | .global symbol => symbol.WellFormed
  | .function symbol => symbol.WellFormed

structure WellFormed (script : Script) : Prop where
  types : ∀ symbol ∈ script.types, symbol.WellFormed
  natives : ∀ symbol ∈ script.natives, symbol.signature.WellFormed
  globals : ∀ symbol ∈ script.globals, symbol.WellFormed
  functions : ∀ symbol ∈ script.functions, symbol.WellFormed

theorem wellFormed_iff {script : Script} :
    script.WellFormed ↔ ∀ symbol ∈ script.symbols, symbol.WellFormed := by
  constructor
  · intro h symbol hmem
    simp only [symbols, List.mem_append, List.mem_map] at hmem
    obtain ((⟨_, hs, rfl⟩ | ⟨_, hs, rfl⟩) | ⟨_, hs, rfl⟩) | ⟨_, hs, rfl⟩ := hmem
    · exact h.types _ hs
    · exact h.natives _ hs
    · exact h.globals _ hs
    · exact h.functions _ hs
  · intro h
    exact ⟨fun symbol hs => h (.type symbol) (by simp [symbols, hs]),
      fun symbol hs => h (.native symbol) (by simp [symbols, hs]),
      fun symbol hs => h (.global symbol) (by simp [symbols, hs]),
      fun symbol hs => h (.function symbol) (by simp [symbols, hs])⟩

-- ---------------------------------------------------------------------------
-- What was declared is well-formed
-- ---------------------------------------------------------------------------

theorem wellFormed_of_mem_takenTokens {takes : List Parameter}
    (h : ∀ token ∈ takenTokens takes, token.Lexed) :
    ∀ parameter ∈ takes, parameter.WellFormed := by
  intro parameter hmem
  have hsub : ∀ token ∈ parameter.tokens, token ∈ takenTokens takes := by
    intro token ht
    obtain _ | ⟨first, rest⟩ := takes
    · cases hmem
    · rw [takenTokens, List.mem_append, List.mem_flatMap]
      obtain rfl | hmem := List.mem_cons.mp hmem
      · exact .inl ht
      · exact .inr ⟨parameter, hmem, List.mem_cons_of_mem _ ht⟩
  exact ⟨h _ (hsub _ List.mem_cons_self), h _ (hsub _ (List.mem_cons_of_mem _ List.mem_cons_self))⟩

theorem Signature.wellFormed {s : Signature} (h : ∀ token ∈ s.tokens, token.Lexed) :
    s.WellFormed := by
  obtain ⟨id, takes, returns⟩ := s
  simp only [tokens, List.forall_mem_cons, List.forall_mem_append] at h
  obtain ⟨hid, -, htakes, -, hreturns, -⟩ := h
  refine ⟨hid, wellFormed_of_mem_takenTokens htakes, ?_⟩
  rintro _ ⟨⟩
  exact hreturns

theorem VariableDeclaration.wellFormed {declared : VariableDeclaration}
    (hf : declared.Fits maxLevels)
    (ht : ∀ token ∈ declared.tokens, token.Lexed) : declared.symbol.WellFormed := by
  have hinitial := declared.lexed_initial ht
  refine ⟨ht _ List.mem_cons_self, declared.lexed_id ht, ?_, fun fragment hfragment => ?_⟩
  · obtain ⟨position, type, id, _ | _ | value⟩ := declared
    · exact fun _ => rfl
    · exact nofun
    · exact nofun
  · refine ⟨?_, hinitial fragment hfragment⟩
    obtain ⟨position, type, id, _ | _ | value⟩ := declared
    · cases hfragment
    · cases hfragment
    · cases hfragment
      exact value.derives maxLevels (hf value rfl)

theorem GlobalDeclaration.wellFormed {member : GlobalDeclaration} (hf : member.Fits maxLevels)
    (ht : ∀ token ∈ member.tokens, token.Lexed) : member.symbol.WellFormed := by
  have hdeclared : member.declared.Fits maxLevels := by
    cases member with
    | constant position type id value =>
      rintro _ ⟨⟩
      exact hf
    | plain declared => exact hf
  refine ⟨VariableDeclaration.wellFormed hdeclared (member.lexed_declared ht), fun hconstant => ?_⟩
  cases member with
  | constant => exact nofun
  | plain => cases hconstant

theorem FunctionDeclaration.wellFormed {f : FunctionDeclaration} (hf : f.Fits maxLevels)
    (ht : ∀ token ∈ f.tokens, token.Lexed) : f.symbol.WellFormed := by
  simp only [tokens, Block.tokens_eq, List.forall_mem_append, List.forall_mem_cons,
    List.forall_mem_flatMap] at ht
  obtain ⟨-, -, hsignature, -, hlocals, hbody, -⟩ := ht
  refine ⟨Signature.wellFormed hsignature, fun v hv => ?_, fun fragment hfragment => ?_⟩
  · obtain ⟨declared, hd, rfl⟩ := List.mem_map.mp hv
    exact VariableDeclaration.wellFormed (hf.1 declared hd) (hlocals declared hd).2.1
  · obtain ⟨statement, hs, rfl⟩ := List.mem_map.mp hfragment
    have hfits := (Block.fits_iff f.body).mp hf.2 statement hs
    exact ⟨statement.derives maxLevels false hfits, (hbody statement hs).1⟩

theorem Declaration.wellFormed_type {d : Declaration} (h : d.type? = some symbol) (hf : d.Fits n)
    (ht : ∀ token ∈ d.tokens, token.Lexed) : symbol.WellFormed := by
  cases d with
  | type position id parent =>
    cases h
    simp only [tokens, List.forall_mem_cons] at ht
    obtain ⟨-, hid, -, hparent, -⟩ := ht
    refine ⟨hid, hparent, ?_⟩
    obtain hkind | hkind := hf
    · exact hkind ▸ .identifier
    · exact hkind ▸ .handle
  | native | globals => cases h

theorem Declaration.wellFormed_native {d : Declaration} (h : d.native? = some symbol)
    (ht : ∀ token ∈ d.tokens, token.Lexed) : symbol.signature.WellFormed := by
  cases d with
  | native constant position s =>
    cases h
    exact Signature.wellFormed (List.forall_mem_cons.mp (List.forall_mem_append.mp ht).2).2
  | type | globals => cases h

theorem wellFormed_ofProgram {program : Program} (hf : program.Fits maxLevels)
    (ht : program.Lexed) :
    (ofProgram program).WellFormed := by
  refine ⟨fun symbol hs => ?_, fun symbol hs => ?_, fun symbol hs => ?_, fun symbol hs => ?_⟩
  · obtain ⟨d, hd, heq⟩ := List.mem_filterMap.mp hs
    exact Declaration.wellFormed_type heq (hf.declarations d hd) (ht.declarations d hd)
  · obtain ⟨d, hd, heq⟩ := List.mem_filterMap.mp hs
    exact Declaration.wellFormed_native heq (ht.declarations d hd)
  · rw [globals_ofProgram] at hs
    obtain ⟨member, hm, rfl⟩ := List.mem_map.mp hs
    exact GlobalDeclaration.wellFormed (hf.members member hm) (ht.members member hm)
  · obtain ⟨f, hfm, rfl⟩ := List.mem_map.mp hs
    exact FunctionDeclaration.wellFormed (hf.functions f hfm) (ht.functions f hfm)

-- ---------------------------------------------------------------------------
-- Positions
-- ---------------------------------------------------------------------------

theorem Variable.wellFormed_unplaced {v : Variable} : v.unplaced.WellFormed ↔ v.WellFormed :=
  ⟨fun h => ⟨h.type, h.id, h.array, h.initial⟩, fun h => ⟨h.type, h.id, h.array, h.initial⟩⟩

theorem Global.wellFormed_unplaced {symbol : Global} : symbol.unplaced.WellFormed ↔
    symbol.WellFormed :=
  ⟨fun h => ⟨⟨h.type, h.id, h.array, h.initial⟩, h.constant⟩,
    fun h => ⟨⟨h.type, h.id, h.array, h.initial⟩, h.constant⟩⟩

theorem Function.wellFormed_unplaced {symbol : Function} :
    symbol.unplaced.WellFormed ↔ symbol.WellFormed := by
  have hlocals : (∀ v ∈ symbol.unplaced.locals, v.WellFormed) ↔
      ∀ v ∈ symbol.locals, v.WellFormed := by
    simp [Function.unplaced, Variable.wellFormed_unplaced]
  exact ⟨fun h => ⟨h.signature, hlocals.mp h.locals, h.statements⟩,
    fun h => ⟨h.signature, hlocals.mpr h.locals, h.statements⟩⟩

theorem TypeSymbol.wellFormed_unplaced {symbol : TypeSymbol} :
    symbol.unplaced.WellFormed ↔ symbol.WellFormed :=
  ⟨fun h => ⟨h.id, h.parent, h.kind⟩, fun h => ⟨h.id, h.parent, h.kind⟩⟩

theorem wellFormed_unplaced {script : Script} : script.unplaced.WellFormed ↔ script.WellFormed := by
  have htypes : (∀ symbol ∈ script.unplaced.types, symbol.WellFormed) ↔
      ∀ symbol ∈ script.types, symbol.WellFormed := by
    simp [unplaced, TypeSymbol.wellFormed_unplaced]
  have hnatives : (∀ symbol ∈ script.unplaced.natives, symbol.signature.WellFormed) ↔
      ∀ symbol ∈ script.natives, symbol.signature.WellFormed := by
    simp [unplaced, Callable.unplaced]
  have hglobals : (∀ symbol ∈ script.unplaced.globals, symbol.WellFormed) ↔
      ∀ symbol ∈ script.globals, symbol.WellFormed := by
    simp [unplaced, Global.wellFormed_unplaced]
  have hfunctions : (∀ symbol ∈ script.unplaced.functions, symbol.WellFormed) ↔
      ∀ symbol ∈ script.functions, symbol.WellFormed := by
    simp [unplaced, Function.wellFormed_unplaced]
  exact ⟨fun h => ⟨htypes.mp h.types, hnatives.mp h.natives, hglobals.mp h.globals,
    hfunctions.mp h.functions⟩,
    fun h => ⟨htypes.mpr h.types, hnatives.mpr h.natives, hglobals.mpr h.globals,
      hfunctions.mpr h.functions⟩⟩

theorem Same.wellFormed {a b : Script} (h : a.Same b) : a.WellFormed ↔ b.WellFormed := by
  rw [← wellFormed_unplaced, h, wellFormed_unplaced]

-- ---------------------------------------------------------------------------
-- What is well-formed can be declared
-- ---------------------------------------------------------------------------

theorem keyword_lexed (word : Keyword) : (Token.keyword word).Lexed := by
  have hword : IsWord word.name.toList := by cases word <;> decide
  have hkind : TokenKind.ofWord word.name = .keyword word := by cases word <;> rfl
  have hlexed := lexed_ofWord hword
  rwa [hkind] at hlexed

theorem comma_lexed : (Token.delimiter .comma).Lexed := ⟨',', [], 0, .sign rfl, rfl⟩

theorem assign_lexed : Token.assign.Lexed := ⟨'=', [], 0, .sign rfl, rfl⟩

theorem newline_lexed : Token.newline.Lexed := ⟨'\n', [], _, .newline rfl, rfl⟩

theorem Fragment.Follows.tree {fragment : Fragment} (h : fragment.Follows rule) :
    rule.Tree maxLevels fragment :=
  h.derives.tree fragment ⟨rfl, fun token ht => (h.lexed token ht).canonical⟩

theorem Parameter.WellFormed.lexed {parameter : Parameter} (h : parameter.WellFormed) :
    ∀ token ∈ parameter.tokens, token.Lexed := by
  simp only [tokens, List.forall_mem_cons]
  exact ⟨h.type, h.id, List.forall_mem_nil _⟩

theorem Signature.WellFormed.lexed {s : Signature} (h : s.WellFormed) :
    ∀ token ∈ s.tokens, token.Lexed := by
  obtain ⟨id, takes, returns⟩ := s
  have htaken : ∀ token ∈ takenTokens takes, token.Lexed := by
    cases takes with
    | nil =>
      rw [takenTokens, List.forall_mem_singleton]
      exact keyword_lexed .nothing
    | cons first rest =>
      obtain ⟨hfirst, hrest⟩ := List.forall_mem_cons.mp h.takes
      simp only [takenTokens, List.forall_mem_append, List.forall_mem_flatMap, List.forall_mem_cons]
      exact ⟨hfirst.lexed, fun parameter hp => ⟨comma_lexed, (hrest parameter hp).lexed⟩⟩
  have hreturned : (returnedToken returns).Lexed := by
    cases returns with
    | none => exact keyword_lexed .nothing
    | some name => exact h.returns name rfl
  simp only [tokens, List.forall_mem_cons, List.forall_mem_append]
  exact ⟨h.id, keyword_lexed .takes, htaken, keyword_lexed .returns, hreturned,
    List.forall_mem_nil _⟩

theorem constantTokens_lexed (constant : Option Position) :
    ∀ token ∈ constantTokens constant, token.Lexed := by
  cases constant with
  | none => exact nofun
  | some _ => exact List.forall_mem_singleton.mpr (keyword_lexed .constant)

def constantPosition (constant : Bool) : Option Position := if constant then some .start else none

@[simp] theorem isSome_constantPosition (constant : Bool) :
    (constantPosition constant).isSome = constant := by
  cases constant <;> rfl

def TypeSymbol.declaration (symbol : TypeSymbol) : Declaration :=
  .type .start symbol.id symbol.parent

def Callable.declaration (symbol : Callable) : Declaration :=
  .native (constantPosition symbol.constant) .start symbol.signature

theorem TypeSymbol.WellFormed.fits {symbol : TypeSymbol} (h : symbol.WellFormed) :
    symbol.declaration.Fits n := by
  have hkind := h.kind
  rw [declaration, Declaration.Fits]
  generalize (Token.typeName symbol.parent).kind = kind at hkind
  cases hkind with
  | identifier => exact .inl rfl
  | handle => exact .inr rfl

theorem TypeSymbol.WellFormed.lexed {symbol : TypeSymbol} (h : symbol.WellFormed) :
    ∀ token ∈ symbol.declaration.tokens, token.Lexed := by
  simp only [declaration, Declaration.tokens, List.forall_mem_cons]
  exact ⟨keyword_lexed .type, h.id, keyword_lexed .extendsWord, h.parent, List.forall_mem_nil _⟩

theorem Callable.lexed_declaration {symbol : Callable} (h : symbol.signature.WellFormed) :
    ∀ token ∈ symbol.declaration.tokens, token.Lexed := by
  simp only [declaration, Declaration.tokens, List.forall_mem_append, List.forall_mem_cons]
  exact ⟨constantTokens_lexed _, keyword_lexed .native, h.lexed⟩

theorem Variable.WellFormed.exists_declared {v : Variable} (h : v.WellFormed) :
    ∃ declared : VariableDeclaration, (declared.Fits maxLevels ∧
      ∀ token ∈ declared.tokens, token.Lexed) ∧
      declared.symbol.unplaced = v.unplaced := by
  obtain ⟨type, id, array, initial, position⟩ := v
  cases initial with
  | none =>
    cases array with
    | true =>
      refine ⟨⟨.start, type, id, .array⟩, ⟨by rintro _ ⟨⟩, ?_⟩, rfl⟩
      simp only [VariableDeclaration.tokens, List.forall_mem_cons]
      exact ⟨h.type, keyword_lexed .array, h.id, List.forall_mem_nil _⟩
    | false =>
      refine ⟨⟨.start, type, id, .unset⟩, ⟨by rintro _ ⟨⟩, ?_⟩, rfl⟩
      simp only [VariableDeclaration.tokens, List.forall_mem_cons]
      exact ⟨h.type, h.id, List.forall_mem_nil _⟩
  | some fragment =>
    obtain rfl : array = false := by
      cases array with
      | true => cases h.array rfl
      | false => rfl
    have hfollows := h.initial fragment rfl
    obtain ⟨value, hfits, rfl⟩ := hfollows.tree
    refine ⟨⟨.start, type, id, .value value⟩, ⟨?_, ?_⟩, rfl⟩
    · rintro _ ⟨⟩
      exact hfits
    · simp only [VariableDeclaration.tokens, List.forall_mem_cons]
      exact ⟨h.type, h.id, assign_lexed, hfollows.lexed⟩

theorem Global.WellFormed.exists_member {symbol : Global} (h : symbol.WellFormed) :
    ∃ member : GlobalDeclaration, (member.Fits maxLevels ∧ ∀ token ∈ member.tokens, token.Lexed) ∧
      member.symbol.unplaced = symbol.unplaced := by
  obtain ⟨v, constant⟩ := symbol
  obtain ⟨declared, ⟨hfits, hlexed⟩, heq⟩ := h.toWellFormed.exists_declared
  cases constant with
  | false =>
    refine ⟨.plain declared, ⟨hfits, hlexed⟩, ?_⟩
    show Global.mk declared.symbol.unplaced false = Global.mk v.unplaced false
    rw [heq]
  | true =>
    have hinitial : declared.symbol.initial ≠ none := by
      have hsame : declared.symbol.unplaced.initial = v.unplaced.initial :=
        congrArg Variable.initial heq
      exact hsame ▸ h.constant rfl
    obtain ⟨position, type, id, _ | _ | value⟩ := declared
    · exact absurd rfl hinitial
    · exact absurd rfl hinitial
    · refine ⟨.constant .start type id value, ⟨hfits value rfl, ?_⟩, ?_⟩
      · exact List.forall_mem_cons.mpr ⟨keyword_lexed .constant, hlexed⟩
      · show Global.mk
            (VariableDeclaration.symbol ⟨position, type, id, .value value⟩).unplaced true =
          Global.mk v.unplaced true
        rw [heq]

theorem exists_map_eq {P : β → Prop} {f : β → γ} {g : α → γ} {items : List α}
    (h : ∀ a ∈ items, ∃ b, P b ∧ f b = g a) :
    ∃ found : List β, (∀ b ∈ found, P b) ∧ found.map f = items.map g := by
  induction items with
  | nil => exact ⟨[], nofun, rfl⟩
  | cons a items ih =>
    obtain ⟨ha, hitems⟩ := List.forall_mem_cons.mp h
    obtain ⟨b, hb, hfirst⟩ := ha
    obtain ⟨found, hfound, hrest⟩ := ih hitems
    refine ⟨b :: found, List.forall_mem_cons.mpr ⟨hb, hfound⟩, ?_⟩
    rw [List.map_cons, List.map_cons, hfirst, hrest]

theorem Function.WellFormed.exists_declaration {symbol : Function} (h : symbol.WellFormed) :
    ∃ f : FunctionDeclaration, (f.Fits maxLevels ∧ ∀ token ∈ f.tokens, token.Lexed) ∧
      f.symbol.unplaced = symbol.unplaced := by
  obtain ⟨⟨s, constant, position⟩, locals, statements⟩ := symbol
  obtain ⟨declared, hdeclared, hlocals⟩ := exists_map_eq fun v hv => (h.locals v hv).exists_declared
  obtain ⟨body, hbody, hstatements⟩ : ∃ body : List Statement,
      (∀ statement ∈ body, statement.Fits maxLevels false ∧
        ∀ token ∈ statement.tokens, token.Lexed) ∧
        body.map Statement.tokens = statements.map id := by
    refine exists_map_eq fun fragment hf => ?_
    have hfollows := h.statements fragment hf
    obtain ⟨statement, hfits, rfl⟩ := hfollows.tree
    exact ⟨statement, ⟨hfits, hfollows.lexed⟩, rfl⟩
  rw [List.map_id] at hstatements
  refine ⟨⟨constantPosition constant, .start, s, declared, .ofList body, .start⟩,
    ⟨⟨?_, ?_⟩, ?_⟩, ?_⟩
  · exact fun v hv => (hdeclared v hv).1
  · rw [Block.fits_iff, Block.toList_ofList]
    exact fun statement hs => (hbody statement hs).1
  · simp only [FunctionDeclaration.tokens, Block.tokens_eq, Block.toList_ofList,
      List.forall_mem_append, List.forall_mem_cons, List.forall_mem_flatMap]
    exact ⟨constantTokens_lexed _, keyword_lexed .function, h.signature.lexed, newline_lexed,
      fun v hv => ⟨keyword_lexed .localWord, (hdeclared v hv).2, newline_lexed,
        List.forall_mem_nil _⟩,
      fun statement hs => ⟨(hbody statement hs).2, newline_lexed, List.forall_mem_nil _⟩,
      keyword_lexed .endfunction, List.forall_mem_nil _⟩
  · simp only [FunctionDeclaration.symbol, Function.unplaced, List.map_map, Block.toList_ofList,
      isSome_constantPosition, hstatements]
    rw [show declared.map (Variable.unplaced ∘ VariableDeclaration.symbol) = _ from hlocals]

/-- The types and natives of a script, and other declarations of its globals and functions. -/
def declaring (script : Script) (members : List GlobalDeclaration)
    (functions : List FunctionDeclaration) :
    Program where
  declarations :=
  script.types.map TypeSymbol.declaration ++ script.natives.map Callable.declaration ++
    [.globals .start members]
  functions := functions

section

variable {script : Script} {members : List GlobalDeclaration} {functions : List FunctionDeclaration}

theorem filterMap_declaring {f : Declaration → Option α} (h : f (.globals .start members) = none) :
    (script.declaring members functions).declarations.filterMap f =
      script.types.filterMap (f ∘ TypeSymbol.declaration) ++
        script.natives.filterMap (f ∘ Callable.declaration) := by
  simp [declaring, h, List.filterMap_map]

theorem members_declaring : (script.declaring members functions).members = members := by
  have htypes : (script.types.map TypeSymbol.declaration).flatMap Declaration.members = [] :=
    List.flatMap_eq_nil_iff.mpr (List.forall_mem_map.mpr fun _ _ => rfl)
  have hnatives : (script.natives.map Callable.declaration).flatMap Declaration.members = [] :=
    List.flatMap_eq_nil_iff.mpr (List.forall_mem_map.mpr fun _ _ => rfl)
  rw [Program.members, declaring, List.flatMap_append, List.flatMap_append, htypes, hnatives]
  exact List.append_nil _

theorem same_declaring
    (hglobals : members.map (fun member => member.symbol.unplaced) =
      script.globals.map Global.unplaced)
    (hfunctions : functions.map (fun f => f.symbol.unplaced) =
      script.functions.map Function.unplaced) :
    (ofProgram (script.declaring members functions)).Same script := by
  rw [Same, unplaced, unplaced, Script.mk.injEq]
  refine ⟨?_, ?_, ?_, ?_⟩
  · have hnatives : script.natives.filterMap (Declaration.type? ∘ Callable.declaration) = [] :=
      List.filterMap_none _
    simp only [ofProgram]
    rw [filterMap_declaring rfl, hnatives, List.append_nil, List.map_filterMap]
    exact congrFun List.filterMap_eq_map _
  · have htypes : script.types.filterMap (Declaration.native? ∘ TypeSymbol.declaration) = [] :=
      List.filterMap_none _
    simp only [ofProgram]
    rw [filterMap_declaring rfl, htypes, List.nil_append, List.map_filterMap]
    refine Eq.trans (List.filterMap_congr fun symbol _ => ?_) (congrFun List.filterMap_eq_map _)
    simp [Callable.declaration, Declaration.native?, Callable.unplaced]
  · rw [globals_ofProgram, members_declaring, List.map_map]
    exact hglobals
  · rw [ofProgram, List.map_map]
    exact hfunctions

end

/-- A script with well-formed symbols is that of a program that can be read. -/
theorem WellFormed.exists_program {script : Script} (h : script.WellFormed) :
    ∃ program : Program, program.Fits maxLevels ∧ program.Lexed ∧
      (ofProgram program).Same script := by
  obtain ⟨members, hmembers, hglobals⟩ :=
    exists_map_eq fun symbol hs => (h.globals symbol hs).exists_member
  obtain ⟨functions, hfunctions, hsame⟩ :=
    exists_map_eq fun symbol hs => (h.functions symbol hs).exists_declaration
  refine ⟨script.declaring members functions, ⟨?_, ?_⟩, ⟨?_, ?_⟩, same_declaring hglobals hsame⟩
  · simp only [declaring, List.forall_mem_append, List.forall_mem_singleton, List.forall_mem_map]
    exact ⟨⟨fun symbol hs => (h.types symbol hs).fits, fun _ _ => trivial⟩,
      fun member hm => (hmembers member hm).1⟩
  · exact fun f hf => (hfunctions f hf).1
  · simp only [declaring, List.forall_mem_append, List.forall_mem_singleton, List.forall_mem_map]
    refine ⟨⟨fun symbol hs => (h.types symbol hs).lexed,
      fun symbol hs => Callable.lexed_declaration (h.natives symbol hs)⟩, ?_⟩
    simp only [Declaration.tokens, List.forall_mem_cons, List.forall_mem_append,
      List.forall_mem_flatMap]
    exact ⟨keyword_lexed .globals, newline_lexed,
      fun member hm => ⟨(hmembers member hm).2, newline_lexed, List.forall_mem_nil _⟩,
      keyword_lexed .endglobals, List.forall_mem_nil _⟩
  · exact fun f hf => (hfunctions f hf).2

-- ---------------------------------------------------------------------------
-- Printing
-- ---------------------------------------------------------------------------

theorem printable_ofProgram {program : Program} (hf : program.Fits maxLevels) (ht : program.Lexed) :
    (ofProgram program).Printable := by
  obtain ⟨written, hwritten, htokens⟩ := lexemes_text hf ht
  -- What was written spells the arranged program, which has the same script.
  have hspelled := htokens ▸ program.arranged.spelled_lineTokens
  obtain ⟨again, hagain, hsame⟩ := ofText_of_spelled hf.arranged hwritten hspelled
  exact ⟨again, hagain, ofProgram_arranged program ▸ hsame⟩

theorem Same.printable {a b : Script} (h : a.Same b) (ha : a.Printable) : b.Printable := by
  obtain ⟨again, hread, hsame⟩ := ha
  exact ⟨again, h.text ▸ hread, hsame.trans h⟩

theorem printable_iff {script : Script} : script.Printable ↔ script.WellFormed := by
  constructor
  · rintro ⟨again, hread, hsame⟩
    obtain ⟨program, -, -, -, -, hfits, hlexed, rfl⟩ := exists_program_of_ofText hread
    exact hsame.wellFormed.mp (wellFormed_ofProgram hfits hlexed)
  · intro h
    obtain ⟨program, hfits, hlexed, hsame⟩ := h.exists_program
    exact hsame.printable (printable_ofProgram hfits hlexed)

theorem printable_of_ofText (h : ofText input = .ok script) : script.Printable := by
  obtain ⟨program, -, -, -, -, hfits, hlexed, rfl⟩ := exists_program_of_ofText h
  exact printable_ofProgram hfits hlexed

end Mapsmith.Script
