import Mapsmith.Script.Rename

/-!
# What identifiers denote

`rename_denotes`: within a function an identifier denotes a parameter or a local variable of
its name, if the function has one, and otherwise a native, a global or a function. A renaming
goes by the spelling of identifiers. With a new name it keeps what each of them denotes, except
where a function has a parameter or a local variable of the old name: there the identifier is
renamed and its declaration is not.
-/

namespace Mapsmith.Script

-- ---------------------------------------------------------------------------
-- Fragments and declarations by number
-- ---------------------------------------------------------------------------

/-- Where a fragment stands, by the numbers of symbols, variables and statements. -/
inductive Spot where
  | globalValue (n : Nat)
  | localValue (f n : Nat)
  | statement (f n : Nat)

/-- The function that the fragment is in. -/
def Spot.function? : Spot → Option Nat
  | globalValue _ => none
  | localValue f _ | statement f _ => some f

def fragment? (script : Script) : Spot → Option Fragment
  | .globalValue n => script.globals[n]?.bind fun symbol => symbol.initial
  | .localValue f n => script.functions[f]?.bind fun symbol =>
    symbol.locals[n]?.bind Variable.initial
  | .statement f n => script.functions[f]?.bind fun symbol => symbol.statements[n]?

def token? (script : Script) (spot : Spot) (i : Nat) : Option Token :=
  (script.fragment? spot).bind fun fragment => fragment[i]?

/-- What an identifier may denote, by its number among the declarations of its sort. -/
inductive Declared where
  | parameter (f n : Nat)
  | localVariable (f n : Nat)
  | native (n : Nat)
  | global (n : Nat)
  | function (n : Nat)

/-- The function whose parameter or local variable it is. -/
def Declared.owner? : Declared → Option Nat
  | parameter f _ | localVariable f _ => some f
  | native _ | global _ | function _ => none

def name? (script : Script) : Declared → Option String
  | .parameter f n => script.functions[f]?.bind fun symbol =>
    symbol.signature.takes[n]?.map Parameter.id
  | .localVariable f n => script.functions[f]?.bind fun symbol =>
    symbol.locals[n]?.map Variable.id
  | .native n => script.natives[n]?.map fun symbol => symbol.signature.id
  | .global n => script.globals[n]?.map fun symbol => symbol.id
  | .function n => script.functions[n]?.map fun symbol => symbol.signature.id

/-- The function around the fragment has a parameter or a local variable of the name. -/
def Shadows (script : Script) (spot : Spot) (id : String) : Prop :=
  ∃ own f, own.owner? = some f ∧ spot.function? = some f ∧ script.name? own = some id

/-- An identifier in a fragment denotes a declaration of its name: one of the function
around it, if that has one, or else one of the script. -/
inductive Denotes (script : Script) (spot : Spot) (id : String) : Declared → Prop
  | own {declared f} : declared.owner? = some f → spot.function? = some f →
      script.name? declared = some id → Denotes script spot id declared
  | symbol {declared} : declared.owner? = none → ¬script.Shadows spot id →
      script.name? declared = some id → Denotes script spot id declared

def Function.ownNames (symbol : Function) : List String :=
  symbol.signature.takes.map Parameter.id ++ symbol.locals.map Variable.id

def Function.fragments (symbol : Function) : List Fragment :=
  symbol.locals.filterMap Variable.initial ++ symbol.statements

def declaredNames (script : Script) : List String :=
  (script.natives.map fun symbol => symbol.signature.id) ++
    (script.globals.map fun symbol => symbol.id) ++
    (script.functions.map fun symbol => symbol.signature.id) ++
    script.functions.flatMap Function.ownNames

def fragments (script : Script) : List Fragment :=
  (script.globals.filterMap fun symbol => symbol.initial) ++
    script.functions.flatMap Function.fragments

/-- Something that identifiers may denote has the name, or a fragment has it as an
identifier. -/
def HasName (script : Script) (name : String) : Prop :=
  name ∈ script.declaredNames ∨ ∃ fragment ∈ script.fragments, .identifier name ∈ fragment

instance (script : Script) (name : String) : Decidable (script.HasName name) := by
  unfold HasName
  infer_instance

/-- A type is declared by the name. It comes first when the name is looked up. -/
def NamesType (script : Script) (name : String) : Prop := ∃ symbol ∈ script.types, symbol.id = name

theorem hasName_of_name? {script : Script} {declared : Declared}
    (h : script.name? declared = some name) : script.HasName name := by
  refine .inl ?_
  simp only [declaredNames, List.mem_append, List.mem_map, List.mem_flatMap, Function.ownNames]
  cases declared with
  | parameter f n =>
    obtain ⟨symbol, hs, h⟩ := Option.bind_eq_some_iff.mp h
    obtain ⟨parameter, hp, rfl⟩ := Option.map_eq_some_iff.mp h
    exact .inr ⟨symbol, List.mem_of_getElem? hs, .inl ⟨parameter, List.mem_of_getElem? hp, rfl⟩⟩
  | localVariable f n =>
    obtain ⟨symbol, hs, h⟩ := Option.bind_eq_some_iff.mp h
    obtain ⟨v, hv, rfl⟩ := Option.map_eq_some_iff.mp h
    exact .inr ⟨symbol, List.mem_of_getElem? hs, .inr ⟨v, List.mem_of_getElem? hv, rfl⟩⟩
  | native n =>
    obtain ⟨symbol, hs, rfl⟩ := Option.map_eq_some_iff.mp h
    exact .inl (.inl (.inl ⟨symbol, List.mem_of_getElem? hs, rfl⟩))
  | global n =>
    obtain ⟨symbol, hs, rfl⟩ := Option.map_eq_some_iff.mp h
    exact .inl (.inl (.inr ⟨symbol, List.mem_of_getElem? hs, rfl⟩))
  | function n =>
    obtain ⟨symbol, hs, rfl⟩ := Option.map_eq_some_iff.mp h
    exact .inl (.inr ⟨symbol, List.mem_of_getElem? hs, rfl⟩)

theorem hasName_of_token? {script : Script} {spot : Spot}
    (h : script.token? spot i = some (.identifier name)) : script.HasName name := by
  obtain ⟨fragment, hfragment, hi⟩ := Option.bind_eq_some_iff.mp h
  refine .inr ⟨fragment, ?_, List.mem_of_getElem? hi⟩
  simp only [fragments, List.mem_append, List.mem_filterMap, List.mem_flatMap, Function.fragments]
  cases spot with
  | globalValue n =>
    obtain ⟨symbol, hs, h⟩ := Option.bind_eq_some_iff.mp hfragment
    exact .inl ⟨symbol, List.mem_of_getElem? hs, h⟩
  | localValue f n =>
    obtain ⟨symbol, hs, h⟩ := Option.bind_eq_some_iff.mp hfragment
    obtain ⟨v, hv, h⟩ := Option.bind_eq_some_iff.mp h
    exact .inr ⟨symbol, List.mem_of_getElem? hs, .inl ⟨v, List.mem_of_getElem? hv, h⟩⟩
  | statement f n =>
    obtain ⟨symbol, hs, h⟩ := Option.bind_eq_some_iff.mp hfragment
    exact .inr ⟨symbol, List.mem_of_getElem? hs, .inr (List.mem_of_getElem? h)⟩

-- ---------------------------------------------------------------------------
-- What a renaming changes
-- ---------------------------------------------------------------------------

section

variable {script : Script} {old new : String}

theorem rename_identifier (old new id : String) :
    (Token.identifier id).rename old new = .identifier (renamed old new id) := by
  by_cases hid : id = old <;> simp [Token.rename, renamed, Token.identifier, hid]

theorem fragment?_renameType (spot : Spot) :
    (script.renameType old new).fragment? spot = script.fragment? spot := by
  cases spot <;>
    simp [fragment?, renameType, Function.renameType, Option.bind_map, Function.comp_def] <;> rfl

theorem name?_renameType (declared : Declared) :
    (script.renameType old new).name? declared = script.name? declared := by
  cases declared <;>
    simp [name?, renameType, Callable.renameType, Function.renameType, Signature.renameType,
      Option.bind_map, Function.comp_def] <;> rfl

theorem fragment?_renameValue (spot : Spot) : (script.renameValue old new).fragment? spot =
    (script.fragment? spot).map (·.rename old new) := by
  cases spot <;>
    simp [fragment?, renameValue, Function.renameValue, Option.bind_map, Option.map_bind,
      Function.comp_def] <;> rfl

theorem token?_renameValue (spot : Spot) (i : Nat) : (script.renameValue old new).token? spot i =
    (script.token? spot i).map (Token.rename old new) := by
  rw [token?, token?, fragment?_renameValue]
  cases script.fragment? spot <;> simp [Fragment.rename]

theorem name?_renameValue (declared : Declared) : (script.renameValue old new).name? declared =
    if declared.owner? = none then (script.name? declared).map (renamed old new)
    else script.name? declared := by
  cases declared <;>
    simp [name?, Declared.owner?, renameValue, Callable.renameId, Function.renameValue,
      Signature.renameId, Option.bind_map, Function.comp_def] <;> rfl

theorem find?_type_iff : (∃ symbol, script.find? old = some (.type symbol)) ↔
    script.NamesType old := by
  have hother (symbols : List Symbol) (h : ∀ symbol ∈ symbols, symbol.kind ≠ .type) :
      ¬∃ symbol, symbols.find? (fun symbol => symbol.id == old) = some (.type symbol) :=
    fun ⟨_, hfind⟩ => h _ (List.mem_of_find?_eq_some hfind) rfl
  rw [find?, symbols, List.append_assoc, List.append_assoc, List.find?_append]
  cases hfind : (script.types.map Symbol.type).find? fun symbol => symbol.id == old with
  | some found =>
    obtain ⟨symbol, hs, rfl⟩ := List.mem_map.mp (List.mem_of_find?_eq_some hfind)
    have hid := List.find?_some hfind
    exact iff_of_true ⟨symbol, rfl⟩ ⟨symbol, hs, by simpa [Symbol.id] using hid⟩
  | none =>
    refine iff_of_false (hother _ fun symbol hs => ?_) fun ⟨symbol, hs, hid⟩ => ?_
    · simp only [List.mem_append, List.mem_map] at hs
      obtain ⟨_, _, rfl⟩ | ⟨_, _, rfl⟩ | ⟨_, _, rfl⟩ := hs <;> simp [Symbol.kind]
    · have hne := List.find?_eq_none.mp hfind _ (List.mem_map_of_mem hs)
      exact hne (by simpa [Symbol.id] using hid)

theorem rename_ok (h : script.rename old new = .ok result) :
    script.NamesType old ∧ result = script.renameType old new ∨
      ¬script.NamesType old ∧ result = script.renameValue old new := by
  rw [← find?_type_iff]
  unfold rename at h
  split at h
  · cases h
  · cases h
    exact .inl ⟨⟨_, ‹_›⟩, rfl⟩
  · rename_i symbol hother hfind
    cases h
    refine .inr ⟨?_, rfl⟩
    rintro ⟨found, hfound⟩
    exact hother found (Option.some.inj (hfind.symm.trans hfound))

theorem NamesType.mem_ids (h : script.NamesType name) : name ∈ script.ids := by
  obtain ⟨symbol, hsymbol, rfl⟩ := h
  exact List.mem_map.mpr ⟨.type symbol, by simp [symbols, hsymbol], rfl⟩

theorem rename_of_mem_ids (h : old ∈ script.ids) (new : String) :
    ∃ result, script.rename old new = .ok result := by
  obtain ⟨symbol, hsymbol, hid⟩ := List.mem_map.mp h
  cases hfind : script.find? old with
  | none => exact absurd hid (by simpa using List.find?_eq_none.mp hfind symbol hsymbol)
  | some found => cases found <;> exact ⟨_, by simp only [rename, hfind]; rfl⟩

theorem rename_of_namesType (h : script.NamesType old) (new : String) :
    script.rename old new = .ok (script.renameType old new) := by
  obtain ⟨result, hresult⟩ := rename_of_mem_ids h.mem_ids new
  obtain ⟨-, rfl⟩ | ⟨hnot, -⟩ := rename_ok hresult
  · exact hresult
  · exact absurd h hnot

theorem rename_of_not_namesType (hid : old ∈ script.ids) (h : ¬script.NamesType old)
    (new : String) :
    script.rename old new = .ok (script.renameValue old new) := by
  obtain ⟨result, hresult⟩ := rename_of_mem_ids hid new
  obtain ⟨htype, -⟩ | ⟨-, rfl⟩ := rename_ok hresult
  · exact absurd htype h
  · exact hresult

-- ---------------------------------------------------------------------------
-- What identifiers denote afterwards
-- ---------------------------------------------------------------------------

theorem denotes_congr {script' : Script} {spot : Spot} {name name' : String}
    (hown : ∀ own f, own.owner? = some f → spot.function? = some f →
      (script'.name? own = some name' ↔ script.name? own = some name))
    (hsymbol : ∀ symbol, symbol.owner? = none →
      (script'.name? symbol = some name' ↔ script.name? symbol = some name)) (declared : Declared) :
    script'.Denotes spot name' declared ↔ script.Denotes spot name declared := by
  have hshadows : script'.Shadows spot name' ↔ script.Shadows spot name :=
    exists_congr fun own => exists_congr fun f =>
      and_congr_right fun howner => and_congr_right fun hspot => hown own f howner hspot
  constructor
  · rintro (⟨howner, hspot, hname⟩ | ⟨howner, hnot, hname⟩)
    · exact .own howner hspot ((hown _ _ howner hspot).mp hname)
    · exact .symbol howner (mt hshadows.mpr hnot) ((hsymbol _ howner).mp hname)
  · rintro (⟨howner, hspot, hname⟩ | ⟨howner, hnot, hname⟩)
    · exact .own howner hspot ((hown _ _ howner hspot).mpr hname)
    · exact .symbol howner (mt hshadows.mp hnot) ((hsymbol _ howner).mpr hname)

theorem denotes_iff_of_not_shadows {spot : Spot} (h : ¬script.Shadows spot name)
    (declared : Declared) :
    script.Denotes spot name declared ↔ declared.owner? = none ∧
      script.name? declared = some name := by
  constructor
  · rintro (⟨howner, hspot, hname⟩ | ⟨howner, -, hname⟩)
    · exact absurd ⟨declared, _, howner, hspot, hname⟩ h
    · exact ⟨howner, hname⟩
  · rintro ⟨howner, hname⟩
    exact .symbol howner h hname

theorem name?_own_renameValue {own : Declared} (h : own.owner? = some f) :
    (script.renameValue old new).name? own = script.name? own := by
  rw [name?_renameValue, if_neg (by simp [h])]

/-- A symbol has the name that a renaming makes of its own. No other one has it. -/
theorem name?_symbol_renameValue {symbol : Declared} (h : symbol.owner? = none)
    (hnew : ¬script.HasName new) (hname : name ≠ new) :
    (script.renameValue old new).name? symbol = some (renamed old new name) ↔
      script.name? symbol = some name := by
  rw [name?_renameValue, if_pos h]
  cases hfound : script.name? symbol with
  | none => simp
  | some found =>
    have hne : found ≠ new := fun heq => hnew (hasName_of_name? (heq ▸ hfound))
    by_cases hf : found = old <;> by_cases hn : name = old <;> grind [renamed]

theorem not_shadows_renameValue (hnew : ¬script.HasName new) (spot : Spot) :
    ¬(script.renameValue old new).Shadows spot new := by
  rintro ⟨own, f, howner, -, hname⟩
  exact hnew (hasName_of_name? (name?_own_renameValue howner ▸ hname))

/-- A name that the function around it does not declare denotes what it did, and so does
any name but the old one. -/
theorem denotes_renameValue_iff (hnew : ¬script.HasName new) (hname : name ≠ new) {spot : Spot}
    (h : name = old → ¬script.Shadows spot old) (declared : Declared) :
    (script.renameValue old new).Denotes spot (renamed old new name) declared ↔
      script.Denotes spot name declared := by
  refine denotes_congr (fun own f howner hspot => ?_) (fun symbol howner => ?_) declared
  · rw [name?_own_renameValue howner]
    by_cases hold : name = old
    · subst hold
      refine iff_of_false (fun heq => ?_) fun heq => h rfl ⟨own, f, howner, hspot, heq⟩
      have hown : script.name? own = some new := by simpa [renamed] using heq
      exact hnew (hasName_of_name? hown)
    · rw [renamed, if_neg hold]
  · exact name?_symbol_renameValue howner hnew hname

end

/-- A renaming to a new name renames every declaration and every identifier by its
spelling, parameters and local variables apart. So every identifier denotes what it did
before, unless it has the old name in a function with a parameter or a local variable of
that name: if the name is that of a value, the identifier then denotes the renamed
symbols. -/
theorem rename_denotes {script result : Script} (h : script.rename old new = .ok result)
    (hnew : ¬script.HasName new) :
    (∀ declared, result.name? declared = script.name? declared ∨ declared.owner? = none ∧
      script.name? declared = some old ∧ result.name? declared = some new) ∧
      ∀ spot i id, script.token? spot i = some (.identifier id) →
        ∃ id', result.token? spot i = some (.identifier id') ∧
          ((id = old → script.Shadows spot old → script.NamesType old) →
            ∀ declared, result.Denotes spot id' declared ↔ script.Denotes spot id declared) ∧
          (id = old → script.Shadows spot old → ¬script.NamesType old →
            ∀ declared, result.Denotes spot id' declared ↔
              declared.owner? = none ∧ script.name? declared = some old) := by
  obtain ⟨htype, rfl⟩ | ⟨htype, rfl⟩ := rename_ok h
  · refine ⟨fun declared => .inl (name?_renameType declared),
      fun spot i id htoken => ⟨id, ?_, fun _ => ?_, ?_⟩⟩
    · rw [← htoken, token?, token?, fragment?_renameType]
    · exact denotes_congr (fun own _ _ _ => by rw [name?_renameType])
        fun symbol _ => by rw [name?_renameType]
    · exact fun _ _ hnot => absurd htype hnot
  · refine ⟨fun declared => ?_, fun spot i id htoken => ⟨renamed old new id, ?_, ?_, ?_⟩⟩
    · rw [name?_renameValue]
      split
      · cases hname : script.name? declared with
        | none => exact .inl rfl
        | some name =>
          by_cases hold : name = old <;> simp [renamed, *]
      · exact .inl rfl
    · rw [token?_renameValue, htoken, Option.map_some, rename_identifier]
    · have hid : id ≠ new := fun heq => hnew (hasName_of_token? (heq ▸ htoken))
      exact fun hshadows => denotes_renameValue_iff hnew hid fun heq hs =>
        htype (hshadows heq hs)
    · rintro rfl ⟨own, f, howner, hspot, hname⟩ - declared
      have hid : id ≠ new := fun heq => hnew (hasName_of_name? (heq ▸ hname))
      have hrenamed : renamed id new id = new := if_pos rfl
      rw [hrenamed, denotes_iff_of_not_shadows (not_shadows_renameValue hnew spot)]
      refine and_congr_right fun hsymbol => ?_
      rw [← name?_symbol_renameValue hsymbol hnew hid, hrenamed]

/-- A global, a function that has a parameter of the same name and one that has not. Both
functions return what the name denotes. -/
def shadowedGlobal : Script where
  types := []
  natives := []
  globals := [⟨⟨"integer", "x", false, some [⟨.literal .integer, "0"⟩], none⟩, false⟩]
  functions := [
    ⟨⟨⟨"own", [⟨"integer", "x"⟩], some "integer"⟩, false, none⟩, [],
      [[.keyword .returnWord, .identifier "x"]]⟩,
    ⟨⟨⟨"global", [], some "integer"⟩, false, none⟩, [],
      [[.keyword .returnWord, .identifier "x"]]⟩]

theorem rename_denotes_shadowedGlobal :
    shadowedGlobal.rename "x" "y" = .ok (shadowedGlobal.renameValue "x" "y") ∧
      ¬shadowedGlobal.HasName "y" ∧
      (shadowedGlobal.renameValue "x" "y").token? (.statement 1 0) 1 = some (.identifier "y") ∧
      shadowedGlobal.Denotes (.statement 1 0) "x" (.global 0) ∧
      (shadowedGlobal.renameValue "x" "y").Denotes (.statement 1 0) "y" (.global 0) := by
  have hrename : shadowedGlobal.rename "x" "y" = .ok (shadowedGlobal.renameValue "x" "y") := rfl
  have hnew : ¬shadowedGlobal.HasName "y" := by decide
  have hnot : ¬shadowedGlobal.Shadows (.statement 1 0) "x" := by
    rintro ⟨own, f, howner, ⟨⟩, hname⟩
    cases own <;> cases howner <;> cases hname
  have hdenotes : shadowedGlobal.Denotes (.statement 1 0) "x" (.global 0) := .symbol rfl hnot rfl
  obtain ⟨id, htoken, hsame, -⟩ := (rename_denotes hrename hnew).2 (.statement 1 0) 1 "x" rfl
  cases htoken
  exact ⟨hrename, hnew, rfl, hdenotes, (hsame (fun _ hs => absurd hs hnot) _).mpr hdenotes⟩

/-- Where the parameter is in the way, the identifier came to denote the global. -/
theorem rename_captures :
    shadowedGlobal.rename "x" "y" = .ok (shadowedGlobal.renameValue "x" "y") ∧
      ¬shadowedGlobal.HasName "y" ∧
      shadowedGlobal.token? (.statement 0 0) 1 = some (.identifier "x") ∧
      (shadowedGlobal.renameValue "x" "y").token? (.statement 0 0) 1 = some (.identifier "y") ∧
      shadowedGlobal.Denotes (.statement 0 0) "x" (.parameter 0 0) ∧
      ¬shadowedGlobal.Denotes (.statement 0 0) "x" (.global 0) ∧
      (shadowedGlobal.renameValue "x" "y").Denotes (.statement 0 0) "y" (.global 0) ∧
      ¬(shadowedGlobal.renameValue "x" "y").Denotes (.statement 0 0) "y" (.parameter 0 0) := by
  have hshadows : shadowedGlobal.Shadows (.statement 0 0) "x" := ⟨.parameter 0 0, 0, rfl, rfl, rfl⟩
  have hnot : ¬(shadowedGlobal.renameValue "x" "y").Shadows (.statement 0 0) "y" :=
    not_shadows_renameValue (by decide) _
  refine ⟨rfl, by decide, rfl, rfl, .own rfl rfl rfl, ?_, .symbol rfl hnot rfl, ?_⟩
  · rintro (⟨⟨⟩, -, -⟩ | ⟨-, h, -⟩)
    exact h hshadows
  · rintro (⟨-, -, h⟩ | ⟨⟨⟩, -, -⟩)
    exact absurd h (by decide)

end Mapsmith.Script
