import Mapsmith.Proofs.Script.Binding

/-!
# Renamings one after the other

`rename_composes`: a name that a script has nowhere may stand for another for a while: what is
renamed to it and then on is renamed as it would have been at once. Each part of a script needs
that the part itself has not the name in between, and the script assembles them. Back to the
first name, the two leave everything as it was.
-/

namespace Mapsmith.Script

-- ---------------------------------------------------------------------------
-- Names that occur nowhere
-- ---------------------------------------------------------------------------

/-- The types that are named for the parameters and the result. -/
def Signature.typeNames (signature : Signature) : List String :=
  signature.takes.map Parameter.type ++ signature.returns.toList

def Function.typeNames (symbol : Function) : List String :=
  symbol.signature.typeNames ++ symbol.locals.map Variable.type

/-- The types that a script names, parents of types apart. -/
def typeNames (script : Script) : List String :=
  (script.natives.flatMap fun symbol => symbol.signature.typeNames) ++
    (script.globals.map fun symbol => symbol.type) ++ script.functions.flatMap Function.typeNames

/-- No symbol has the name, no type is named by it and no fragment has it as an identifier.
Parameters and local variables may have it. -/
structure Fresh (script : Script) (name : String) : Prop where
  ids : name ∉ script.ids
  parents : name ∉ script.types.map TypeSymbol.parent
  types : name ∉ script.typeNames
  fragments : ∀ fragment ∈ script.fragments, .identifier name ∉ fragment

/-- No parameter and no local variable has the name, and no fragment has it as an
identifier. -/
structure Function.Fresh (symbol : Function) (name : String) : Prop where
  own : name ∉ symbol.ownNames
  fragments : ∀ fragment ∈ symbol.fragments, .identifier name ∉ fragment

-- ---------------------------------------------------------------------------
-- Names and tokens
-- ---------------------------------------------------------------------------

section

variable {old mid new : String}

theorem renamed_renamed (h : name ≠ mid) :
    renamed mid new (renamed old mid name) = renamed old new name := by
  by_cases hold : name = old <;> simp [renamed, hold, h]

@[simp]
theorem renamed_refl (old : String) : renamed old old = fun name => name := by
  funext name
  simp +contextual [renamed]

theorem Token.rename_rename {token : Token} (h : token ≠ .identifier mid) :
    (token.rename old mid).rename mid new = token.rename old new := by
  by_cases hold : token = .identifier old <;> simp [Token.rename, hold, h]

@[simp]
theorem Token.rename_self (old : String) : Token.rename old old = fun token => token := by
  funext token
  simp +contextual [Token.rename]

theorem Fragment.rename_rename {fragment : Fragment} (h : .identifier mid ∉ fragment) :
    (fragment.rename old mid).rename mid new = fragment.rename old new := by
  simp only [Fragment.rename, List.map_map]
  refine List.map_congr_left fun token htoken => Token.rename_rename ?_
  rintro rfl
  exact h htoken

@[simp]
theorem Fragment.rename_self (fragment : Fragment) : fragment.rename old old = fragment := by
  simp [Fragment.rename]

theorem initial_rename_rename (old new : String) {initial : Option Fragment}
    (h : ∀ fragment, initial = some fragment → .identifier mid ∉ fragment) :
    (initial.map (·.rename old mid)).map (·.rename mid new) = initial.map (·.rename old new) := by
  rw [Option.map_map]
  exact Option.map_congr fun fragment hfragment => Fragment.rename_rename (h fragment hfragment)

-- ---------------------------------------------------------------------------
-- Types
-- ---------------------------------------------------------------------------

theorem Signature.renameType_renameType {signature : Signature} (h : mid ∉ signature.typeNames) :
    (signature.renameType old mid).renameType mid new = signature.renameType old new := by
  simp only [Signature.typeNames, List.mem_append, List.mem_map, Option.mem_toList, not_or] at h
  simp only [Signature.renameType, List.map_map, Option.map_map, Signature.mk.injEq, true_and]
  constructor
  · refine List.map_congr_left fun parameter hparameter => ?_
    have hname : parameter.type ≠ mid := fun heq => h.1 ⟨parameter, hparameter, heq⟩
    simp [renamed_renamed hname]
  · exact Option.map_congr fun name hname => renamed_renamed fun heq => h.2 (heq ▸ hname)

theorem Variable.renameType_renameType {v : Variable} (h : v.type ≠ mid) :
    (v.renameType old mid).renameType mid new = v.renameType old new := by
  simp [Variable.renameType, renamed_renamed h]

theorem Function.renameType_renameType {symbol : Function} (h : mid ∉ symbol.typeNames) :
    (symbol.renameType old mid).renameType mid new = symbol.renameType old new := by
  simp only [Function.typeNames, List.mem_append, List.mem_map, not_or] at h
  simp only [Function.renameType, Signature.renameType_renameType h.1, List.map_map,
    Function.mk.injEq, true_and, and_true]
  exact List.map_congr_left fun v hv => Variable.renameType_renameType fun heq => h.2 ⟨v, hv, heq⟩

/-- The first type of the old name is the first one, and the only one, of the name in
between. -/
theorem renameFirstType_renameFirstType {types : List TypeSymbol}
    (hids : mid ∉ types.map TypeSymbol.id) :
    renameFirstType mid new (renameFirstType old mid types) = renameFirstType old new types := by
  induction types with
  | nil => rfl
  | cons symbol rest ih =>
    have hid : symbol.id ≠ mid := fun heq => hids (by simp [heq])
    by_cases hold : symbol.id = old
    · simp [renameFirstType, hold]
    · simp [renameFirstType, hold, hid, ih fun h => hids (List.mem_cons_of_mem _ h)]

/-- Where a type is declared does not depend on parents. -/
theorem renameFirstType_map_parent (f : String → String) (types : List TypeSymbol) :
    renameFirstType old new (types.map fun symbol => { symbol with parent := f symbol.parent }) =
      (renameFirstType old new types).map fun symbol =>
        { symbol with parent := f symbol.parent } := by
  induction types with
  | nil => rfl
  | cons symbol rest ih =>
    by_cases hold : symbol.id = old <;> simp [renameFirstType, hold, ih]

@[simp]
theorem map_parent_renameFirstType (old new : String) (types : List TypeSymbol) :
    (renameFirstType old new types).map TypeSymbol.parent = types.map TypeSymbol.parent := by
  induction types with
  | nil => rfl
  | cons symbol rest ih => by_cases hold : symbol.id = old <;> simp [renameFirstType, hold, ih]

theorem renameTypes_renameTypes {types : List TypeSymbol} (hids : mid ∉ types.map TypeSymbol.id)
    (hparents : mid ∉ types.map TypeSymbol.parent) :
    ((renameFirstType mid new ((renameFirstType old mid types).map fun symbol =>
        { symbol with parent := renamed old mid symbol.parent })).map fun symbol =>
      { symbol with parent := renamed mid new symbol.parent }) =
      (renameFirstType old new types).map fun symbol =>
        { symbol with parent := renamed old new symbol.parent } := by
  rw [renameFirstType_map_parent, renameFirstType_renameFirstType hids, List.map_map]
  refine List.map_congr_left fun symbol hsymbol => ?_
  have hparent : symbol.parent ≠ mid := by
    rintro rfl
    exact hparents (map_parent_renameFirstType old new types ▸ List.mem_map_of_mem hsymbol)
  simp [renamed_renamed hparent]

-- ---------------------------------------------------------------------------
-- Values
-- ---------------------------------------------------------------------------

theorem Variable.renameUses_renameUses {v : Variable}
    (h : ∀ fragment, v.initial = some fragment → .identifier mid ∉ fragment) :
    (v.renameUses old mid).renameUses mid new = v.renameUses old new := by
  simp only [Variable.renameUses, initial_rename_rename old new h]

theorem Global.renameValue_renameValue {symbol : Global} (hid : symbol.id ≠ mid)
    (h : ∀ fragment, symbol.initial = some fragment → .identifier mid ∉ fragment) :
    (symbol.renameValue old mid).renameValue mid new = symbol.renameValue old new := by
  simp only [Global.renameValue, renamed_renamed hid, initial_rename_rename old new h]

theorem statements_rename_rename (old new : String) {statements : List Fragment}
    (h : ∀ fragment ∈ statements, .identifier mid ∉ fragment) :
    (statements.map (·.rename old mid)).map (·.rename mid new) =
      statements.map (·.rename old new) := by
  rw [List.map_map]
  exact List.map_congr_left fun fragment hfragment => Fragment.rename_rename (h fragment hfragment)

theorem Function.mem_fragments_of_local {symbol : Function} (hv : v ∈ symbol.locals)
    (h : v.initial = some fragment) : fragment ∈ symbol.fragments :=
  List.mem_append_left _ (List.mem_filterMap.mpr ⟨v, hv, h⟩)

theorem Function.mem_fragments_of_statement {symbol : Function}
    (h : fragment ∈ symbol.statements) : fragment ∈ symbol.fragments :=
  List.mem_append_right _ h

theorem Function.renameValue_renameValue {symbol : Function} (hid : symbol.signature.id ≠ mid)
    (h : ∀ fragment ∈ symbol.fragments, .identifier mid ∉ fragment) :
    (symbol.renameValue old mid).renameValue mid new = symbol.renameValue old new := by
  have hlocals :
      (symbol.locals.map (Variable.renameUses old mid)).map (Variable.renameUses mid new) =
      symbol.locals.map (Variable.renameUses old new) := by
    rw [List.map_map]
    exact List.map_congr_left fun v hv => Variable.renameUses_renameUses fun fragment hfragment =>
      h fragment (mem_fragments_of_local hv hfragment)
  have hstatements := statements_rename_rename old new fun fragment hfragment =>
    h fragment (mem_fragments_of_statement hfragment)
  simp only [Function.renameValue, Signature.renameId, renamed_renamed hid, hlocals, hstatements]

theorem Function.renameLocal_renameLocal {symbol : Function} (h : symbol.Fresh mid) :
    (symbol.renameLocal old mid).renameLocal mid new = symbol.renameLocal old new := by
  have hown := h.own
  simp only [ownNames, List.mem_append, List.mem_map, not_or] at hown
  have hstatements := statements_rename_rename old new fun fragment hfragment =>
    h.fragments fragment (mem_fragments_of_statement hfragment)
  simp only [Function.renameLocal, List.map_map, hstatements, Function.mk.injEq,
    Callable.mk.injEq, Signature.mk.injEq, true_and, and_true]
  constructor
  · refine List.map_congr_left fun parameter hparameter => ?_
    have hid : parameter.id ≠ mid := fun heq => hown.1 ⟨parameter, hparameter, heq⟩
    simp [renamed_renamed hid]
  · refine List.map_congr_left fun v hv => ?_
    have hid : v.id ≠ mid := fun heq => hown.2 ⟨v, hv, heq⟩
    have hinitial := initial_rename_rename old new fun fragment hfragment =>
      h.fragments fragment (mem_fragments_of_local hv hfragment)
    simp only [Function.comp_apply, Variable.renameUses, renamed_renamed hid, hinitial]

-- ---------------------------------------------------------------------------
-- Scripts
-- ---------------------------------------------------------------------------

theorem mem_ids {script : Script} : name ∈ script.ids ↔
    name ∈ script.types.map TypeSymbol.id ∨
      (∃ symbol ∈ script.natives, symbol.signature.id = name) ∨
      (∃ symbol ∈ script.globals, symbol.id = name) ∨
      ∃ symbol ∈ script.functions, symbol.signature.id = name := by
  simp [ids, symbols, Symbol.id, Function.comp_def]

variable {script : Script}

theorem renameType_renameType (h : script.Fresh mid) :
    (script.renameType old mid).renameType mid new = script.renameType old new := by
  have hids := mt mem_ids.mpr h.ids
  have htypes := h.types
  simp only [typeNames, List.mem_append, List.mem_flatMap, List.mem_map, not_or, not_exists,
    not_and] at hids htypes
  obtain ⟨⟨hnatives, hglobals⟩, hfunctions⟩ := htypes
  simp only [renameType, List.map_map, Script.mk.injEq]
  refine ⟨?_, ?_, ?_, ?_⟩
  · simpa [Function.comp_def] using renameTypes_renameTypes (by simpa using hids.1) h.parents
  · refine List.map_congr_left fun symbol hsymbol => ?_
    simp [Callable.renameType, Signature.renameType_renameType (hnatives symbol hsymbol)]
  · refine List.map_congr_left fun symbol hsymbol => ?_
    simp [Global.renameType, renamed_renamed (hglobals symbol hsymbol)]
  · exact List.map_congr_left fun symbol hsymbol =>
      Function.renameType_renameType (hfunctions symbol hsymbol)

theorem renameValue_renameValue (h : script.Fresh mid) :
    (script.renameValue old mid).renameValue mid new = script.renameValue old new := by
  obtain ⟨-, hids⟩ := not_or.mp (mt mem_ids.mpr h.ids)
  simp only [not_or, not_exists, not_and] at hids
  obtain ⟨hnatives, hglobals, hfunctions⟩ := hids
  simp only [renameValue, List.map_map, Script.mk.injEq, true_and]
  refine ⟨?_, ?_, ?_⟩
  · refine List.map_congr_left fun symbol hsymbol => ?_
    simp [Callable.renameId, Signature.renameId, renamed_renamed (hnatives symbol hsymbol)]
  · refine List.map_congr_left fun symbol hsymbol => ?_
    refine Global.renameValue_renameValue (hglobals symbol hsymbol) fun fragment hfragment => ?_
    exact h.fragments fragment
      (List.mem_append_left _ (List.mem_filterMap.mpr ⟨_, hsymbol, hfragment⟩))
  · refine List.map_congr_left fun symbol hsymbol => ?_
    refine Function.renameValue_renameValue (hfunctions symbol hsymbol) fun fragment hfragment => ?_
    exact h.fragments fragment
      (List.mem_append_right _ (List.mem_flatMap.mpr ⟨_, hsymbol, hfragment⟩))

-- ---------------------------------------------------------------------------
-- A name for itself
-- ---------------------------------------------------------------------------

@[simp]
theorem Signature.renameType_self (old : String) :
    Signature.renameType old old = fun signature => signature := by
  funext signature
  simp [Signature.renameType]

@[simp]
theorem Callable.renameType_self (old : String) :
    Callable.renameType old old = fun symbol => symbol := by
  funext symbol
  simp [Callable.renameType]

@[simp]
theorem Variable.renameType_self (old : String) : Variable.renameType old old = fun v => v := by
  funext v
  simp [Variable.renameType]

@[simp]
theorem Global.renameType_self (old : String) :
    Global.renameType old old = fun symbol => symbol := by
  funext symbol
  simp [Global.renameType]

@[simp]
theorem Function.renameType_self (old : String) :
    Function.renameType old old = fun symbol => symbol := by
  funext symbol
  simp [Function.renameType]

@[simp]
theorem Callable.renameId_self (old : String) :
    Callable.renameId old old = fun symbol => symbol := by
  funext symbol
  simp [Callable.renameId, Signature.renameId]

@[simp]
theorem Variable.renameUses_self (old : String) : Variable.renameUses old old = fun v => v := by
  funext v
  simp [Variable.renameUses]

@[simp]
theorem Global.renameValue_self (old : String) :
    Global.renameValue old old = fun symbol => symbol := by
  funext symbol
  simp [Global.renameValue]

@[simp]
theorem Function.renameValue_self (old : String) :
    Function.renameValue old old = fun symbol => symbol := by
  funext symbol
  simp [Function.renameValue, Signature.renameId]

theorem Function.renameLocal_self (old : String) (symbol : Function) :
    symbol.renameLocal old old = symbol := by
  simp [Function.renameLocal]

@[simp]
theorem renameFirstType_self (old : String) (types : List TypeSymbol) :
    renameFirstType old old types = types := by
  induction types with
  | nil => rfl
  | cons symbol rest ih =>
    by_cases hold : symbol.id = old
    · subst hold
      simp [renameFirstType]
    · simp [renameFirstType, hold, ih]

theorem renameType_self (script : Script) (old : String) : script.renameType old old = script := by
  simp [renameType]

theorem renameValue_self (script : Script) (old : String) :
    script.renameValue old old = script := by
  simp [renameValue]

-- ---------------------------------------------------------------------------
-- Renaming symbols
-- ---------------------------------------------------------------------------

theorem exists_id_renameFirstType (new : String) {types : List TypeSymbol}
    (h : ∃ symbol ∈ types, symbol.id = old) :
    ∃ symbol ∈ renameFirstType old new types, symbol.id = new := by
  induction types with
  | nil => simp at h
  | cons symbol rest ih =>
    by_cases hold : symbol.id = old
    · exact ⟨{ symbol with id := new }, by simp [renameFirstType, hold], rfl⟩
    · obtain ⟨found, hfound, hid⟩ := ih (by simpa [hold] using h)
      exact ⟨found, by simp [renameFirstType, hold, hfound], hid⟩

theorem namesType_renameType (h : script.NamesType old) (new : String) :
    (script.renameType old new).NamesType new := by
  obtain ⟨symbol, hsymbol, hid⟩ := exists_id_renameFirstType new h
  exact ⟨_, List.mem_map_of_mem hsymbol, hid⟩

theorem mem_ids_renameValue (hid : old ∈ script.ids) (h : ¬script.NamesType old) (new : String) :
    new ∈ (script.renameValue old new).ids := by
  rw [mem_ids] at hid ⊢
  obtain htype | ⟨symbol, hsymbol, rfl⟩ | ⟨symbol, hsymbol, rfl⟩ | ⟨symbol, hsymbol, rfl⟩ := hid
  · exact absurd (List.mem_map.mp htype) h
  · exact .inr (.inl ⟨_, List.mem_map_of_mem hsymbol, if_pos rfl⟩)
  · exact .inr (.inr (.inl ⟨_, List.mem_map_of_mem hsymbol, if_pos rfl⟩))
  · exact .inr (.inr (.inr ⟨_, List.mem_map_of_mem hsymbol, if_pos rfl⟩))

/-- The symbol that was renamed is found under its name and is of the kind that it was, so
that it is renamed on by the same rules. -/
theorem rename_rename_of_fresh (hid : old ∈ script.ids) (h : script.Fresh mid) :
    ∃ between, script.rename old mid = .ok between ∧
      ∀ new, between.rename mid new = script.rename old new := by
  by_cases htype : script.NamesType old
  · refine ⟨_, rename_of_namesType htype mid, fun new => ?_⟩
    rw [rename_of_namesType (namesType_renameType htype mid), rename_of_namesType htype,
      renameType_renameType h]
  · have hmid : ¬(script.renameValue old mid).NamesType mid :=
      fun (hn : script.NamesType mid) => h.ids hn.mem_ids
    refine ⟨_, rename_of_not_namesType hid htype mid, fun new => ?_⟩
    rw [rename_of_not_namesType (mem_ids_renameValue hid htype mid) hmid,
      rename_of_not_namesType hid htype, renameValue_renameValue h]

theorem rename_self (hid : old ∈ script.ids) : script.rename old old = .ok script := by
  obtain ⟨result, hresult⟩ := rename_of_mem_ids hid old
  obtain ⟨-, rfl⟩ | ⟨-, rfl⟩ := rename_ok hresult
  · rw [hresult, renameType_self]
  · rw [hresult, renameValue_self]

end

/-- A symbol that is renamed to a name that occurs nowhere, and then on, is renamed as if
it had been at once. Both steps succeed. So the step back leaves the script as it was. The
same holds of the parameters and local variables in a function. -/
theorem rename_composes :
    (∀ (script : Script) (old mid : String), old ∈ script.ids → script.Fresh mid →
      ∃ between, script.rename old mid = .ok between ∧
        (∀ new, ∃ result, between.rename mid new = .ok result ∧
          script.rename old new = .ok result) ∧
        between.rename mid old = .ok script) ∧
    ∀ (symbol : Function) (old mid : String), symbol.Fresh mid →
      (∀ new, (symbol.renameLocal old mid).renameLocal mid new = symbol.renameLocal old new) ∧
        (symbol.renameLocal old mid).renameLocal mid old = symbol := by
  constructor
  · intro script old mid hid h
    obtain ⟨between, hbetween, hon⟩ := rename_rename_of_fresh hid h
    refine ⟨between, hbetween, fun new => ?_, (hon old).trans (rename_self hid)⟩
    obtain ⟨result, hresult⟩ := rename_of_mem_ids hid new
    exact ⟨result, (hon new).trans hresult, hresult⟩
  · intro symbol old mid h
    refine ⟨fun new => Function.renameLocal_renameLocal h, ?_⟩
    rw [Function.renameLocal_renameLocal h, Function.renameLocal_self]

/-- A function with a parameter and a local variable of one type, whose value names the
parameter. -/
def keepingOwner : Function :=
  ⟨⟨⟨"first", [⟨"unit", "own"⟩], some "unit"⟩, false, none⟩,
    [⟨"unit", "u", false, some [.identifier "own"], none⟩],
    [[.keyword .returnWord, .identifier "own"]]⟩

/-- Two types of one name, a global of the name, and a native and a function of that type. -/
def repeatedType : Script where
  types := [⟨"unit", "handle", none⟩, ⟨"unit", "unit", none⟩, ⟨"hero", "unit", none⟩]
  natives := [⟨⟨"owner", [⟨"unit", "u"⟩], some "unit"⟩, false, none⟩]
  globals := [⟨⟨"unit", "unit", false, some [.identifier "unit"], none⟩, false⟩]
  functions := [keepingOwner]

/-- The first type of the name is renamed and back, and so is the parameter. -/
theorem rename_composes_repeatedType :
    (∃ between, repeatedType.rename "unit" "widget" = .ok between ∧
      between.types.map TypeSymbol.id = ["widget", "unit", "hero"] ∧
      between.rename "widget" "unit" = .ok repeatedType) ∧
    (keepingOwner.renameLocal "own" "u2").renameLocal "u2" "own" = keepingOwner := by
  have hfresh : repeatedType.Fresh "widget" := ⟨by decide, by decide, by decide, by decide⟩
  have hown : keepingOwner.Fresh "u2" := ⟨by decide, by decide⟩
  obtain ⟨between, hbetween, -, hback⟩ :=
    rename_composes.1 repeatedType "unit" "widget" (by decide) hfresh
  refine ⟨⟨between, hbetween, ?_, hback⟩, (rename_composes.2 keepingOwner "own" "u2" hown).2⟩
  cases hbetween
  rfl

end Mapsmith.Script
