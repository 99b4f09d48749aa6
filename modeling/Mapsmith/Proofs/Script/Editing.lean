import Mapsmith.Proofs.Script.Changes

/-!
# What an edit goes to

`exchange_acts_on_found`: a symbol is looked up among all symbols, and the edit looks again
among those of its kind. Both find the same one. What an edit puts there, or nothing, stands
between the symbols that stood around it, and the collections of the other kinds are as they
were.
-/

namespace Mapsmith.Script

-- ---------------------------------------------------------------------------
-- One item of a list
-- ---------------------------------------------------------------------------

/-- The first symbol of an identifier has given way to another, or to none. -/
def GivesWay (id : String) (old : Symbol) (new : Option Symbol)
    (symbols result : List Symbol) : Prop :=
  old.id = id ∧ ∃ before after, symbols = before ++ old :: after ∧
    result = before ++ new.toList ++ after ∧ ∀ symbol ∈ before, symbol.id ≠ id

section

variable {id : String} {old : Symbol} {new : Option Symbol} {symbols result : List Symbol}

theorem GivesWay.append_left (h : GivesWay id old new symbols result) {others : List Symbol}
    (hothers : ∀ symbol ∈ others, symbol.id ≠ id) :
    GivesWay id old new (others ++ symbols) (others ++ result) := by
  obtain ⟨hid, before, after, rfl, rfl, hbefore⟩ := h
  refine ⟨hid, others ++ before, after, ?_, ?_, List.forall_mem_append.mpr ⟨hothers, hbefore⟩⟩
  · rw [List.append_assoc]
  · simp only [List.append_assoc]

theorem GivesWay.append_right (h : GivesWay id old new symbols result) (others : List Symbol) :
    GivesWay id old new (symbols ++ others) (result ++ others) := by
  obtain ⟨hid, before, after, rfl, rfl, hbefore⟩ := h
  exact ⟨hid, before, after ++ others, by simp, by simp, hbefore⟩

theorem givesWay_substitute (h : symbols.find? (·.id == id) = some old) (new : Option Symbol) :
    GivesWay id old new symbols (substitute (·.id == id) new symbols) := by
  induction symbols with
  | nil => cases h
  | cons first rest ih =>
    by_cases hfirst : first.id = id
    · obtain rfl : first = old := by simpa [hfirst] using h
      exact ⟨hfirst, [], rest, rfl, by simp [substitute, hfirst], nofun⟩
    · have hrest := ih (by simpa [hfirst] using h)
      have hkept := hrest.append_left (List.forall_mem_singleton.mpr hfirst)
      simpa [substitute, hfirst] using hkept

/-- The edit of a collection by index. It goes to the start of the collection if no symbol has
the identifier, and takes a symbol out if what is to be put in is not of the kind. An empty
collection has no symbol to go to. -/
def editAtIndex (id : String) (kind : SymbolKind) (new : Option Symbol) (symbols : List Symbol) :
    Option (Symbol × List Symbol) :=
  let index := (symbols.findIdx? (·.id == id)).getD 0
  let result := match new.filter (·.kind = kind) with
    | some new => symbols.set index new
    | none => symbols.eraseIdx index
  symbols[index]?.map fun old => (old, result)

/-- The index is that of the symbol that gives way. -/
theorem GivesWay.editAtIndex (h : GivesWay id old new symbols result)
    (hkind : ∀ symbol ∈ new, symbol.kind = kind) :
    editAtIndex id kind new symbols = some (old, result) := by
  obtain ⟨hid, before, after, rfl, rfl, hbefore⟩ := h
  have hindex : (before ++ old :: after).findIdx? (·.id == id) = some before.length := by
    have hnone : before.findIdx? (·.id == id) = none := by simpa using hbefore
    rw [List.findIdx?_append, hnone]
    simp [List.findIdx?_cons, hid]
  simp only [Script.editAtIndex, hindex, Option.getD_some, List.getElem?_append_right le_rfl,
    Nat.sub_self, List.getElem?_cons_zero, Option.map_some]
  cases new with
  | none => simp [List.eraseIdx_append_of_length_le]
  | some new =>
    rw [Option.filter_some_pos (by simpa using hkind new rfl)]
    simp

theorem map_substitute (f : α → β) (meant : β → Bool) (new : Option α) (items : List α) :
    (substitute (fun item => meant (f item)) new items).map f =
      substitute meant (new.map f) (items.map f) := by
  induction items with
  | nil => rfl
  | cons first rest ih =>
    cases hfirst : meant (f first) <;> cases new <;> simp [substitute, hfirst, ih]

end

-- ---------------------------------------------------------------------------
-- The symbols of a kind
-- ---------------------------------------------------------------------------

def ofKind (script : Script) : SymbolKind → List Symbol
  | .type => script.types.map .type
  | .native => script.natives.map .native
  | .global => script.globals.map .global
  | .function => script.functions.map .function

section

variable {script result : Script} {id : String}

theorem symbols_eq_flatMap (script : Script) :
    script.symbols = SymbolKind.all.flatMap script.ofKind := by
  simp [symbols, SymbolKind.all, ofKind]

theorem kind_of_mem_ofKind {symbol : Symbol} (h : symbol ∈ script.ofKind kind) :
    symbol.kind = kind := by
  cases kind <;> obtain ⟨_, _, rfl⟩ := List.mem_map.mp h <;> rfl

theorem ofKind_without (id : String) (kind other : SymbolKind) :
    (script.without id kind).ofKind other =
      if other = kind then substitute (·.id == id) none (script.ofKind other)
      else script.ofKind other := by
  cases kind <;> cases other <;>
    first
    | rfl
    | exact map_substitute _ (fun symbol : Symbol => symbol.id == id) none _

theorem ofKind_withInstead (id : String) (new : Symbol) (other : SymbolKind) :
    (script.withInstead id new).ofKind other =
      if other = new.kind then substitute (·.id == id) (some new) (script.ofKind other)
      else script.ofKind other := by
  cases new <;> cases other <;>
    first
    | rfl
    | exact map_substitute _ (fun symbol : Symbol => symbol.id == id) (some _) _

theorem ofKind_add (new : Symbol) (other : SymbolKind) : (script.add new).ofKind other =
    if other = new.kind then script.ofKind other ++ [new] else script.ofKind other := by
  cases new <;> cases other <;> first | rfl | exact List.map_append

/-- The kinds before that of the symbol have none of the identifier, so it is also the first
one of its own kind. -/
theorem find?_ofKind {old : Symbol} (h : script.find? id = some old) :
    ∃ kinds others, SymbolKind.all = kinds ++ old.kind :: others ∧
      old.kind ∉ kinds ∧ old.kind ∉ others ∧
      (∀ symbol ∈ kinds.flatMap script.ofKind, symbol.id ≠ id) ∧
      (script.ofKind old.kind).find? (·.id == id) = some old := by
  rw [find?, symbols_eq_flatMap, List.find?_flatMap, List.findSome?_eq_some_iff] at h
  obtain ⟨kinds, kind, others, hall, hfind, hnone⟩ := h
  obtain rfl : old.kind = kind := kind_of_mem_ofKind (List.mem_of_find?_eq_some hfind)
  have hnodup : (kinds ++ old.kind :: others).Nodup := by
    rw [← hall]
    decide
  obtain ⟨-, hcons, hdisjoint⟩ := List.nodup_append.mp hnodup
  refine ⟨kinds, others, hall, fun hmem => ?_, (List.nodup_cons.mp hcons).1,
    fun symbol hsymbol => ?_, hfind⟩
  · exact hdisjoint _ hmem _ List.mem_cons_self rfl
  · obtain ⟨other, hother, hmem⟩ := List.mem_flatMap.mp hsymbol
    simpa using List.find?_eq_none.mp (hnone other hother) symbol hmem

-- ---------------------------------------------------------------------------
-- Edits
-- ---------------------------------------------------------------------------

/-- A script is another one, except that the first symbol of an identifier has given way. It is
the same symbol among all of them and among those of its kind, where an index was searched for. -/
structure Exchanged (script : Script) (id : String) (old : Symbol) (new : Option Symbol)
    (result : Script) : Prop where
  symbols : GivesWay id old new script.symbols result.symbols
  own : GivesWay id old new (script.ofKind old.kind) (result.ofKind old.kind)
  searched : editAtIndex id old.kind new (script.ofKind old.kind) =
    some (old, result.ofKind old.kind)
  others : ∀ kind, kind ≠ old.kind → result.ofKind kind = script.ofKind kind

/-- Puts a symbol, or nothing, in the place of the one that an identifier is looked up to be.
The outcome also has the symbol that was there. -/
def exchange (script : Script) (id : String) : Option Symbol → Except ScriptError (Symbol × Script)
  | some new => script.replace id new
  | none => script.remove id

theorem exchanged_of_ofKind {old : Symbol} {new : Option Symbol} (h : script.find? id = some old)
    (hkind : ∀ symbol ∈ new, symbol.kind = old.kind) (hresult : ∀ kind, result.ofKind kind =
      if kind = old.kind then substitute (·.id == id) new (script.ofKind kind)
      else script.ofKind kind) : script.Exchanged id old new result := by
  obtain ⟨kinds, others, hall, hkinds, hothers, hbefore, hfind⟩ := find?_ofKind h
  have hsame (some : List SymbolKind) (hsome : old.kind ∉ some) :
      some.flatMap result.ofKind = some.flatMap script.ofKind := by
    refine List.flatMap_congr fun kind hkind => ?_
    have hne : kind ≠ old.kind := fun heq => hsome (heq ▸ hkind)
    rw [hresult, if_neg hne]
  have hown : GivesWay id old new (script.ofKind old.kind) (result.ofKind old.kind) := by
    rw [hresult, if_pos rfl]
    exact givesWay_substitute hfind new
  refine ⟨?_, hown, hown.editAtIndex hkind, fun kind hne => by rw [hresult, if_neg hne]⟩
  rw [symbols_eq_flatMap script, symbols_eq_flatMap result, hall, List.flatMap_append,
    List.flatMap_append, List.flatMap_cons, List.flatMap_cons, hsame kinds hkinds,
      hsame others hothers]
  exact (hown.append_right _).append_left hbefore

theorem exchange_of_find?_eq_none (h : script.find? id = none) (new : Option Symbol) :
    script.exchange id new = .error (.unknownSymbol id) := by
  cases new <;> simp only [exchange, replace, remove, h]

theorem exchange_of_kind_ne {old new : Symbol} (h : script.find? id = some old)
    (hkind : new.kind ≠ old.kind) :
    script.exchange id (some new) = .error (.kindMismatch id old.kind new.kind) := by
  simp only [exchange, replace, h, if_neg hkind]

theorem exchange_of_find?_eq_some {old : Symbol} {new : Option Symbol}
    (h : script.find? id = some old) (hkind : ∀ symbol ∈ new, symbol.kind = old.kind) :
    ∃ result, script.exchange id new = .ok (old, result) ∧ script.Exchanged id old new result := by
  cases new with
  | none =>
    refine ⟨script.without id old.kind, ?_,
      exchanged_of_ofKind h hkind fun kind => ofKind_without id old.kind kind⟩
    simp only [exchange, remove, h]
  | some new =>
    have hnew : new.kind = old.kind := hkind new rfl
    refine ⟨script.withInstead id new, ?_, exchanged_of_ofKind h hkind fun kind => ?_⟩
    · simp only [exchange, replace, h, if_pos hnew]
    · rw [← hnew]
      exact ofKind_withInstead id new kind

theorem set_of_find?_ne_none (h : script.find? id ≠ none) (new : Symbol) : script.set id new =
    (script.exchange id (some new)).map fun (old, result) => (some old, result) := by
  have hcontains : script.contains id = true := Option.isSome_iff_ne_none.mpr h
  rw [set, if_pos hcontains, exchange]

theorem set_of_find?_eq_none (h : script.find? id = none) (new : Symbol) :
    script.set id new = .ok (none, script.add new) := by
  simp only [set, contains, h, Option.isSome_none, Bool.false_eq_true, if_false]

theorem Change.outcome_replace (script : Script) (id : String) (new : Option Symbol) :
    (Change.replace id new).outcome script = (script.exchange id new).map Prod.snd := by
  cases new <;> rfl

theorem Change.after_replace_of_error {new : Option Symbol}
    (h : script.exchange id new = .error error) :
    (Change.replace id new).after script = script := by
  rw [after, outcome_replace, h]
  rfl

theorem Change.after_replace_of_ok {new : Option Symbol}
    (h : script.exchange id new = .ok (old, result)) :
    (Change.replace id new).after script = result := by
  rw [after, outcome_replace, h]
  rfl

theorem Change.after_set_of_find?_ne_none (h : script.find? id ≠ none) (new : Symbol) :
    (Change.set id new).after script = (Change.replace id (some new)).after script := by
  have houtcome : (Change.set id new).outcome script =
      (Change.replace id (some new)).outcome script := by
    rw [outcome_replace, outcome, set_of_find?_ne_none h]
    cases script.exchange id (some new) <;> rfl
  rw [after, after, houtcome]

end

/-- An edit is refused for a symbol that is not there or is of another kind, and then the
script is as it was. Otherwise the symbol that is looked up gives way, and no other. -/
theorem exchange_acts_on_found (script : Script) (id : String) :
    (∀ new, script.find? id = none →
      script.exchange id new = .error (.unknownSymbol id) ∧
        (Change.replace id new).after script = script) ∧
    (∀ old new, script.find? id = some old → new.kind ≠ old.kind →
      script.exchange id (some new) = .error (.kindMismatch id old.kind new.kind) ∧
        (Change.replace id (some new)).after script = script) ∧
    (∀ old new, script.find? id = some old → (∀ symbol ∈ new, symbol.kind = old.kind) →
      ∃ result, script.exchange id new = .ok (old, result) ∧
        (Change.replace id new).after script = result ∧ script.Exchanged id old new result) ∧
    (∀ new, script.find? id ≠ none →
      script.set id new = (script.exchange id (some new)).map
        (fun (old, result) => (some old, result)) ∧
        (Change.set id new).after script = (Change.replace id (some new)).after script) ∧
    ∀ new, script.find? id = none → ∃ result, script.set id new = .ok (none, result) ∧
      (Change.set id new).after script = result ∧
      result.ofKind new.kind = script.ofKind new.kind ++ [new] ∧
      ∀ kind, kind ≠ new.kind → result.ofKind kind = script.ofKind kind := by
  refine ⟨fun new hfind => ?_, fun old new hfind hkind => ?_, fun old new hfind hkind => ?_,
    fun new hfind => ?_, fun new hfind => ?_⟩
  · have hexchange := exchange_of_find?_eq_none hfind new
    exact ⟨hexchange, Change.after_replace_of_error hexchange⟩
  · have hexchange := exchange_of_kind_ne hfind hkind
    exact ⟨hexchange, Change.after_replace_of_error hexchange⟩
  · obtain ⟨result, hexchange, hexchanged⟩ := exchange_of_find?_eq_some hfind hkind
    exact ⟨result, hexchange, Change.after_replace_of_ok hexchange, hexchanged⟩
  · exact ⟨set_of_find?_ne_none hfind new, Change.after_set_of_find?_ne_none hfind new⟩
  · have hset := set_of_find?_eq_none hfind new
    refine ⟨script.add new, hset, ?_, ?_, fun kind hkind => ?_⟩
    · rw [Change.after, Change.outcome, hset]
      rfl
    · rw [ofKind_add, if_pos rfl]
    · rw [ofKind_add, if_neg hkind]

/-- A script with a native and a function of one name, and two globals of another. -/
def doubled : Script where
  types := []
  natives := [⟨⟨"a", [], none⟩, false, none⟩]
  globals :=
  [⟨⟨"integer", "b", false, none, none⟩, false⟩, ⟨⟨"real", "b", true, none, none⟩, false⟩]
  functions := [⟨⟨⟨"a", [], none⟩, false, none⟩, [], []⟩]

theorem exchange_acts_on_found_doubled :
    doubled.exchange "c" none = .error (.unknownSymbol "c") ∧
      doubled.exchange "b" (some (.type ⟨"b", "handle", none⟩)) =
        .error (.kindMismatch "b" .global .type) ∧
      (∃ result, doubled.exchange "b" none =
        .ok (.global ⟨⟨"integer", "b", false, none, none⟩, false⟩, result) ∧
        doubled.Exchanged "b" (.global ⟨⟨"integer", "b", false, none, none⟩, false⟩) none result) ∧
      (∃ result, doubled.set "a" (.native ⟨⟨"c", [], none⟩, true, none⟩) =
        .ok (some (.native ⟨⟨"a", [], none⟩, false, none⟩), result)) ∧
      ∃ result, doubled.set "c" (.type ⟨"b", "handle", none⟩) = .ok (none, result) ∧
        result.ofKind .global = doubled.ofKind .global := by
  have hnone : doubled.find? "c" = none := by decide
  have hglobal : doubled.find? "b" =
      some (.global ⟨⟨"integer", "b", false, none, none⟩, false⟩) := by decide
  have hnative : doubled.find? "a" = some (.native ⟨⟨"a", [], none⟩, false, none⟩) := by decide
  obtain ⟨hunknown, -, -, -, hadded⟩ := exchange_acts_on_found doubled "c"
  obtain ⟨-, hmismatch, hexchanged, -, -⟩ := exchange_acts_on_found doubled "b"
  obtain ⟨-, -, hreplaced, hset, -⟩ := exchange_acts_on_found doubled "a"
  refine ⟨(hunknown none hnone).1, (hmismatch _ _ hglobal (by decide)).1, ?_, ?_, ?_⟩
  · obtain ⟨result, hresult, -, hothers⟩ := hexchanged _ none hglobal nofun
    exact ⟨result, hresult, hothers⟩
  · have hkind : ∀ symbol ∈ some (Symbol.native ⟨⟨"c", [], none⟩, true, none⟩),
        symbol.kind = (Symbol.native ⟨⟨"a", [], none⟩, false, none⟩).kind := by
      rintro _ ⟨⟩
      rfl
    obtain ⟨result, hresult, -, -⟩ := hreplaced _ _ hnative hkind
    refine ⟨result, ?_⟩
    rw [(hset _ (by simp [hnative])).1, hresult]
    rfl
  · obtain ⟨result, hresult, -, -, hothers⟩ := hadded (.type ⟨"b", "handle", none⟩) hnone
    exact ⟨result, hresult, hothers .global (by decide)⟩

end Mapsmith.Script
