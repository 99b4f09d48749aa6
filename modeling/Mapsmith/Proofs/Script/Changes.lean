import Mathlib.Data.List.TakeDrop
import Mapsmith.Script.Edit
import Mapsmith.Proofs.Script.Printable

/-!
# Changes of scripts

`printable_of_mem_scanl`: a script that can be printed can be printed after each change to it.
A renamed fragment has tokens of the same kinds, so it follows the rules that it followed
before. Any other change takes symbols out, or brings in one that a script was printed with.
-/

namespace Mapsmith.Script

-- ---------------------------------------------------------------------------
-- Names and fragments
-- ---------------------------------------------------------------------------

section

variable {old new : String}

theorem IsIdentifier.typeName {name : String} (h : IsIdentifier name) :
    Token.typeName name = .identifier name := by
  rw [Token.typeName, h.2]

theorem IsIdentifier.lexed_typeName {name : String} (h : IsIdentifier name) :
    (Token.typeName name).Lexed :=
  h.typeName ▸ h.lexed

theorem lexed_identifier_renamed (hnew : IsIdentifier new) {name : String}
    (h : (Token.identifier name).Lexed) : (Token.identifier (renamed old new name)).Lexed := by
  unfold renamed
  split
  · exact hnew.lexed
  · exact h

theorem lexed_typeName_renamed (hnew : IsIdentifier new) {name : String}
    (h : (Token.typeName name).Lexed) :
    (Token.typeName (renamed old new name)).Lexed := by
  unfold renamed
  split
  · exact hnew.lexed_typeName
  · exact h

@[simp] theorem kind_rename (token : Token) : (token.rename old new).kind = token.kind := by
  unfold Token.rename
  split
  · rename_i heq
    rw [heq]
    rfl
  · rfl

theorem map_kind_rename (fragment : Fragment) :
    (fragment.rename old new).map Token.kind = fragment.map Token.kind := by
  simp [Fragment.rename, Function.comp_def]

theorem Fragment.Follows.rename (hnew : IsIdentifier new) {fragment : Fragment}
    (h : fragment.Follows rule) :
    (fragment.rename old new).Follows rule :=
  ⟨(map_kind_rename fragment).symm ▸ h.derives,
    List.forall_mem_map.mpr fun token ht => lexed_rename hnew.lexed (h.lexed token ht)⟩

-- ---------------------------------------------------------------------------
-- The renaming of a type
-- ---------------------------------------------------------------------------

theorem Signature.WellFormed.renameType (hnew : IsIdentifier new) {s : Signature}
    (h : s.WellFormed) :
    (s.renameType old new).WellFormed := by
  refine ⟨h.id, List.forall_mem_map.mpr fun parameter hp => ?_, fun name hname => ?_⟩
  · exact ⟨lexed_typeName_renamed hnew (h.takes parameter hp).type, (h.takes parameter hp).id⟩
  · obtain ⟨before, hbefore, rfl⟩ := Option.map_eq_some_iff.mp hname
    exact lexed_typeName_renamed hnew (h.returns before hbefore)

theorem Variable.WellFormed.renameType (hnew : IsIdentifier new) {v : Variable} (h : v.WellFormed) :
    (v.renameType old new).WellFormed :=
  ⟨lexed_typeName_renamed hnew h.type, h.id, h.array, h.initial⟩

theorem Global.WellFormed.renameType (hnew : IsIdentifier new) {symbol : Global}
    (h : symbol.WellFormed) :
    (symbol.renameType old new).WellFormed :=
  ⟨Variable.WellFormed.renameType hnew h.toWellFormed, h.constant⟩

theorem Function.WellFormed.renameType (hnew : IsIdentifier new) {symbol : Function}
    (h : symbol.WellFormed) :
    (symbol.renameType old new).WellFormed :=
  ⟨h.signature.renameType hnew, List.forall_mem_map.mpr fun v hv => (h.locals v hv).renameType hnew,
    h.statements⟩

theorem TypeSymbol.WellFormed.renameParent (hnew : IsIdentifier new) {symbol : TypeSymbol}
    (h : symbol.WellFormed) :
    { symbol with parent := renamed old new symbol.parent }.WellFormed := by
  refine ⟨h.id, lexed_typeName_renamed hnew h.parent, ?_⟩
  show Rule.Parent (Token.typeName (renamed old new symbol.parent)).kind
  unfold renamed
  split
  · rw [hnew.typeName]
    exact .identifier
  · exact h.kind

theorem wellFormed_renameFirstType (hnew : IsIdentifier new) {symbols : List TypeSymbol}
    (h : ∀ symbol ∈ symbols, symbol.WellFormed) :
    ∀ symbol ∈ renameFirstType old new symbols, symbol.WellFormed := by
  induction symbols with
  | nil => exact nofun
  | cons first rest ih =>
    obtain ⟨hfirst, hrest⟩ := List.forall_mem_cons.mp h
    unfold renameFirstType
    split
    · exact List.forall_mem_cons.mpr ⟨⟨hnew.lexed, hfirst.parent, hfirst.kind⟩, hrest⟩
    · exact List.forall_mem_cons.mpr ⟨hfirst, ih hrest⟩

theorem WellFormed.renameType (hnew : IsIdentifier new) {script : Script} (h : script.WellFormed) :
    (script.renameType old new).WellFormed := by
  refine ⟨List.forall_mem_map.mpr fun symbol hs => ?_, List.forall_mem_map.mpr fun symbol hs => ?_,
    List.forall_mem_map.mpr fun symbol hs => ?_, List.forall_mem_map.mpr fun symbol hs => ?_⟩
  · exact (wellFormed_renameFirstType hnew h.types symbol hs).renameParent hnew
  · exact (h.natives symbol hs).renameType hnew
  · exact (h.globals symbol hs).renameType hnew
  · exact (h.functions symbol hs).renameType hnew

-- ---------------------------------------------------------------------------
-- The renaming of a value
-- ---------------------------------------------------------------------------

theorem Signature.WellFormed.renameId (hnew : IsIdentifier new) {s : Signature} (h : s.WellFormed) :
    (s.renameId old new).WellFormed :=
  ⟨lexed_identifier_renamed hnew h.id, h.takes, h.returns⟩

/-- The name of a variable may change with what its value refers to, or stay. -/
theorem Variable.WellFormed.renameUses (hnew : IsIdentifier new) {v : Variable} (h : v.WellFormed)
    {name : String} (hid : (Token.identifier name).Lexed) :
    { v.renameUses old new with id := name }.WellFormed := by
  refine ⟨h.type, hid, fun harray => ?_, fun fragment hf => ?_⟩
  · exact Option.map_eq_none_iff.mpr (h.array harray)
  · obtain ⟨before, hbefore, rfl⟩ := Option.map_eq_some_iff.mp hf
    exact (h.initial before hbefore).rename hnew

theorem Global.WellFormed.renameValue (hnew : IsIdentifier new) {symbol : Global}
    (h : symbol.WellFormed) :
    (symbol.renameValue old new).WellFormed :=
  ⟨Variable.WellFormed.renameUses hnew h.toWellFormed (lexed_identifier_renamed hnew h.id),
    fun hconstant hnone => h.constant hconstant (Option.map_eq_none_iff.mp hnone)⟩

theorem Function.WellFormed.renameValue (hnew : IsIdentifier new) {symbol : Function}
    (h : symbol.WellFormed) :
    (symbol.renameValue old new).WellFormed :=
  ⟨h.signature.renameId hnew,
    List.forall_mem_map.mpr fun v hv => (h.locals v hv).renameUses hnew (h.locals v hv).id,
    List.forall_mem_map.mpr fun fragment hf => (h.statements fragment hf).rename hnew⟩

theorem Function.WellFormed.renameLocal (hnew : IsIdentifier new) {symbol : Function}
    (h : symbol.WellFormed) :
    (symbol.renameLocal old new).WellFormed := by
  refine ⟨⟨h.signature.id, List.forall_mem_map.mpr fun parameter hp => ?_, h.signature.returns⟩,
    List.forall_mem_map.mpr fun v hv => ?_, List.forall_mem_map.mpr fun fragment hf => ?_⟩
  · have hparameter := h.signature.takes parameter hp
    exact ⟨hparameter.type, lexed_identifier_renamed hnew hparameter.id⟩
  · exact (h.locals v hv).renameUses hnew (lexed_identifier_renamed hnew (h.locals v hv).id)
  · exact (h.statements fragment hf).rename hnew

theorem WellFormed.renameValue (hnew : IsIdentifier new) {script : Script} (h : script.WellFormed) :
    (script.renameValue old new).WellFormed := by
  refine ⟨h.types, List.forall_mem_map.mpr fun symbol hs => ?_,
    List.forall_mem_map.mpr fun symbol hs => ?_,
    List.forall_mem_map.mpr fun symbol hs => ?_⟩
  · exact (h.natives symbol hs).renameId hnew
  · exact (h.globals symbol hs).renameValue hnew
  · exact (h.functions symbol hs).renameValue hnew

theorem WellFormed.rename (hnew : IsIdentifier new) {script : Script} (h : script.WellFormed)
    (hrename : script.rename old new = .ok result) : result.WellFormed := by
  obtain ⟨-, rfl⟩ | ⟨-, rfl⟩ := rename_ok hrename
  · exact h.renameType hnew
  · exact h.renameValue hnew

end

-- ---------------------------------------------------------------------------
-- Other symbols
-- ---------------------------------------------------------------------------

theorem forall_mem_substitute {P : α → Prop} {meant : α → Bool} {new : Option α} {items : List α}
    (h : ∀ a ∈ items, P a) (hnew : ∀ a ∈ new, P a) : ∀ a ∈ substitute meant new items, P a := by
  induction items with
  | nil => exact nofun
  | cons first rest ih =>
    obtain ⟨hfirst, hrest⟩ := List.forall_mem_cons.mp h
    unfold substitute
    split
    · exact List.forall_mem_append.mpr ⟨fun a ha => hnew a (Option.mem_toList.mp ha), hrest⟩
    · exact List.forall_mem_cons.mpr ⟨hfirst, ih hrest⟩

theorem forall_mem_concat {P : α → Prop} {items : List α} (h : ∀ a ∈ items, P a) (hnew : P new) :
    ∀ a ∈ items ++ [new], P a :=
  List.forall_mem_append.mpr ⟨h, List.forall_mem_singleton.mpr hnew⟩

theorem forall_mem_some {P : α → Prop} (h : P a) : ∀ b ∈ some a, P b := by
  rintro _ ⟨⟩
  exact h

theorem forall_mem_modify {P : α → Prop} {f : α → α} {items : List α} (h : ∀ a ∈ items, P a)
    (hf : ∀ a, P a → P (f a)) : ∀ a ∈ items.modify index f, P a := by
  intro a ha
  obtain ⟨i, hi⟩ := List.mem_iff_getElem?.mp ha
  rw [List.getElem?_modify] at hi
  obtain ⟨before, hbefore, rfl⟩ := Option.map_eq_some_iff.mp hi
  have hitem := h before (List.mem_of_getElem? hbefore)
  split
  · exact hf before hitem
  · exact hitem

section

variable {script result : Script} {id : String} {new : Symbol} (h : script.WellFormed)

include h

theorem WellFormed.add {symbol : Symbol} (hsymbol : symbol.WellFormed) :
    (script.add symbol).WellFormed := by
  cases symbol with
  | type symbol => exact ⟨forall_mem_concat h.types hsymbol, h.natives, h.globals, h.functions⟩
  | native symbol => exact ⟨h.types, forall_mem_concat h.natives hsymbol, h.globals, h.functions⟩
  | global symbol => exact ⟨h.types, h.natives, forall_mem_concat h.globals hsymbol, h.functions⟩
  | function symbol => exact ⟨h.types, h.natives, h.globals, forall_mem_concat h.functions hsymbol⟩

theorem WellFormed.without (id : String) (kind : SymbolKind) :
    (script.without id kind).WellFormed := by
  cases kind with
  | type => exact ⟨forall_mem_substitute h.types nofun, h.natives, h.globals, h.functions⟩
  | native => exact ⟨h.types, forall_mem_substitute h.natives nofun, h.globals, h.functions⟩
  | global => exact ⟨h.types, h.natives, forall_mem_substitute h.globals nofun, h.functions⟩
  | function => exact ⟨h.types, h.natives, h.globals, forall_mem_substitute h.functions nofun⟩

theorem WellFormed.withInstead (id : String) {symbol : Symbol} (hsymbol : symbol.WellFormed) :
    (script.withInstead id symbol).WellFormed := by
  cases symbol with
  | type symbol =>
    exact ⟨forall_mem_substitute h.types (forall_mem_some hsymbol), h.natives, h.globals,
      h.functions⟩
  | native symbol =>
    exact ⟨h.types, forall_mem_substitute h.natives (forall_mem_some hsymbol), h.globals,
      h.functions⟩
  | global symbol =>
    exact ⟨h.types, h.natives, forall_mem_substitute h.globals (forall_mem_some hsymbol),
      h.functions⟩
  | function symbol =>
    exact ⟨h.types, h.natives, h.globals, forall_mem_substitute h.functions
      (forall_mem_some hsymbol)⟩

theorem WellFormed.remove (hremove : script.remove id = .ok (old, result)) : result.WellFormed := by
  unfold Script.remove at hremove
  split at hremove
  · cases hremove
  · cases hremove
    exact h.without id _

theorem WellFormed.replace (hsymbol : new.WellFormed)
    (hreplace : script.replace id new = .ok (old, result)) :
    result.WellFormed := by
  unfold Script.replace at hreplace
  split at hreplace
  · cases hreplace
  · split at hreplace
    · cases hreplace
      exact h.withInstead id hsymbol
    · cases hreplace

theorem WellFormed.set (hsymbol : new.WellFormed) (hset : script.set id new = .ok (old, result)) :
    result.WellFormed := by
  unfold Script.set at hset
  split at hset
  · obtain ⟨⟨before, next⟩, hreplace, heq⟩ := map_ok.mp hset
    cases heq
    exact h.replace hsymbol hreplace
  · cases hset
    exact h.add hsymbol

end

-- ---------------------------------------------------------------------------
-- Changes
-- ---------------------------------------------------------------------------

/-- A change of a script. A renaming within a function is of the one at an index, and nothing
in the place of a symbol is its removal. -/
inductive Change where
  | rename (old new : String)
  | renameLocal (index : Nat) (old new : String)
  | add (new : Symbol)
  | replace (id : String) (new : Option Symbol)
  | set (id : String) (new : Symbol)
  | remove (id : String)

namespace Change

/-- The script with the change made, or why it was not. -/
def outcome (script : Script) : Change → Except ScriptError Script
  | .rename old new => script.rename old new
  | .renameLocal index old new =>
    .ok { script with functions := script.functions.modify index (Function.renameLocal old new) }
  | .add new => .ok (script.add new)
  | .replace id (some new) => (script.replace id new).map Prod.snd
  | .replace id none => (script.remove id).map Prod.snd
  | .set id new => (script.set id new).map Prod.snd
  | .remove id => (script.remove id).map Prod.snd

/-- The script after a change, which is as it was if the change was not made. -/
def after (script : Script) (change : Change) : Script :=
  match change.outcome script with
  | .ok result => result
  | .error _ => script

/-- A new name is read as one, and a symbol that is put in is of a script that can be
printed. -/
def Admissible : Change → Prop
  | .rename _ new | .renameLocal _ _ new => IsIdentifier new
  | .add symbol | .replace _ (some symbol) | .set _ symbol =>
    ∃ source : Script, source.Printable ∧ symbol ∈ source.symbols
  | .replace _ none | .remove _ => True

end Change

theorem wellFormed_of_mem_printable {source : Script} {symbol : Symbol} (h : source.Printable)
    (hmem : symbol ∈ source.symbols) : symbol.WellFormed :=
  wellFormed_iff.mp (printable_iff.mp h) symbol hmem

theorem Change.wellFormed_outcome {script result : Script} (h : script.WellFormed) {change : Change}
    (hadmissible : change.Admissible) (houtcome : change.outcome script = .ok result) :
    result.WellFormed := by
  cases change with
  | rename old new => exact h.rename hadmissible houtcome
  | renameLocal index old new =>
    cases houtcome
    exact ⟨h.types, h.natives, h.globals,
      forall_mem_modify h.functions fun _ hsymbol => hsymbol.renameLocal hadmissible⟩
  | add new =>
    cases houtcome
    obtain ⟨source, hsource, hmem⟩ := hadmissible
    exact h.add (wellFormed_of_mem_printable hsource hmem)
  | replace id new =>
    cases new with
    | none =>
      obtain ⟨⟨old, _⟩, hremove, rfl⟩ := map_ok.mp houtcome
      exact h.remove hremove
    | some new =>
      obtain ⟨source, hsource, hmem⟩ := hadmissible
      obtain ⟨⟨old, _⟩, hreplace, rfl⟩ := map_ok.mp houtcome
      exact h.replace (wellFormed_of_mem_printable hsource hmem) hreplace
  | set id new =>
    obtain ⟨source, hsource, hmem⟩ := hadmissible
    obtain ⟨⟨old, _⟩, hset, rfl⟩ := map_ok.mp houtcome
    exact h.set (wellFormed_of_mem_printable hsource hmem) hset
  | remove id =>
    obtain ⟨⟨old, _⟩, hremove, rfl⟩ := map_ok.mp houtcome
    exact h.remove hremove

theorem Change.printable_after {script : Script} (h : script.Printable) {change : Change}
    (hadmissible : change.Admissible) : (change.after script).Printable := by
  unfold after
  split
  · exact printable_iff.mpr (wellFormed_outcome (printable_iff.mp h) hadmissible ‹_›)
  · exact h

/-- A script that can be printed can be printed after each of any changes, made or refused. -/
theorem printable_of_mem_scanl {script : Script} (h : script.Printable) {changes : List Change}
    (hadmissible : ∀ change ∈ changes, change.Admissible) :
    ∀ next ∈ changes.scanl Change.after script, next.Printable := by
  induction changes generalizing script with
  | nil =>
    rw [List.scanl_nil, List.forall_mem_singleton]
    exact h
  | cons change rest ih =>
    obtain ⟨hchange, hrest⟩ := List.forall_mem_cons.mp hadmissible
    rw [List.scanl_cons, List.forall_mem_cons]
    exact ⟨h, ih (Change.printable_after h hchange) hrest⟩

/-- Changes of `callingScript` by symbols of `mixedScript`, each in the place of another or
beside it. The last two are refused. -/
def callingChanges : List Change := [
  .rename "f" "f_2",
  .renameLocal 0 "f_2" "h",
  .add (.type ⟨"a", "handle", some ⟨5, 1, 61⟩⟩),
  .rename "a" "b",
  .set "n" (.global ⟨⟨"a", "x", false, some [⟨.literal .null, "null"⟩], some ⟨3, 1, 41⟩⟩, false⟩),
  .replace "s" none,
  .remove "f_2",
  .remove "f",
  .replace "g" (some (.native ⟨⟨"f", [], some "a"⟩, false, some ⟨1, 1, 0⟩⟩))]

theorem printable_of_mem_scanl_calling : callingScript.Printable ∧
    (∀ change ∈ callingChanges, change.Admissible) ∧
    (∀ next ∈ callingChanges.scanl Change.after callingScript, next.Printable) ∧
    callingChanges.foldl Change.after callingScript = {
      types := [⟨"b", "handle", some ⟨5, 1, 61⟩⟩]
      natives := []
      globals := [⟨⟨"a", "x", false, some [⟨.literal .null, "null"⟩], some ⟨3, 1, 41⟩⟩, false⟩]
      functions := [⟨⟨⟨"g", [], none⟩, false, some ⟨6, 1, 85⟩⟩, [],
        [[.keyword .loop, .newline, .keyword .call, .identifier "h", .delimiter .openParen,
          .delimiter .closeParen, .newline, .keyword .endloop]]⟩] } := by
  have hcalling : ofText calling = .ok callingScript := by decide +kernel
  have hmixed : ofText mixed = .ok mixedScript := by decide +kernel
  have h := printable_of_ofText hcalling
  have hsource {symbol : Symbol} (hs : symbol ∈ mixedScript.symbols) :
      ∃ source : Script, source.Printable ∧ symbol ∈ source.symbols :=
    ⟨mixedScript, printable_of_ofText hmixed, hs⟩
  have hvalue : IsIdentifier "f_2" := by decide
  have hlocal : IsIdentifier "h" := by decide
  have htype : IsIdentifier "b" := by decide
  have hadmissible : ∀ change ∈ callingChanges, change.Admissible := by
    simp only [callingChanges, List.forall_mem_cons]
    exact ⟨hvalue, hlocal, hsource (by decide), htype, hsource (by decide), trivial, trivial,
      trivial, hsource (by decide), nofun⟩
  exact ⟨h, hadmissible, printable_of_mem_scanl h hadmissible, by decide⟩

end Mapsmith.Script
