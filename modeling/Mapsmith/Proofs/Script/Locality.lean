import Mathlib.Data.List.Forall2
import Mapsmith.Script.Layout
import Mapsmith.Proofs.Script.Composition

/-!
# Renamings within a function

`Function.renameLocal_local`: between a function and its renamed copy, the new name stands for
the old one: as the id of parameters and local variables and as an identifier of fragments, and
nowhere else. To leave the function as it is, a name must not only be no parameter and no local
variable. If the function uses a global, a native or a function of that name, the use is
renamed too.
-/

namespace Mapsmith.Script

-- ---------------------------------------------------------------------------
-- Functions with a name for another
-- ---------------------------------------------------------------------------

/-- The new one stands where the old one was, and anything else is as it was. -/
def Replaced (old new before after : α) : Prop :=
  before = old ∧ after = new ∨ before ≠ old ∧ after = before

/-- Token by token, the identifiers of a name have another. -/
def Fragment.Recalled (old new : String) : Fragment → Fragment → Prop :=
  List.Forall₂ (Replaced (.identifier old) (.identifier new))

structure Parameter.Recalled (old new : String) (before after : Parameter) : Prop where
  type : after.type = before.type
  id : Replaced old new before.id after.id

structure Variable.Recalled (old new : String) (before after : Variable) : Prop where
  type : after.type = before.type
  id : Replaced old new before.id after.id
  array : after.array = before.array
  initial : Option.Rel (Fragment.Recalled old new) before.initial after.initial
  position : after.position = before.position

/-- One function is the other with a name for another, in its parameters, its local
variables and its statements. -/
structure Function.Recalled (old new : String) (before after : Function) : Prop where
  id : after.signature.id = before.signature.id
  takes : List.Forall₂ (Parameter.Recalled old new) before.signature.takes after.signature.takes
  returns : after.signature.returns = before.signature.returns
  constant : after.constant = before.constant
  position : after.position = before.position
  locals : List.Forall₂ (Variable.Recalled old new) before.locals after.locals
  statements : List.Forall₂ (Fragment.Recalled old new) before.statements after.statements

-- ---------------------------------------------------------------------------
-- The renaming is the only one
-- ---------------------------------------------------------------------------

section

variable {old new : String}

theorem replaced_renamed_iff {name after : String} :
    Replaced old new name after ↔ renamed old new name = after := by
  by_cases h : name = old <;> simp [Replaced, renamed, h, eq_comm]

theorem replaced_rename_iff {token after : Token} :
    Replaced (.identifier old) (.identifier new) token after ↔ token.rename old new = after := by
  by_cases h : token = .identifier old <;> simp [Replaced, Token.rename, h, eq_comm]

theorem forall₂_iff_map_eq {R : α → β → Prop} {f : α → β} (h : ∀ a b, R a b ↔ f a = b) :
    List.Forall₂ R before after ↔ before.map f = after := by
  obtain rfl : R = fun a b => f a = b := funext₂ fun a b => propext (h a b)
  rw [← List.forall₂_eq_eq_eq, List.forall₂_map_left_iff]

theorem rel_iff_map_eq {R : α → β → Prop} {f : α → β} (h : ∀ a b, R a b ↔ f a = b) :
    Option.Rel R before after ↔ before.map f = after := by
  cases before <;> cases after <;> simp [h]

theorem Fragment.recalled_iff (before after : Fragment) :
    before.Recalled old new after ↔ before.rename old new = after :=
  forall₂_iff_map_eq fun _ _ => replaced_rename_iff

theorem Parameter.recalled_iff (before after : Parameter) : before.Recalled old new after ↔
    { before with id := renamed old new before.id } = after := by
  constructor
  · rintro ⟨htype, hid⟩
    rw [replaced_renamed_iff] at hid
    cases after
    cases htype
    cases hid
    rfl
  · rintro rfl
    exact ⟨rfl, replaced_renamed_iff.mpr rfl⟩

theorem Variable.recalled_iff (before after : Variable) : before.Recalled old new after ↔
    { before.renameUses old new with id := renamed old new before.id } = after := by
  constructor
  · rintro ⟨htype, hid, harray, hinitial, hposition⟩
    rw [replaced_renamed_iff] at hid
    rw [rel_iff_map_eq Fragment.recalled_iff] at hinitial
    cases after
    cases htype
    cases hid
    cases harray
    cases hinitial
    cases hposition
    rfl
  · rintro rfl
    exact ⟨rfl, replaced_renamed_iff.mpr rfl, rfl,
      (rel_iff_map_eq Fragment.recalled_iff).mpr rfl, rfl⟩

theorem Function.recalled_iff {before after : Function} :
    before.Recalled old new after ↔ before.renameLocal old new = after := by
  constructor
  · rintro ⟨hid, htakes, hreturns, hconstant, hposition, hlocals, hstatements⟩
    rw [forall₂_iff_map_eq Parameter.recalled_iff] at htakes
    rw [forall₂_iff_map_eq Variable.recalled_iff] at hlocals
    rw [forall₂_iff_map_eq Fragment.recalled_iff] at hstatements
    obtain ⟨⟨⟨_, _, _⟩, _, _⟩, _, _⟩ := after
    cases hid
    cases htakes
    cases hreturns
    cases hconstant
    cases hposition
    cases hlocals
    cases hstatements
    rfl
  · rintro rfl
    exact ⟨rfl, (forall₂_iff_map_eq Parameter.recalled_iff).mpr rfl, rfl, rfl, rfl,
      (forall₂_iff_map_eq Variable.recalled_iff).mpr rfl,
      (forall₂_iff_map_eq Fragment.recalled_iff).mpr rfl⟩

-- ---------------------------------------------------------------------------
-- What a renaming leaves as it is
-- ---------------------------------------------------------------------------

theorem replaced_self_iff {old new item : α} : Replaced old new item item ↔ item = old →
    old = new := by
  constructor
  · rintro (⟨rfl, h⟩ | ⟨h, -⟩) heq
    · exact h
    · exact absurd heq h
  · intro h
    by_cases heq : item = old
    · exact .inl ⟨heq, heq.trans (h heq)⟩
    · exact .inr ⟨heq, rfl⟩

theorem rel_self_iff {R : α → α → Prop} {item : Option α} : Option.Rel R item item ↔
    ∀ a ∈ item, R a a := by
  cases item <;> simp

theorem Fragment.recalled_self_iff (hne : old ≠ new) {fragment : Fragment} :
    fragment.Recalled old new fragment ↔ .identifier old ∉ fragment := by
  have hidentifier : Token.identifier old ≠ .identifier new := fun h => hne (congrArg Token.text h)
  simp only [Fragment.Recalled, List.forall₂_same, replaced_self_iff, hidentifier, imp_false]
  exact ⟨fun h hmem => h _ hmem rfl, fun h token hmem heq => h (heq ▸ hmem)⟩

theorem Parameter.recalled_self_iff (hne : old ≠ new) {parameter : Parameter} :
    parameter.Recalled old new parameter ↔ parameter.id ≠ old := by
  constructor
  · rintro ⟨-, hid⟩ heq
    exact hne (replaced_self_iff.mp hid heq)
  · intro h
    exact ⟨rfl, replaced_self_iff.mpr fun heq => absurd heq h⟩

theorem Variable.recalled_self_iff (hne : old ≠ new) {v : Variable} : v.Recalled old new v ↔
    v.id ≠ old ∧ ∀ fragment ∈ v.initial, .identifier old ∉ fragment := by
  have hinitial : Option.Rel (Fragment.Recalled old new) v.initial v.initial ↔
      ∀ fragment ∈ v.initial, .identifier old ∉ fragment := by
    simp only [rel_self_iff, Fragment.recalled_self_iff hne]
  constructor
  · rintro ⟨-, hid, -, hvalue, -⟩
    exact ⟨fun heq => hne (replaced_self_iff.mp hid heq), hinitial.mp hvalue⟩
  · rintro ⟨hid, hvalue⟩
    exact ⟨rfl, replaced_self_iff.mpr fun heq => absurd heq hid, rfl, hinitial.mpr hvalue, rfl⟩

theorem Function.recalled_self_iff (hne : old ≠ new) {symbol : Function} :
    symbol.Recalled old new symbol ↔
      old ∉ symbol.ownNames ∧ ∀ fragment ∈ symbol.fragments, .identifier old ∉ fragment := by
  have hparts : symbol.Recalled old new symbol ↔
      List.Forall₂ (Parameter.Recalled old new) symbol.signature.takes symbol.signature.takes ∧
        List.Forall₂ (Variable.Recalled old new) symbol.locals symbol.locals ∧
        List.Forall₂ (Fragment.Recalled old new) symbol.statements symbol.statements :=
    ⟨fun h => ⟨h.takes, h.locals, h.statements⟩,
      fun ⟨htakes, hlocals, hstatements⟩ => ⟨rfl, htakes, rfl, rfl, rfl, hlocals, hstatements⟩⟩
  rw [hparts]
  simp only [List.forall₂_same, Parameter.recalled_self_iff hne, Variable.recalled_self_iff hne,
    Fragment.recalled_self_iff hne, Function.ownNames, Function.fragments, List.mem_append,
    List.mem_map, List.mem_filterMap, Option.mem_def]
  grind

end

/-- A renaming within a function makes of it what it is with the new name for the old one, and
nothing else. It leaves the function as it is only if no fragment has the old name either: that
the function has no parameter and no local variable of the name is not enough. -/
theorem Function.renameLocal_local (symbol : Function) (old new : String) :
    (∀ result, symbol.renameLocal old new = result ↔ symbol.Recalled old new result) ∧
      (symbol.renameLocal old new = symbol ↔ old = new ∨
        old ∉ symbol.ownNames ∧ ∀ fragment ∈ symbol.fragments, .identifier old ∉ fragment) := by
  refine ⟨fun result => Function.recalled_iff.symm, ?_⟩
  rw [← Function.recalled_iff]
  by_cases heq : old = new
  · exact iff_of_true (Function.recalled_iff.mpr (heq ▸ symbol.renameLocal_self old)) (.inl heq)
  · rw [Function.recalled_self_iff heq, or_iff_right heq]

/-- A function that assigns to a global, and has no parameter and no local variable. -/
def assigning : String :=
  "globals\ninteger x = 0\nendglobals\nfunction f takes nothing returns nothing\nset x = 1\nendfunction\n"

def assigningFunction : Function where
  signature := ⟨"f", [], none⟩
  constant := false
  position := some ⟨4, 1, 33⟩
  locals := []
  statements := [[.keyword .set, .identifier "x", .assign, ⟨.literal .integer, "1"⟩]]

/-- The function assigns to a variable afterwards that the script does not have. -/
theorem renameLocal_assigning : (ofText assigning).map functions = .ok [assigningFunction] ∧
    "x" ∉ assigningFunction.ownNames ∧
    assigningFunction.renameLocal "x" "y" = { assigningFunction with
      statements := [[.keyword .set, .identifier "y", .assign, ⟨.literal .integer, "1"⟩]] } ∧
    assigningFunction.renameLocal "x" "y" ≠ assigningFunction ∧
    ((ofText assigning).toOption.bind (·.renameLocal? "f" "x" "y")).map text =
      some ("globals\n    integer x = 0\nendglobals\n" ++
        "function f takes nothing returns nothing\n    set y = 1\nendfunction\n") := by
  decide +kernel

end Mapsmith.Script
