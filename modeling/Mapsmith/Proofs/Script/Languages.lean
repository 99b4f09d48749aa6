import Mathlib.Computability.Language
import Mapsmith.Script.Token

/-!
# Languages by their first kinds

`Begins`, `Productive`: what the words of a language of kinds of tokens may begin with, and
whether there are any.
-/

namespace Mapsmith.Script

-- ---------------------------------------------------------------------------
-- Words by their first kind
-- ---------------------------------------------------------------------------

def oneOf (p : TokenKind → Prop) : Language TokenKind := {kinds | ∃ kind, p kind ∧ kinds = [kind]}

abbrev only (kind : TokenKind) : Language TokenKind := oneOf (· = kind)

def Productive (words : Language TokenKind) : Prop := ∃ kinds, kinds ∈ words

/-- Every word but the empty one begins with such a kind. -/
def Begins (words : Language TokenKind) (p : TokenKind → Prop) : Prop :=
  ∀ kind more, kind :: more ∈ words → p kind

section

variable {words other : Language TokenKind} {p q : TokenKind → Prop}

@[simp] theorem mem_oneOf : kinds ∈ oneOf p ↔ ∃ kind, p kind ∧ kinds = [kind] := Iff.rfl

@[simp] theorem cons_mem_oneOf_mul : kind :: more ∈ oneOf p * words ↔ p kind ∧ more ∈ words := by
  simp only [Language.mem_mul, mem_oneOf]
  constructor
  · rintro ⟨_, ⟨_, hp, rfl⟩, _, hmore, heq⟩
    obtain ⟨rfl, rfl⟩ := List.cons.inj heq
    exact ⟨hp, hmore⟩
  · rintro ⟨hp, hmore⟩
    exact ⟨[kind], ⟨kind, hp, rfl⟩, more, hmore, rfl⟩

theorem mem_mul_iff : kinds ∈ words * other ↔
    ∃ first second, first ∈ words ∧ second ∈ other ∧ kinds = first ++ second := by
  rw [Language.mem_mul]
  constructor
  · rintro ⟨first, hfirst, second, hsecond, rfl⟩
    exact ⟨first, second, hfirst, hsecond, rfl⟩
  · rintro ⟨first, second, hfirst, hsecond, rfl⟩
    exact ⟨first, hfirst, second, hsecond, rfl⟩

theorem mem_oneOf_mul : kinds ∈ oneOf p * words ↔
    ∃ kind more, p kind ∧ more ∈ words ∧ kinds = kind :: more := by
  cases kinds with
  | nil => simp [mem_mul_iff]
  | cons kind more => simp

theorem mem_only_mul : kinds ∈ only kind * words ↔ ∃ more, more ∈ words ∧ kinds = kind :: more := by
  simp [mem_oneOf_mul]

theorem mem_mul_only : kinds ∈ words * only kind ↔
    ∃ first, first ∈ words ∧ kinds = first ++ [kind] := by
  simp [mem_mul_iff]

@[simp] theorem nil_notMem_oneOf_mul : [] ∉ oneOf p * words := by
  simp only [Language.mem_mul, mem_oneOf]
  rintro ⟨_, ⟨_, -, rfl⟩, _, -, heq⟩
  cases heq

theorem nil_mem_mul : [] ∈ words * other ↔ [] ∈ words ∧ [] ∈ other := by
  rw [Language.mem_mul]
  constructor
  · rintro ⟨first, hfirst, second, hsecond, heq⟩
    obtain ⟨rfl, rfl⟩ := List.append_eq_nil_iff.mp heq
    exact ⟨hfirst, hsecond⟩
  · rintro ⟨hfirst, hsecond⟩
    exact ⟨[], hfirst, [], hsecond, rfl⟩

theorem append_mem (h : first ∈ words) (h' : second ∈ other) : first ++ second ∈ words * other :=
  Language.mem_mul.mpr ⟨first, h, second, h', rfl⟩

theorem cons_mem (h : more ∈ words) : kind :: more ∈ only kind * words :=
  cons_mem_oneOf_mul.mpr ⟨rfl, h⟩

theorem snoc_mem (h : kinds ∈ words) : kinds ++ [kind] ∈ words * only kind :=
  append_mem h ⟨kind, rfl, rfl⟩

@[simp] theorem productive_one : Productive 1 := ⟨[], rfl⟩

theorem productive_oneOf (h : p kind) : Productive (oneOf p) := ⟨[kind], kind, h, rfl⟩

@[simp] theorem productive_only (kind : TokenKind) : Productive (only kind) := productive_oneOf rfl

@[simp] theorem productive_mul :
    Productive (words * other) ↔ Productive words ∧ Productive other := by
  constructor
  · rintro ⟨_, hkinds⟩
    obtain ⟨first, second, hfirst, hsecond, rfl⟩ := mem_mul_iff.mp hkinds
    exact ⟨⟨first, hfirst⟩, ⟨second, hsecond⟩⟩
  · rintro ⟨⟨first, hfirst⟩, ⟨second, hsecond⟩⟩
    exact ⟨first ++ second, append_mem hfirst hsecond⟩

@[simp] theorem productive_add :
    Productive (words + other) ↔ Productive words ∨ Productive other := by
  simp only [Productive, Language.mem_add, exists_or]

theorem Begins.imp (h : Begins words p) (himp : ∀ kind, p kind → q kind) : Begins words q :=
  fun kind more hmem => himp kind (h kind more hmem)

@[simp] theorem begins_one : Begins 1 p := by
  rintro _ _ ⟨⟩

theorem begins_oneOf_mul (h : ∀ kind, p kind → q kind) : Begins (oneOf p * words) q :=
  fun kind _ hmem => h kind (cons_mem_oneOf_mul.mp hmem).1

theorem begins_oneOf (h : ∀ kind, p kind → q kind) : Begins (oneOf p) q := by
  have hmul : Begins (oneOf p * 1) q := begins_oneOf_mul h
  rwa [mul_one] at hmul

theorem begins_only_mul (h : p kind) : Begins (only kind * words) p :=
  begins_oneOf_mul fun _ heq => heq ▸ h

theorem begins_only_mul_mul (h : p kind) : Begins (only kind * words * other) p :=
  mul_assoc (only kind) words other ▸ begins_only_mul h

theorem begins_only (h : p kind) : Begins (only kind) p := begins_oneOf fun _ heq => heq ▸ h

theorem Begins.add (h : Begins words p) (h' : Begins other p) : Begins (words + other) p :=
  fun kind more hmem => hmem.elim (h kind more) (h' kind more)

theorem Begins.mul (h : Begins words p) (h' : Begins other p) : Begins (words * other) p := by
  intro kind more hmem
  obtain ⟨_ | ⟨first, rest⟩, hfirst, second, hsecond, heq⟩ := Language.mem_mul.mp hmem
  · exact h' kind more (heq ▸ hsecond)
  · obtain ⟨rfl, -⟩ := List.cons.inj heq
    exact h _ _ hfirst

theorem Begins.mul_left (h : Begins words p) (hnil : [] ∉ words) : Begins (words * other) p := by
  intro kind _ hmem
  obtain ⟨_ | ⟨first, rest⟩, hfirst, second, hsecond, heq⟩ := Language.mem_mul.mp hmem
  · exact absurd hfirst hnil
  · obtain ⟨rfl, -⟩ := List.cons.inj heq
    exact h _ _ hfirst

end

end Mapsmith.Script
