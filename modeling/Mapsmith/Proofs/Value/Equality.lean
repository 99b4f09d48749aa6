import Mathlib.Data.List.Forall2
import Mathlib.Data.List.Perm.Subperm
import Mapsmith.Value.Equality
import Mapsmith.Value.Text

/-!
# Equality of values is an equivalence

Equality looks names up, so it is one only where no document repeats a name.
Such values are `WellFormed`; on them `==` is reflexive, symmetric and
transitive, and two documents are equal exactly when looking up any name in both
finds equal values or nothing at all.
-/

namespace Mapsmith

-- ---------------------------------------------------------------------------
-- Induction
-- ---------------------------------------------------------------------------

/-- Induction on values, with the entries of a document and the items of an
array as the smaller ones. -/
theorem Value.induction {P : Value → Prop} (int : ∀ n, P (.int n)) (float : ∀ bits, P (.float bits))
    (bool : ∀ b, P (.bool b)) (str : ∀ text, P (.str text)) (bytes : ∀ content, P (.bytes content))
    (id : ∀ code, P (.id code)) (enum : ∀ name raw, P raw → P (.enum name raw))
    (flags : ∀ bits names, P (.flags bits names))
    (struct : ∀ doc, (∀ entry ∈ doc.entries, P entry.2) → P (.struct doc))
    (array : ∀ items, (∀ item ∈ items, P item) → P (.array items)) : ∀ value, P value :=
  @Value.rec P (fun doc => ∀ entry ∈ doc.entries, P entry.2) (fun items => ∀ item ∈ items, P item)
    (fun entries => ∀ entry ∈ entries, P entry.2) (fun entry => P entry.2)
    int float bool str bytes id enum flags struct array (fun _ h => h)
    (fun _ h => nomatch h) (fun _ _ hhead htail => List.forall_mem_cons.mpr ⟨hhead, htail⟩)
    (fun _ h => nomatch h) (fun _ _ hhead htail => List.forall_mem_cons.mpr ⟨hhead, htail⟩)
    (fun _ _ h => h)

/-- No document in the value repeats a name. -/
inductive Value.WellFormed : Value → Prop where
  | int (n) : WellFormed (.int n)
  | float (bits) : WellFormed (.float bits)
  | bool (b) : WellFormed (.bool b)
  | str (text) : WellFormed (.str text)
  | bytes (content) : WellFormed (.bytes content)
  | id (code) : WellFormed (.id code)
  | enum {name raw} : WellFormed raw → WellFormed (.enum name raw)
  | flags (bits names) : WellFormed (.flags bits names)
  | struct {doc : Document} : doc.names.Nodup → (∀ entry ∈ doc.entries, WellFormed entry.2) →
      WellFormed (.struct doc)
  | array {items : List Value} : (∀ item ∈ items, WellFormed item) → WellFormed (.array items)

/-- The document repeats no name, and neither does a document in it. -/
structure Document.WellFormed (doc : Document) : Prop where
  nodup : doc.names.Nodup
  values : ∀ entry ∈ doc.entries, entry.2.WellFormed

namespace Value.WellFormed

theorem of_enum (h : (Value.enum name raw).WellFormed) : raw.WellFormed := by
  cases h
  assumption

theorem of_struct (h : (Value.struct doc).WellFormed) : doc.WellFormed := by
  cases h with
  | struct hn hv => exact ⟨hn, hv⟩

theorem of_array (h : (Value.array items).WellFormed) : ∀ item ∈ items, item.WellFormed := by
  cases h
  assumption

end Value.WellFormed

theorem Document.WellFormed.toStruct {doc : Document} (h : doc.WellFormed) :
    (Value.struct doc).WellFormed :=
  .struct h.nodup h.values

-- ---------------------------------------------------------------------------
-- Looking names up
-- ---------------------------------------------------------------------------

namespace Document

theorem mem_of_get? {doc : Document} (h : doc.get? name = some value) :
    (name, value) ∈ doc.entries := by
  obtain ⟨entries⟩ := doc
  simp only [get?] at h
  induction entries with
  | nil => simp at h
  | cons entry rest ih =>
    rw [lookup_entry] at h
    split at h
    · rename_i hn
      cases h
      subst hn
      exact List.mem_cons_self
    · exact List.mem_cons_of_mem _ (ih h)

theorem get?_of_mem {doc : Document} (hd : doc.names.Nodup) (h : (name, value) ∈ doc.entries) :
    doc.get? name = some value := by
  obtain ⟨entries⟩ := doc
  simp only [get?, names] at hd h ⊢
  induction entries with
  | nil => simp at h
  | cons entry rest ih =>
    obtain ⟨hn, hd⟩ := List.nodup_cons.mp hd
    rw [lookup_entry]
    rcases List.mem_cons.mp h with rfl | h
    · simp
    · have hne : name ≠ entry.1 := by
        rintro rfl
        exact hn (List.mem_map.mpr ⟨_, h, rfl⟩)
      simpa [hne] using ih hd h

theorem mem_names_iff {doc : Document} : name ∈ doc.names ↔
    ∃ value, doc.get? name = some value := by
  obtain ⟨entries⟩ := doc
  simp only [get?, names]
  induction entries with
  | nil => simp
  | cons entry rest ih =>
    rw [lookup_entry, List.map_cons, List.mem_cons]
    split
    · simp [*]
    · simp [*]

theorem get?_eq_none_iff {doc : Document} : doc.get? name = none ↔ name ∉ doc.names := by
  rw [mem_names_iff, ← Option.isSome_iff_exists, Option.not_isSome_iff_eq_none]

theorem WellFormed.get? {doc : Document} (h : doc.WellFormed) (hv : doc.get? name = some value) :
    value.WellFormed := h.values _ (mem_of_get? hv)

end Document

-- ---------------------------------------------------------------------------
-- What equals a value of each kind
-- ---------------------------------------------------------------------------

namespace Value

@[simp] theorem int_beq_iff {w : Value} : (Value.int n == w) = true ↔ w = .int n := by
  cases w with
  | int m =>
    show (n == m) = true ↔ _
    rw [beq_iff_eq, eq_comm]
    simp
  | _ => exact iff_of_false nofun nofun

@[simp] theorem float_beq_iff {w : Value} : (Value.float bits == w) = true ↔ w = .float bits := by
  cases w with
  | float m =>
    show (bits == m) = true ↔ _
    rw [beq_iff_eq, eq_comm]
    simp
  | _ => exact iff_of_false nofun nofun

@[simp] theorem bool_beq_iff {w : Value} : (Value.bool b == w) = true ↔ w = .bool b := by
  cases w with
  | bool m =>
    show (b == m) = true ↔ _
    rw [beq_iff_eq, eq_comm]
    simp
  | _ => exact iff_of_false nofun nofun

@[simp] theorem str_beq_iff {w : Value} : (Value.str text == w) = true ↔ w = .str text := by
  cases w with
  | str m =>
    show (text == m) = true ↔ _
    rw [beq_iff_eq, eq_comm]
    simp
  | _ => exact iff_of_false nofun nofun

@[simp] theorem bytes_beq_iff {w : Value} :
    (Value.bytes content == w) = true ↔ w = .bytes content := by
  cases w with
  | bytes m =>
    show (content == m) = true ↔ _
    rw [beq_iff_eq, eq_comm]
    simp
  | _ => exact iff_of_false nofun nofun

@[simp] theorem id_beq_iff {w : Value} : (Value.id code == w) = true ↔ w = .id code := by
  cases w with
  | id m =>
    show (code == m) = true ↔ _
    rw [beq_iff_eq, eq_comm]
    simp
  | _ => exact iff_of_false nofun nofun

@[simp] theorem enum_beq_iff {w : Value} :
    (Value.enum name raw == w) = true ↔ ∃ raw', w = .enum name raw' ∧ raw == raw' := by
  cases w with
  | enum other raw' =>
    show (name == other && raw == raw') = true ↔ _
    rw [Bool.and_eq_true, beq_iff_eq]
    constructor
    · rintro ⟨rfl, h⟩
      exact ⟨raw', rfl, h⟩
    · rintro ⟨_, ⟨⟩, h⟩
      exact ⟨rfl, h⟩
  | _ => exact iff_of_false nofun nofun

@[simp] theorem flags_beq_iff {w : Value} :
    (Value.flags bits names == w) = true ↔ ∃ names', w = .flags bits names' := by
  cases w with
  | flags m others =>
    show (bits == m) = true ↔ _
    rw [beq_iff_eq, eq_comm]
    simp
  | _ => exact iff_of_false nofun nofun

@[simp] theorem struct_beq_iff {w : Value} :
    (Value.struct doc == w) = true ↔ ∃ doc', w = .struct doc' ∧ doc == doc' := by
  cases w with
  | struct other => exact ⟨fun h => ⟨other, rfl, h⟩, fun ⟨_, h, heq⟩ => by cases h; exact heq⟩
  | _ => exact iff_of_false nofun nofun

theorem beqItems_iff :
    beqItems items others = true ↔ List.Forall₂ (fun a b => a == b) items others := by
  induction items generalizing others with
  | nil => cases others <;> simp [beqItems]
  | cons a rest ih =>
    cases others with
    | nil => simp [beqItems]
    | cons b others =>
      rw [beqItems, Bool.and_eq_true, List.forall₂_cons, ih]
      rfl

@[simp] theorem array_beq_iff {w : Value} : (Value.array items == w) = true ↔
    ∃ items', w = .array items' ∧ List.Forall₂ (fun a b => a == b) items items' := by
  cases w with
  | array others =>
    show beqItems items others = true ↔ _
    rw [beqItems_iff]
    exact ⟨fun h => ⟨others, rfl, h⟩, fun ⟨_, h, heq⟩ => by cases h; exact heq⟩
  | _ => exact iff_of_false nofun nofun

end Value

theorem heldBy_iff : heldBy entries other = true ↔
    ∀ entry ∈ entries, ∃ value, other.get? entry.1 = some value ∧ entry.2 == value := by
  induction entries with
  | nil => simp [heldBy]
  | cons entry rest ih =>
    obtain ⟨name, a⟩ := entry
    rw [heldBy, Bool.and_eq_true, ih, List.forall_mem_cons]
    apply and_congr_left'
    cases h : other.get? name with
    | none => simp
    | some value =>
      simp only [Option.some.injEq, exists_eq_left']
      rfl

namespace Document

theorem beq_iff {a b : Document} : a == b ↔ a.size = b.size ∧
    ∀ entry ∈ a.entries, ∃ value, b.get? entry.1 = some value ∧ entry.2 == value := by
  obtain ⟨entries⟩ := a
  show (Document.beq ⟨entries⟩ b = true) ↔ _
  rw [Document.beq, Bool.and_eq_true, heldBy_iff]
  simp [size]

theorem get?_of_beq {a b : Document} (h : a == b) (hv : a.get? name = some value) :
    ∃ other, b.get? name = some other ∧ value == other :=
  (beq_iff.mp h).2 _ (mem_of_get? hv)

theorem length_names (doc : Document) : doc.names.length = doc.size := by simp [names, size]

/-- Equal documents have the same names: those of the one are among those of the
other, and there are as many. -/
theorem names_perm_of_beq {a b : Document} (ha : a.names.Nodup) (h : a == b) :
    a.names.Perm b.names := by
  obtain ⟨hsize, hheld⟩ := beq_iff.mp h
  have hsub : a.names ⊆ b.names := by
    intro n hn
    obtain ⟨value, hv⟩ := mem_names_iff.mp hn
    obtain ⟨other, ho, -⟩ := get?_of_beq h hv
    exact mem_names_iff.mpr ⟨other, ho⟩
  apply (List.subperm_of_subset ha hsub).perm_of_length_le
  simp only [length_names, hsize, Nat.le_refl]

theorem rel_get?_of_beq {a b : Document} (ha : a.names.Nodup) (h : a == b) (name : String) :
    Option.Rel (fun v w => v == w) (a.get? name) (b.get? name) := by
  cases hv : a.get? name with
  | some value =>
    obtain ⟨other, ho, heq⟩ := get?_of_beq h hv
    rw [ho]
    exact .some heq
  | none =>
    have hb : b.get? name = none := by
      rw [get?_eq_none_iff] at hv ⊢
      exact fun hn => hv ((names_perm_of_beq ha h).mem_iff.mpr hn)
    rw [hb]
    exact .none

end Document

-- ---------------------------------------------------------------------------
-- The laws
-- ---------------------------------------------------------------------------

namespace Value

theorem WellFormed.beq_self {value : Value} (h : value.WellFormed) : value == value := by
  induction value using Value.induction with
  | enum name raw ih => simpa using ih h.of_enum
  | struct doc ih =>
    refine struct_beq_iff.mpr ⟨doc, rfl, Document.beq_iff.mpr ⟨rfl, fun entry he => ?_⟩⟩
    exact ⟨entry.2, Document.get?_of_mem h.of_struct.nodup he,
      ih entry he (h.of_struct.values _ he)⟩
  | array items ih =>
    refine array_beq_iff.mpr ⟨items, rfl, List.forall₂_same.mpr fun item hi => ?_⟩
    exact ih item hi (h.of_array item hi)
  | _ => simp

theorem forall₂_symm_of_beq {items others : List Value}
    (ih : ∀ item ∈ items, ∀ {b : Value}, item.WellFormed → b.WellFormed → item == b → b == item)
    (hi : ∀ item ∈ items, item.WellFormed) (ho : ∀ item ∈ others, item.WellFormed)
    (h : List.Forall₂ (fun a b => a == b) items others) :
    List.Forall₂ (fun a b => a == b) others items := by
  induction h with
  | nil => exact .nil
  | cons hab _ hrest =>
    simp only [List.forall_mem_cons] at ih hi ho
    exact .cons (ih.1 hi.1 ho.1 hab) (hrest ih.2 hi.2 ho.2)

theorem WellFormed.beq_symm {a b : Value} (ha : a.WellFormed) (hb : b.WellFormed) (h : a == b) :
    b == a := by
  induction a using Value.induction generalizing b with
  | enum name raw ih =>
    obtain ⟨raw', rfl, hraw⟩ := enum_beq_iff.mp h
    exact enum_beq_iff.mpr ⟨raw, rfl, ih ha.of_enum hb.of_enum hraw⟩
  | flags bits names =>
    obtain ⟨names', rfl⟩ := flags_beq_iff.mp h
    exact flags_beq_iff.mpr ⟨names, rfl⟩
  | struct doc ih =>
    obtain ⟨other, rfl, hdoc⟩ := struct_beq_iff.mp h
    refine struct_beq_iff.mpr
      ⟨doc, rfl, Document.beq_iff.mpr ⟨(Document.beq_iff.mp hdoc).1.symm, ?_⟩⟩
    intro entry he
    have hrel := Document.rel_get?_of_beq ha.of_struct.nodup hdoc entry.1
    rw [Document.get?_of_mem hb.of_struct.nodup he] at hrel
    cases hv : doc.get? entry.1 with
    | none => rw [hv] at hrel; cases hrel
    | some value =>
      rw [hv] at hrel
      cases hrel with
      | some heq =>
        exact ⟨value, rfl, ih _ (Document.mem_of_get? hv) (ha.of_struct.get? hv)
          (hb.of_struct.values _ he) heq⟩
  | array items ih =>
    obtain ⟨others, rfl, hitems⟩ := array_beq_iff.mp h
    exact array_beq_iff.mpr ⟨items, rfl, forall₂_symm_of_beq ih ha.of_array hb.of_array hitems⟩
  | _ => simp_all

theorem forall₂_trans_of_beq {items items' items'' : List Value}
    (ih : ∀ item ∈ items, ∀ {b c : Value}, item == b → b == c → item == c)
    (h : List.Forall₂ (fun a b => a == b) items items')
    (h' : List.Forall₂ (fun a b => a == b) items' items'') :
    List.Forall₂ (fun a b => a == b) items items'' := by
  induction h generalizing items'' with
  | nil => exact h'
  | cons heq _ hrest =>
    cases h' with
    | cons heq' h' =>
      simp only [List.forall_mem_cons] at ih
      exact .cons (ih.1 heq heq') (hrest ih.2 h')

theorem beq_trans {a b c : Value} (hab : a == b) (hbc : b == c) : a == c := by
  induction a using Value.induction generalizing b c with
  | enum name raw ih =>
    obtain ⟨raw', rfl, hab'⟩ := enum_beq_iff.mp hab
    obtain ⟨raw'', rfl, hbc'⟩ := enum_beq_iff.mp hbc
    exact enum_beq_iff.mpr ⟨raw'', rfl, ih hab' hbc'⟩
  | flags bits names =>
    obtain ⟨names', rfl⟩ := flags_beq_iff.mp hab
    exact flags_beq_iff.mpr (flags_beq_iff.mp hbc)
  | struct doc ih =>
    obtain ⟨doc', rfl, hab'⟩ := struct_beq_iff.mp hab
    obtain ⟨doc'', rfl, hbc'⟩ := struct_beq_iff.mp hbc
    obtain ⟨hsize, hheld⟩ := Document.beq_iff.mp hab'
    refine struct_beq_iff.mpr ⟨doc'', rfl, Document.beq_iff.mpr
      ⟨hsize.trans (Document.beq_iff.mp hbc').1, fun entry he => ?_⟩⟩
    obtain ⟨value, hv, heq⟩ := hheld entry he
    obtain ⟨other, ho, heq'⟩ := Document.get?_of_beq hbc' hv
    exact ⟨other, ho, ih entry he heq heq'⟩
  | array items ih =>
    obtain ⟨items', rfl, hab'⟩ := array_beq_iff.mp hab
    obtain ⟨items'', rfl, hbc'⟩ := array_beq_iff.mp hbc
    exact array_beq_iff.mpr ⟨items'', rfl, forall₂_trans_of_beq ih hab' hbc'⟩
  | _ => simp_all

end Value

-- ---------------------------------------------------------------------------
-- What equal values stand for
-- ---------------------------------------------------------------------------

namespace Value

theorem beq_induction {P : Value → Value → Prop}
    (leaf : ∀ a, a.asStruct? = none → a.asArray? = none → P a a)
    (enum : ∀ name raw raw', raw == raw' → P raw raw' → P (.enum name raw) (.enum name raw'))
    (flags : ∀ bits names names', P (.flags bits names) (.flags bits names'))
    (struct : ∀ doc doc' : Document, doc == doc' → P (.struct doc) (.struct doc'))
    (array : ∀ items items', List.Forall₂ (fun a b => a == b) items items' →
      P (.array items) (.array items')) {a b : Value} (h : a == b) : P a b := by
  induction a using Value.induction generalizing b with
  | enum name raw ih =>
    obtain ⟨raw', rfl, hraw⟩ := enum_beq_iff.mp h
    exact enum name raw raw' hraw (ih hraw)
  | flags bits names =>
    obtain ⟨names', rfl⟩ := flags_beq_iff.mp h
    exact flags bits names names'
  | struct doc =>
    obtain ⟨doc', rfl, hdoc⟩ := struct_beq_iff.mp h
    exact struct doc doc' hdoc
  | array items =>
    obtain ⟨items', rfl, hitems⟩ := array_beq_iff.mp h
    exact array items items' hitems
  | _ =>
    simp only [int_beq_iff, float_beq_iff, bool_beq_iff, str_beq_iff, bytes_beq_iff,
      id_beq_iff] at h
    subst h
    exact leaf _ rfl rfl

/-- What is told of a value without its documents and arrays is told of its equals. -/
theorem eq_of_beq {f : Value → α}
    (enum : ∀ name raw raw', f raw = f raw' → f (.enum name raw) = f (.enum name raw'))
    (flags : ∀ bits names names', f (.flags bits names) = f (.flags bits names'))
    (struct : ∀ doc doc', f (.struct doc) = f (.struct doc'))
    (array : ∀ items items', f (.array items) = f (.array items')) {a b : Value} (h : a == b) :
    f a = f b :=
  beq_induction (P := fun a b => f a = f b) (fun _ _ _ => rfl) (fun _ _ _ _ ih => enum _ _ _ ih)
    flags (fun _ _ _ => struct _ _) (fun _ _ _ => array _ _) h

theorem asInt?_eq_of_beq {a b : Value} (h : a == b) : a.asInt? = b.asInt? :=
  eq_of_beq (f := asInt?) (fun _ _ _ h => h) (fun _ _ _ => rfl) (fun _ _ => rfl) (fun _ _ => rfl) h

theorem asStr?_eq_of_beq {a b : Value} (h : a == b) : a.asStr? = b.asStr? :=
  eq_of_beq (f := asStr?) (fun _ _ _ h => h) (fun _ _ _ => rfl) (fun _ _ => rfl) (fun _ _ => rfl) h

theorem asFloat?_eq_of_beq {a b : Value} (h : a == b) : a.asFloat? = b.asFloat? :=
  eq_of_beq (fun _ _ _ _ => rfl) (fun _ _ _ => rfl) (fun _ _ => rfl) (fun _ _ => rfl) h

theorem asId?_eq_of_beq {a b : Value} (h : a == b) : a.asId? = b.asId? :=
  eq_of_beq (fun _ _ _ _ => rfl) (fun _ _ _ => rfl) (fun _ _ => rfl) (fun _ _ => rfl) h

theorem enumName?_eq_of_beq {a b : Value} (h : a == b) : a.enumName? = b.enumName? :=
  eq_of_beq (fun _ _ _ _ => rfl) (fun _ _ _ => rfl) (fun _ _ => rfl) (fun _ _ => rfl) h

theorem toText_eq_of_beq {a b : Value} (h : a == b) : a.toText = b.toText := by
  refine beq_induction (P := fun a b => a.toText = b.toText) ?_ ?_ ?_ ?_ ?_ h
  · exact fun _ _ _ => rfl
  · intro name raw raw' _ ih
    cases name with
    | some name => rfl
    | none => rw [toText, toText, ih]
  · exact fun _ _ _ => rfl
  · intro doc doc' hdoc
    rw [toText, toText, (Document.beq_iff.mp hdoc).1]
  · intro items items' hitems
    rw [toText, toText, hitems.length_eq]

end Value

end Mapsmith
