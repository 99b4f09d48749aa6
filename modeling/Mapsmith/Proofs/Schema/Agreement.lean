import Mapsmith.Proofs.Value.Equality
import Mapsmith.Proofs.Schema.Site
import Mapsmith.Proofs.Schema.Layout

/-!
# Scopes that agree

`Length.LooksAt.asks_iff`, `FieldType.pick?_eq_of_beq`: what a field looks up is a name, in a
record so many levels outward. Two scopes agree on a set of such names if each leads to equal
values in both, or to nothing in both. A type that looks only at these names takes the same
decisions in both scopes: its lengths ask for as many items, its references lead to equal
values, and its conditions and checks, of which this is asked, answer alike.
-/

namespace Mapsmith

/-- Values of which neither can be told from the other. -/
structure Value.Same (a b : Value) : Prop where
  left : a.WellFormed
  right : b.WellFormed
  beq : a == b

namespace Value.Same

theorem refl {a : Value} (h : a.WellFormed) : a.Same a := ⟨h, h, h.beq_self⟩

theorem symm {a b : Value} (h : a.Same b) : b.Same a :=
  ⟨h.right, h.left, h.left.beq_symm h.right h.beq⟩

theorem trans {a b c : Value} (h : a.Same b) (h' : b.Same c) : a.Same c :=
  ⟨h.left, h'.right, beq_trans h.beq h'.beq⟩

theorem of_beq {a b : Value} (h : a.WellFormed) (heq : a == b) : a.Same b := by
  refine ⟨h, ?_, heq⟩
  induction a using Value.induction generalizing b with
  | enum name raw ih =>
    obtain ⟨raw', rfl, hraw⟩ := enum_beq_iff.mp heq
    exact .enum (ih h.of_enum hraw)
  | flags bits names =>
    obtain ⟨names', rfl⟩ := flags_beq_iff.mp heq
    exact .flags _ _
  | struct doc ih =>
    obtain ⟨other, rfl, hdoc⟩ := struct_beq_iff.mp heq
    have hnodup :=
      (Document.names_perm_of_beq h.of_struct.nodup hdoc).nodup_iff.mp h.of_struct.nodup
    refine .struct hnodup fun entry he => ?_
    have hrel := Document.rel_get?_of_beq h.of_struct.nodup hdoc entry.1
    rw [Document.get?_of_mem hnodup he] at hrel
    generalize hv : doc.get? entry.1 = found at hrel
    cases hrel with
    | some heq => exact ih _ (Document.mem_of_get? hv) (h.of_struct.get? hv) heq
  | array items ih =>
    obtain ⟨others, rfl, hitems⟩ := array_beq_iff.mp heq
    refine .array fun item hi => ?_
    obtain ⟨n, hn, rfl⟩ := List.getElem_of_mem hi
    have hlen := hitems.length_eq
    exact ih _ (List.getElem_mem (by omega)) (h.of_array _ (List.getElem_mem _))
      (hitems.get (by omega) hn)
  | _ => simp_all

end Value.Same

/-- Documents of which neither can be told from the other. -/
structure Document.Same (a b : Document) : Prop where
  left : a.WellFormed
  right : b.WellFormed
  beq : a == b

namespace Document.Same

theorem toStruct {a b : Document} (h : a.Same b) : (Value.struct a).Same (.struct b) :=
  ⟨h.left.toStruct, h.right.toStruct, Value.struct_beq_iff.mpr ⟨b, rfl, h.beq⟩⟩

theorem symm {a b : Document} (h : a.Same b) : b.Same a := by
  obtain ⟨_, ⟨⟩, hdoc⟩ := Value.struct_beq_iff.mp h.toStruct.symm.beq
  exact ⟨h.right, h.left, hdoc⟩

theorem get? {a b : Document} (h : a.Same b) (name : String) :
    Option.Rel Value.Same (a.get? name) (b.get? name) := by
  have hrel := rel_get?_of_beq h.left.nodup h.beq name
  generalize hv : a.get? name = found, hw : b.get? name = found' at hrel
  cases hrel with
  | none => exact .none
  | some heq => exact .some ⟨h.left.get? hv, h.right.get? hw, heq⟩

end Document.Same

theorem rel_some {r : α → β → Prop} {y : Option β} (h : Option.Rel r x y) (hx : x = some a) :
    ∃ b, y = some b ∧ r a b := by
  cases h with
  | none => cases hx
  | some hab =>
    cases hx
    exact ⟨_, rfl, hab⟩

theorem rel_some_right {r : α → β → Prop} {x : Option α} (h : Option.Rel r x y) (hy : y = some b) :
    ∃ a, x = some a ∧ r a b := by
  cases h with
  | none => cases hy
  | some hab =>
    cases hy
    exact ⟨_, rfl, hab⟩

theorem rel_imp {r r' : α → β → Prop} {x : Option α} {y : Option β} (h : Option.Rel r x y)
    (h' : ∀ a b, r a b → r' a b) : Option.Rel r' x y := by
  cases h with
  | none => exact .none
  | some hab => exact .some (h' _ _ hab)

theorem rel_bind {r : α → β → Prop} {r' : α' → β' → Prop} {x : Option α} {y : Option β}
    {f : α → Option α'} {g : β → Option β'} (h : Option.Rel r x y)
    (h' : ∀ a b, r a b → Option.Rel r' (f a) (g b)) : Option.Rel r' (x.bind f) (y.bind g) := by
  cases h with
  | none => exact .none
  | some hab => exact h' _ _ hab

namespace Value.Same

theorem asStruct? {a b : Value} (h : a.Same b) :
    Option.Rel Document.Same a.asStruct? b.asStruct? := by
  obtain ⟨ha, hb, heq⟩ := h
  refine beq_induction (P := fun a b => a.WellFormed → b.WellFormed →
    Option.Rel Document.Same a.asStruct? b.asStruct?) ?_ ?_ ?_ ?_ ?_ heq ha hb
  · intro a hs _ _ _
    rw [hs]
    exact .none
  · exact fun _ _ _ _ _ _ _ => .none
  · exact fun _ _ _ _ _ => .none
  · exact fun doc doc' hdoc hd hd' => .some ⟨hd.of_struct, hd'.of_struct, hdoc⟩
  · exact fun _ _ _ _ _ => .none

theorem asStruct?_some {a b : Value} (h : a.Same b) (hd : a.asStruct? = some document) :
    ∃ document', b.asStruct? = some document' ∧ document.Same document' :=
  rel_some h.asStruct? hd

theorem forall₂ {items items' : List Value} (h : List.Forall₂ (fun a b => a == b) items items')
    (hi : ∀ item ∈ items, item.WellFormed) (hi' : ∀ item ∈ items', item.WellFormed) :
    List.Forall₂ Value.Same items items' := by
  induction h with
  | nil => exact .nil
  | cons hab _ ih =>
    simp only [List.forall_mem_cons] at hi hi'
    exact .cons ⟨hi.1, hi'.1, hab⟩ (ih hi.2 hi'.2)

theorem array {items items' : List Value} (h : List.Forall₂ Value.Same items items') :
    (Value.array items).Same (.array items') := by
  have hmem : (∀ item ∈ items, item.WellFormed) ∧ ∀ item ∈ items', item.WellFormed := by
    induction h with
    | nil => simp
    | cons hab _ ih => simpa using ⟨⟨hab.left, ih.1⟩, hab.right, ih.2⟩
  exact ⟨.array hmem.1, .array hmem.2,
    Value.array_beq_iff.mpr ⟨items', rfl, h.imp fun _ _ hab => hab.beq⟩⟩

theorem asArray? {a b : Value} (h : a.Same b) :
    Option.Rel (List.Forall₂ Value.Same) a.asArray? b.asArray? := by
  obtain ⟨ha, hb, heq⟩ := h
  refine beq_induction (P := fun a b => a.WellFormed → b.WellFormed →
    Option.Rel (List.Forall₂ Value.Same) a.asArray? b.asArray?) ?_ ?_ ?_ ?_ ?_ heq ha hb
  · intro a _ hs _ _
    rw [hs]
    exact .none
  · exact fun _ _ _ _ _ _ _ => .none
  · exact fun _ _ _ _ _ => .none
  · exact fun _ _ _ _ _ => .none
  · exact fun items items' hitems hi hi' => .some (forall₂ hitems hi.of_array hi'.of_array)

theorem asArray?_some {a b : Value} (h : a.Same b) (hi : a.asArray? = some items) :
    ∃ items', b.asArray? = some items' ∧ List.Forall₂ Value.Same items items' :=
  rel_some h.asArray? hi

end Value.Same

/-- A set of names in records so many levels outward. -/
abbrev Names := Nat → String → Prop

namespace Scope

/-- No document in sight repeats a name. -/
def WellFormed (scope : Scope) : Prop :=
  ∀ up document, scope.outward? up = some document → document.WellFormed

/-- The names lead to equal values in both scopes, or to nothing in both. -/
structure Agree (names : Names) (scope scope' : Scope) : Prop where
  left : scope.WellFormed
  right : scope'.WellFormed
  options : scope.options = scope'.options
  levels : scope.enclosing.length = scope'.enclosing.length
  fields : ∀ up document document', scope.outward? up = some document →
    scope'.outward? up = some document' → ∀ name, names up name →
      Option.Rel (fun v w => v == w) (document.get? name) (document'.get? name)

end Scope

def Names.all : Names := fun _ _ => True

/-- The names of the fields before a site. -/
def Site.names (site : Site) : Names := fun up name => ∃ names ∈ site.seen[up]?, name ∈ names

/-- The reference starts at one of the names. -/
def Reference.StartsIn (names : Names) (reference : Reference) : Prop :=
  ∀ name ∈ reference.path.head?, names reference.up name

/-- What the length asks for depends on the names alone. -/
structure Length.LooksAt (names : Names) (length : Length) : Prop where
  references : ∀ reference ∈ length.references, reference.StartsIn names
  computed : ∀ count, length = .computed count → ∀ scope scope', scope.Agree names scope' →
    ∀ n, count scope = .ok n → count scope' = .ok n

/-- What the type itself decides depends on the names alone, apart from what the
types in it decide. -/
def FieldType.LooksAt (names : Names) : FieldType → Prop
  | .bytes length | .array length _ => length.LooksAt names
  | .switch on _ _ => on.StartsIn names
  | .conditional condition _ _ => ∀ scope scope', scope.Agree names scope' →
    ∀ truth, condition scope = .ok truth → condition scope' = .ok truth
  | .checked _ holds _ => ∀ scope scope', scope.Agree names scope' →
    ∀ value value', value.Same value' → holds value scope = true → holds value' scope' = true
  | _ => True

namespace Scope.Agree

theorem symm {scope scope' : Scope} (h : scope.Agree names scope') : scope'.Agree names scope := by
  refine ⟨h.right, h.left, h.options.symm, h.levels.symm, fun up doc doc' hd hd' name hn => ?_⟩
  have hrel := h.fields up doc' doc hd' hd name hn
  generalize hv : doc'.get? name = found, hw : doc.get? name = found' at hrel
  cases hrel with
  | none => exact .none
  | some heq =>
    exact .some (((h.left _ _ hd').get? hv).beq_symm ((h.right _ _ hd).get? hw) heq)

theorem mono {scope scope' : Scope} (h : scope.Agree names scope')
    (hsub : ∀ up name, fewer up name → names up name) : scope.Agree fewer scope' :=
  ⟨h.left, h.right, h.options, h.levels, fun up doc doc' hd hd' name hn =>
    h.fields up doc doc' hd hd' name (hsub up name hn)⟩

end Scope.Agree

theorem Reference.StartsIn.mono {reference : Reference} (h : reference.StartsIn fewer)
    (hsub : ∀ up name, fewer up name → names up name) : reference.StartsIn names :=
  fun name hn => hsub _ _ (h name hn)

theorem Length.LooksAt.mono {length : Length} (h : length.LooksAt fewer)
    (hsub : ∀ up name, fewer up name → names up name) : length.LooksAt names :=
  ⟨fun reference hr => (h.references reference hr).mono hsub,
    fun count hc _ _ ha => h.computed count hc _ _ (ha.mono hsub)⟩

theorem FieldType.LooksAt.mono {type : FieldType} (h : type.LooksAt fewer)
    (hsub : ∀ up name, fewer up name → names up name) : type.LooksAt names := by
  cases type with
  | bytes | array => exact Length.LooksAt.mono h hsub
  | switch => exact Reference.StartsIn.mono h hsub
  | conditional => exact fun _ _ ha => h _ _ (ha.mono hsub)
  | checked => exact fun _ _ ha => h _ _ (ha.mono hsub)
  | _ => trivial

-- ---------------------------------------------------------------------------
-- Looking up
-- ---------------------------------------------------------------------------

theorem Document.Same.getPath? {a b : Document} (h : a.Same b) (path : List String) :
    Option.Rel Value.Same (a.getPath? path) (b.getPath? path) := by
  induction path generalizing a b with
  | nil => exact .none
  | cons name rest ih =>
    cases rest with
    | nil => exact h.get? name
    | cons next rest =>
      exact rel_bind (h.get? name) fun _ _ hv => rel_bind hv.asStruct? fun _ _ hd => ih hd

namespace Scope

@[simp] theorem outward?_zero (scope : Scope) : scope.outward? 0 = some scope.current := rfl

@[simp] theorem outward?_child (scope : Scope) (document : Document) (up : Nat) :
    (scope.child document).outward? (up + 1) = scope.outward? up := rfl

namespace Agree

variable {scope scope' : Scope} {names : Names}

/-- The records in sight so many levels outward, if there are any. -/
theorem outward? (h : scope.Agree names scope') (up : Nat) :
    Option.Rel (fun document document' => document.WellFormed ∧ document'.WellFormed ∧
      ∀ name, names up name → Option.Rel Value.Same (document.get? name) (document'.get? name))
      (scope.outward? up) (scope'.outward? up) := by
  have hlen : (scope.current :: scope.enclosing).length =
      (scope'.current :: scope'.enclosing).length := by
    simp [h.levels]
  cases hd : scope.outward? up with
  | none =>
    have hd' : scope'.outward? up = none := by
      rw [Scope.outward?, List.getElem?_eq_none_iff] at hd ⊢
      omega
    rw [hd']
    exact .none
  | some doc =>
    obtain ⟨doc', hd'⟩ : ∃ doc', scope'.outward? up = some doc' := by
      obtain ⟨hlt, -⟩ := List.getElem?_eq_some_iff.mp hd
      exact ⟨_, List.getElem?_eq_getElem (hlen ▸ hlt)⟩
    rw [hd']
    refine .some ⟨h.left _ _ hd, h.right _ _ hd', fun name hn => ?_⟩
    have hrel := h.fields up doc doc' hd hd' name hn
    generalize hv : doc.get? name = found, hw : doc'.get? name = found' at hrel
    cases hrel with
    | none => exact .none
    | some heq => exact .some ⟨(h.left _ _ hd).get? hv, (h.right _ _ hd').get? hw, heq⟩

theorem find? (h : scope.Agree names scope') {reference : Reference}
    (hr : reference.StartsIn names) :
    Option.Rel Value.Same (scope.find? reference) (scope'.find? reference) := by
  obtain ⟨up, path⟩ := reference
  refine rel_bind (h.outward? up) fun doc doc' ⟨_, _, hfields⟩ => ?_
  match path with
  | [] => exact .none
  | [name] => exact hfields name (hr name rfl)
  | name :: next :: rest =>
    exact rel_bind (hfields name (hr name rfl)) fun _ _ hv =>
      rel_bind hv.asStruct? fun _ _ hd => hd.getPath? _

theorem resolve (h : scope.Agree names scope') {reference : Reference}
    (hr : reference.StartsIn names) (hv : scope.resolve reference = .ok value) :
    ∃ value', scope'.resolve reference = .ok value' ∧ value.Same value' := by
  have hrel := h.find? hr
  unfold Scope.resolve at hv ⊢
  split at hv
  · rename_i found hf
    cases hv
    rw [hf] at hrel
    generalize scope'.find? reference = found' at hrel
    cases hrel with
    | some hsame => exact ⟨_, rfl, hsame⟩
  · cases hv

end Agree

theorem WellFormed.child {scope : Scope} {document : Document} (h : scope.WellFormed)
    (hd : document.WellFormed) : (scope.child document).WellFormed := by
  rintro (_ | up) other ho
  · cases ho
    exact hd
  · exact h up other ho

theorem WellFormed.agree {scope : Scope} (h : scope.WellFormed) : scope.Agree .all scope := by
  refine ⟨h, h, rfl, rfl, fun up document document' hd hd' name _ => ?_⟩
  cases hd.symm.trans hd'
  cases hv : document.get? name with
  | none => exact .none
  | some value => exact .some ((h _ _ hd).get? hv).beq_self

theorem Agree.child {scope scope' : Scope} {document document' : Document}
    (h : scope.Agree .all scope') (hd : document.Same document') :
    (scope.child document).Agree .all (scope'.child document') := by
  refine ⟨h.left.child hd.left, h.right.child hd.right, h.options, ?_, ?_⟩
  · simp [Scope.child, h.levels]
  · rintro (_ | up) doc doc' ho ho' name hn
    · cases ho
      cases ho'
      exact Document.rel_get?_of_beq hd.left.nodup hd.beq name
    · exact h.fields up doc doc' ho ho' name hn

end Scope

-- ---------------------------------------------------------------------------
-- Deciding
-- ---------------------------------------------------------------------------

theorem Length.keyText_eq_of_beq {a b : Value} (h : a == b) : keyText a = keyText b := by
  rw [keyText, keyText, Value.asStr?_eq_of_beq h, Value.toText_eq_of_beq h]

theorem Length.LooksAt.resolve {length : Length} {scope scope' : Scope} (hl : length.LooksAt names)
    (h : scope.Agree names scope') (hn : length.resolve scope = .ok n) :
    length.resolve scope' = .ok n := by
  refine resolve_of_references (fun reference hr value hv => ?_) h.options ?_ hn
  · obtain ⟨value', hv', hsame⟩ := h.resolve (hl.references reference hr) hv
    exact ⟨value', hv', Value.asInt?_eq_of_beq hsame.beq, fun _ => keyText_eq_of_beq hsame.beq⟩
  · exact fun count hc => hl.computed count hc _ _ h

theorem Length.LooksAt.asks {length : Length} {scope scope' : Scope} (hl : length.LooksAt names)
    (h : scope.Agree names scope') (hn : length.Asks scope n) : length.Asks scope' n := by
  cases n with
  | none => exact hl.resolve h hn
  | some n => exact ⟨hl.resolve h hn.1, h.options ▸ hn.2⟩

theorem Length.LooksAt.asks_iff {length : Length} {scope scope' : Scope} (hl : length.LooksAt names)
    (h : scope.Agree names scope') (n : Option Nat) : length.Asks scope n ↔ length.Asks scope' n :=
  ⟨hl.asks h, hl.asks h.symm⟩

theorem Key.matches_eq_of_beq (key : Key) {a b : Value} (h : a == b) :
    key.matches a = key.matches b := by
  cases key with
  | int n => rw [Key.matches, Key.matches, Value.asInt?_eq_of_beq h]
  | name text =>
    rw [Key.matches, Key.matches, Value.enumName?_eq_of_beq h, Value.asStr?_eq_of_beq h]
  | bytes content =>
    exact Value.eq_of_beq (f := (Key.bytes content).matches) (fun _ _ _ _ => rfl) (fun _ _ _ => rfl)
      (fun _ _ => rfl) (fun _ _ => rfl) h

theorem FieldType.pick?_eq_of_beq (cases : List (Key × FieldType)) (default : Option FieldType)
    {a b : Value} (h : a == b) : pick? cases default a = pick? cases default b := by
  have hkey : (fun case : Key × FieldType => case.1.matches a) = fun case => case.1.matches b :=
    funext fun case => case.1.matches_eq_of_beq h
  rw [pick?, pick?, hkey]

end Mapsmith
