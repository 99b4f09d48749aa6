import Mapsmith.Proofs.Schema.Layout

/-!
# Scopes that grow

`Length.Keeps.asks`, `Scope.GrowsTo.resolve`: the decoder sees the fields before the one it
reads, the encoder all fields of the document. What is seen of a record at the one moment is
there at the next in front of the fields that come after it, so that every reference keeps its
value, and what a length asks for stays, if that of the computed lengths does.
-/

namespace Mapsmith

namespace Document

/-- The entries of the one document come first in the other. -/
def Before (document document' : Document) : Prop := document.entries <+: document'.entries

theorem Before.refl (document : Document) : document.Before document := List.prefix_rfl

theorem Before.trans {a b c : Document} (h : a.Before b) (h' : b.Before c) : a.Before c :=
  List.IsPrefix.trans h h'

theorem Before.get? {a b : Document} (h : a.Before b) (hv : a.get? name = some value) :
    b.get? name = some value := by
  obtain ⟨rest, hrest⟩ := h
  rw [Document.get?, ← hrest, List.lookup_append]
  rw [Document.get?] at hv
  simp [hv]

theorem Before.getPath? {a b : Document} (h : a.Before b) (hv : a.getPath? path = some value) :
    b.getPath? path = some value := by
  match path with
  | [] => exact hv
  | [name] => exact h.get? hv
  | name :: next :: rest =>
    simp only [Document.getPath?, Option.bind_eq_bind, Option.bind_eq_some_iff] at hv ⊢
    obtain ⟨found, hfound, hv⟩ := hv
    exact ⟨found, h.get? hfound, hv⟩

theorem insert_of_notMem {document : Document} (h : name ∉ document.names) (value : Value) :
    document.insert name value = ⟨document.entries ++ [(name, value)]⟩ := by
  obtain ⟨entries⟩ := document
  simp only [names, insert] at h ⊢
  congr 1
  induction entries with
  | nil => rfl
  | cons entry entries ih =>
    obtain ⟨n, v⟩ := entry
    simp only [List.map_cons, List.mem_cons, not_or] at h
    rw [insert.go, if_neg (Ne.symm h.1), ih h.2, List.cons_append]

theorem before_insert {document : Document} (h : name ∉ document.names) (value : Value) :
    document.Before (document.insert name value) := by
  rw [insert_of_notMem h]
  exact List.prefix_append _ _

theorem names_insert {document : Document} (h : name ∉ document.names) (value : Value) :
    (document.insert name value).names = document.names ++ [name] := by
  rw [insert_of_notMem h]
  simp [names]

theorem ofList_eq {entries : List (String × Value)} (h : (entries.map Prod.fst).Nodup) :
    ofList entries = ⟨entries⟩ := by
  have hgo (before : Document) (hb : (before.names ++ entries.map Prod.fst).Nodup) :
      entries.foldl (fun document entry => document.insert entry.1 entry.2) before =
        ⟨before.entries ++ entries⟩ := by
    clear h
    induction entries generalizing before with
    | nil =>
      cases before
      simp
    | cons entry entries ih =>
      have hn : entry.1 ∉ before.names := by
        intro hn
        exact (List.nodup_append.mp hb).2.2 _ hn _ (by simp) rfl
      rw [List.foldl_cons, ih, insert_of_notMem hn]
      · simp
      · rw [names_insert hn]
        simpa using hb
  exact hgo empty (by simpa [names, empty] using h)

end Document

namespace Scope

/-- The same records are in sight, with fields added after those that were there. -/
structure GrowsTo (scope scope' : Scope) : Prop where
  options : scope.options = scope'.options
  current : scope.current.Before scope'.current
  enclosing : List.Forall₂ Document.Before scope.enclosing scope'.enclosing

namespace GrowsTo

variable {scope scope' : Scope}

theorem refl (scope : Scope) : scope.GrowsTo scope :=
  ⟨rfl, .refl _, List.forall₂_same.mpr fun _ _ => .refl _⟩

theorem child (h : scope.GrowsTo scope') {document document' : Document}
    (hd : document.Before document') : (scope.child document).GrowsTo (scope'.child document') :=
  ⟨h.options, hd, .cons h.current h.enclosing⟩

theorem outward? (h : scope.GrowsTo scope') (ho : scope.outward? up = some document) :
    ∃ document', scope'.outward? up = some document' ∧ document.Before document' := by
  have hlevels : List.Forall₂ Document.Before (scope.current :: scope.enclosing)
      (scope'.current :: scope'.enclosing) := .cons h.current h.enclosing
  obtain ⟨hlt, rfl⟩ := List.getElem?_eq_some_iff.mp ho
  have hlt' := hlevels.length_eq ▸ hlt
  exact ⟨_, List.getElem?_eq_getElem hlt', hlevels.get hlt hlt'⟩

theorem find? (h : scope.GrowsTo scope') (hv : scope.find? reference = some value) :
    scope'.find? reference = some value := by
  simp only [Scope.find?, Option.bind_eq_bind, Option.bind_eq_some_iff] at hv ⊢
  obtain ⟨document, hd, hv⟩ := hv
  obtain ⟨document', hd', hbefore⟩ := h.outward? hd
  exact ⟨document', hd', hbefore.getPath? hv⟩

theorem resolve (h : scope.GrowsTo scope') (hv : scope.resolve reference = .ok value) :
    scope'.resolve reference = .ok value := by
  unfold Scope.resolve at hv ⊢
  split at hv
  · rename_i found hf
    rw [h.find? hf]
    exact hv
  · cases hv

end GrowsTo

end Scope

/-- What a computed length asks for stays when later fields are added. -/
def Length.Keeps : Length → Prop
  | .computed count => ∀ scope scope', scope.GrowsTo scope' →
    ∀ n, count scope = .ok n → count scope' = .ok n
  | _ => True

/-- What the functions of the type itself answer stays when later fields are added. -/
def FieldType.Keeps : FieldType → Prop
  | .bytes length | .array length _ => length.Keeps
  | .conditional condition _ _ => ∀ scope scope', scope.GrowsTo scope' →
    ∀ truth, condition scope = .ok truth → condition scope' = .ok truth
  | .checked _ holds _ => ∀ scope scope', scope.GrowsTo scope' →
    ∀ value, holds value scope = true → holds value scope' = true
  | _ => True

theorem Length.Keeps.resolve {length : Length} {scope scope' : Scope} (hl : length.Keeps)
    (h : scope.GrowsTo scope') (hn : length.resolve scope = .ok n) :
    length.resolve scope' = .ok n := by
  refine resolve_of_references (fun reference _ value hv => ?_) h.options ?_ hn
  · exact ⟨value, h.resolve hv, rfl, fun _ => rfl⟩
  · rintro count rfl
    exact hl _ _ h

theorem Length.Keeps.asks {length : Length} {scope scope' : Scope} (hl : length.Keeps)
    (h : scope.GrowsTo scope') (hn : length.Asks scope n) : length.Asks scope' n := by
  cases n with
  | none => exact hl.resolve h hn
  | some n => exact ⟨hl.resolve h hn.1, h.options ▸ hn.2⟩

end Mapsmith
