import Mapsmith.Proofs.Schema.Meaning

/-!
# Records with more constants in them

`Scope.Extends.resolve`, `Length.Tolerant.asks`: a document may leave out its constants. Where
they are put in, at any depth, all that was there stays, and what a schema asks of it is
answered as before. Only the text of a record tells how many fields the record has, so a value
that is looked up in a table must keep its text.
-/

namespace Mapsmith

/-- What may be put into records, and which names stand for keys of a table. -/
structure Supply where
  constants : String → Value → Prop
  keys : String → Prop

variable {supply : Supply}

/-- The one value is the other with constants put into the records in it. -/
inductive Value.Extends (supply : Supply) : Value → Value → Prop
  | same {value} : Extends supply value value
  | enum {name raw raw'} : Extends supply raw raw' →
      Extends supply (.enum name raw) (.enum name raw')
  | array {items items'} : items.length = items'.length →
      (∀ (i : Nat) item item', items[i]? = some item → items'[i]? = some item' →
        Extends supply item item') →
      Extends supply (.array items) (.array items')
  | struct {document document'} :
      (∀ name value, document.get? name = some value → (document'.get? name).isSome) →
      (∀ name value value', document.get? name = some value → document'.get? name = some value' →
        Extends supply value value') →
      (∀ name value value', supply.keys name → document.get? name = some value →
        document'.get? name = some value' → Length.keyText value = Length.keyText value') →
      (∀ name value, document.get? name = none → document'.get? name = some value →
        supply.constants name value) →
      Extends supply (.struct document) (.struct document')

def Document.Extends (supply : Supply) (document document' : Document) : Prop :=
  (Value.struct document).Extends supply (.struct document')

structure Scope.Extends (supply : Supply) (scope scope' : Scope) : Prop where
  current : scope.current.Extends supply scope'.current
  enclosing : List.Forall₂ (Document.Extends supply) scope.enclosing scope'.enclosing
  options : scope.options = scope'.options

-- ---------------------------------------------------------------------------
-- What is asked of a value
-- ---------------------------------------------------------------------------

namespace Value.Extends

variable {a b : Value}

theorem asInt? (h : a.Extends supply b) : a.asInt? = b.asInt? := by
  induction h with
  | enum _ ih => exact ih
  | _ => rfl

theorem asStr? (h : a.Extends supply b) : a.asStr? = b.asStr? := by
  induction h with
  | enum _ ih => exact ih
  | _ => rfl

theorem enumName? (h : a.Extends supply b) : a.enumName? = b.enumName? := by
  cases h <;> rfl

theorem matches_eq (h : a.Extends supply b) (key : Key) : key.matches a = key.matches b := by
  cases key with
  | int n => rw [Key.matches, Key.matches, h.asInt?]
  | name text => rw [Key.matches, Key.matches, h.enumName?, h.asStr?]
  | bytes content => cases h <;> rfl

theorem asStruct?_some (h : a.Extends supply b) (ha : a.asStruct? = some document) :
    ∃ document', b.asStruct? = some document' ∧ document.Extends supply document' := by
  cases a with
  | struct =>
    cases ha
    cases h with
    | same => exact ⟨document, rfl, .same⟩
    | struct hkept hvalues htexts hadded => exact ⟨_, rfl, .struct hkept hvalues htexts hadded⟩
  | _ => cases ha

end Value.Extends

namespace Document.Extends

variable {document document' : Document}

theorem get? (h : document.Extends supply document') (hv : document.get? name = some value) :
    ∃ value', document'.get? name = some value' ∧ value.Extends supply value' ∧
      (supply.keys name → Length.keyText value = Length.keyText value') := by
  cases h with
  | same => exact ⟨value, hv, .same, fun _ => rfl⟩
  | struct hkept hvalues htexts _ =>
    obtain ⟨value', hv'⟩ := Option.isSome_iff_exists.mp (hkept name value hv)
    exact ⟨value', hv', hvalues name value value' hv hv',
      fun hk => htexts name value value' hk hv hv'⟩

theorem getPath? (h : document.Extends supply document')
    (hv : document.getPath? path = some value) :
    ∃ value', document'.getPath? path = some value' ∧ value.Extends supply value' ∧
      ((∀ name ∈ path.getLast?, supply.keys name) →
        Length.keyText value = Length.keyText value') := by
  induction path generalizing document document' with
  | nil => cases hv
  | cons name rest ih =>
    cases rest with
    | nil =>
      obtain ⟨value', hv', hextends, htext⟩ := h.get? hv
      exact ⟨value', hv', hextends, fun hk => htext (hk name rfl)⟩
    | cons next rest =>
      simp only [Document.getPath?, Option.bind_eq_bind, Option.bind_eq_some_iff] at hv ⊢
      obtain ⟨held, hheld, inner, hinner, hv⟩ := hv
      obtain ⟨held', hheld', hextends, -⟩ := h.get? hheld
      obtain ⟨inner', hinner', hdocument⟩ := hextends.asStruct?_some hinner
      obtain ⟨value', hv', hvalue, htext⟩ := ih hdocument hv
      exact ⟨value', ⟨held', hheld', inner', hinner', hv'⟩, hvalue,
        fun hk => htext (by simpa using hk)⟩

end Document.Extends

-- ---------------------------------------------------------------------------
-- What is asked of a scope
-- ---------------------------------------------------------------------------

namespace Scope.Extends

variable {scope scope' : Scope}

theorem root (h : Document.Extends supply document document') (options : CodecOptions) :
    (Scope.root document options).Extends supply (Scope.root document' options) :=
  ⟨h, .nil, rfl⟩

theorem child (h : scope.Extends supply scope') (hd : Document.Extends supply document document') :
    (scope.child document).Extends supply (scope'.child document') :=
  ⟨hd, .cons h.current h.enclosing, h.options⟩

theorem outward? (h : scope.Extends supply scope') (hd : scope.outward? up = some document) :
    ∃ document', scope'.outward? up = some document' ∧ document.Extends supply document' := by
  have hall := List.Forall₂.cons h.current h.enclosing
  obtain ⟨hlt, rfl⟩ := List.getElem?_eq_some_iff.mp hd
  have hlt' := hall.length_eq ▸ hlt
  exact ⟨_, List.getElem?_eq_getElem hlt', hall.get hlt hlt'⟩

theorem resolve (h : scope.Extends supply scope') {reference : Reference}
    (hv : scope.resolve reference = .ok value) :
    ∃ value', scope'.resolve reference = .ok value' ∧ value.Extends supply value' ∧
      ((∀ name ∈ reference.path.getLast?, supply.keys name) →
        Length.keyText value = Length.keyText value') := by
  unfold Scope.resolve at hv
  split at hv
  · rename_i found hfound
    cases hv
    obtain ⟨document, hd, hpath⟩ := Option.bind_eq_some_iff.mp hfound
    obtain ⟨document', hd', hdocument⟩ := h.outward? hd
    obtain ⟨value', hpath', hvalue⟩ := hdocument.getPath? hpath
    refine ⟨value', ?_, hvalue⟩
    have hfind : scope'.find? reference = some value' :=
      Option.bind_eq_some_iff.mpr ⟨document', hd', hpath'⟩
    rw [Scope.resolve, hfind]
  · cases hv

end Scope.Extends

/-- The length is the same whether constants are there or not: the keys of tables are
known, and a function does not look at what may be put in. -/
def Length.Tolerant (supply : Supply) : Length → Prop
  | .lookup _ key => ∀ name ∈ key.path.getLast?, supply.keys name
  | .computed count => ∀ scope scope' : Scope, scope.Extends supply scope' →
    ∀ n, count scope = .ok n → count scope' = .ok n
  | _ => True

theorem Length.Tolerant.resolve {length : Length} {scope scope' : Scope}
    (hs : length.Tolerant supply)
    (h : scope.Extends supply scope') (hn : length.resolve scope = .ok n) :
    length.resolve scope' = .ok n := by
  refine resolve_of_references (fun reference _ value hv => ?_) h.options ?_ hn
  · obtain ⟨value', hv', hvalue, htext⟩ := h.resolve hv
    refine ⟨value', hv', hvalue.asInt?, ?_⟩
    rintro ⟨table, rfl⟩
    exact htext hs
  · rintro count rfl
    exact hs _ _ h

theorem Length.Tolerant.asks {length : Length} {scope scope' : Scope} (hs : length.Tolerant supply)
    (h : scope.Extends supply scope') (hn : length.Asks scope n) : length.Asks scope' n := by
  cases n with
  | none => exact hs.resolve h hn
  | some n => exact ⟨hs.resolve h hn.1, h.options ▸ hn.2⟩

end Mapsmith
