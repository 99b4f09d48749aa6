import Mapsmith.Proofs.Schema.Congruence

/-!
# Equal documents are encoded alike

`Schema.encode_iff_of_beq`: equality leaves out the names of flags and the order of fields.
Documents repeat no name, as inserting under a name that is there replaces its value. On these
equality is an equivalence all the same, and encoding does not tell equal documents apart: they
are written as the same bytes or not at all. That needs the functions of a schema, its
conditions, checks and computed lengths, to answer equal values alike; all else that the
encoder looks at does.
-/

namespace Mapsmith

/-- Scopes with equal documents in sight. -/
structure Scope.Same (scope scope' : Scope) : Prop where
  current : scope.current.Same scope'.current
  enclosing : List.Forall₂ Document.Same scope.enclosing scope'.enclosing
  options : scope.options = scope'.options

/-- The functions of the type itself give the same answers where the values in sight are equal. -/
def FieldType.AnswersAlike : FieldType → Prop
  | .bytes (.computed count) | .array (.computed count) _ =>
    ∀ scope scope', Scope.Same scope scope' →
    ∀ n, count scope = .ok n → count scope' = .ok n
  | .conditional condition _ _ => ∀ scope scope', Scope.Same scope scope' →
    ∀ truth, condition scope = .ok truth → condition scope' = .ok truth
  | .checked _ holds _ => ∀ scope scope', Scope.Same scope scope' →
    ∀ value value', value.Same value' → holds value scope = true → holds value' scope' = true
  | _ => True

/-- No name is repeated in the values that the type has, and its functions answer alike. -/
structure Site.AnswersAlike (site : Site) : Prop where
  answers : site.type.AnswersAlike
  values : site.type.ValuesWellFormed

-- ---------------------------------------------------------------------------
-- Equal documents
-- ---------------------------------------------------------------------------

theorem Document.Same.of_beq {document document' : Document} (h : document.WellFormed)
    (heq : document == document') : document.Same document' :=
  ⟨h,
    (Value.Same.of_beq h.toStruct (Value.struct_beq_iff.mpr ⟨document', rfl, heq⟩)).right.of_struct,
      heq⟩

theorem Document.Same.of_get? {document document' : Document} (h : document.WellFormed)
    (h' : document'.WellFormed)
    (hget : ∀ name, Option.Rel Value.Same (document.get? name) (document'.get? name)) :
    document.Same document' := by
  have hnames : document.names.Perm document'.names := by
    refine (List.perm_ext_iff_of_nodup h.nodup h'.nodup).mpr fun name => ?_
    have hrel := hget name
    simp only [mem_names_iff]
    generalize document.get? name = found, document'.get? name = found' at hrel
    cases hrel <;> simp
  refine ⟨h, h', beq_iff.mpr ⟨?_, fun entry he => ?_⟩⟩
  · rw [← length_names, ← length_names, hnames.length_eq]
  · obtain ⟨value, hvalue, hsame⟩ := rel_some (hget entry.1) (get?_of_mem h.nodup he)
    exact ⟨value, hvalue, hsame.beq⟩

-- ---------------------------------------------------------------------------
-- Equal scopes
-- ---------------------------------------------------------------------------

namespace Scope

variable {scope scope' : Scope}

theorem Same.outward? (h : scope.Same scope') (up : Nat) :
    Option.Rel Document.Same (scope.outward? up) (scope'.outward? up) := by
  have hall := List.Forall₂.cons h.current h.enclosing
  rw [Scope.outward?, Scope.outward?]
  by_cases hlt : up < (scope.current :: scope.enclosing).length
  · have hlt' := hall.length_eq ▸ hlt
    rw [List.getElem?_eq_getElem hlt, List.getElem?_eq_getElem hlt']
    exact .some (hall.get hlt hlt')
  · have hnone' : ¬up < (scope'.current :: scope'.enclosing).length := hall.length_eq ▸ hlt
    rw [List.getElem?_eq_none (Nat.le_of_not_lt hlt),
      List.getElem?_eq_none (Nat.le_of_not_lt hnone')]
    exact .none

theorem Same.agree (h : scope.Same scope') : scope.Agree .all scope' := by
  refine ⟨fun up document hd => ?_, fun up document hd => ?_, h.options, h.enclosing.length_eq,
    fun up document document' hd hd' name _ => ?_⟩
  · obtain ⟨_, -, hsame⟩ := rel_some (h.outward? up) hd
    exact hsame.left
  · obtain ⟨_, -, hsame⟩ := rel_some_right (h.outward? up) hd
    exact hsame.right
  · obtain ⟨_, hfound, hsame⟩ := rel_some (h.outward? up) hd
    cases hfound.symm.trans hd'
    exact Document.rel_get?_of_beq hsame.left.nodup hsame.beq name

theorem Agree.same (h : scope.Agree .all scope') : scope.Same scope' := by
  have houtward (up : Nat) : Option.Rel Document.Same (scope.outward? up) (scope'.outward? up) :=
    rel_imp (h.outward? up) fun _ _ ⟨hd, hd', hget⟩ => .of_get? hd hd' fun name => hget name trivial
  refine ⟨?_, List.forall₂_iff_get.mpr ⟨h.levels, fun i hi hi' => ?_⟩, h.options⟩
  · cases houtward 0 with
    | some hsame => exact hsame
  · have hrel := houtward (i + 1)
    rw [Scope.outward?, Scope.outward?, List.getElem?_cons_succ, List.getElem?_cons_succ,
      List.getElem?_eq_getElem hi, List.getElem?_eq_getElem hi'] at hrel
    cases hrel with
    | some hsame => exact hsame

end Scope

theorem Length.looksAt_all {length : Length} (h : ∀ count, length = .computed count →
      ∀ scope scope', Scope.Same scope scope' → ∀ n, count scope = .ok n → count scope' = .ok n) :
    length.LooksAt .all :=
  ⟨fun _ _ _ _ => trivial, fun count hcount _ _ hagree => h count hcount _ _ hagree.same⟩

theorem FieldType.AnswersAlike.looksAt {type : FieldType} (h : type.AnswersAlike) :
    type.LooksAt .all := by
  cases type with
  | bytes length | array length =>
    refine Length.looksAt_all ?_
    rintro count rfl
    exact h
  | switch on cases default => exact fun _ _ => trivial
  | conditional condition yes no => exact fun _ _ hagree => h _ _ hagree.same
  | checked relation holds inner => exact fun _ _ hagree => h _ _ hagree.same
  | _ => trivial

theorem Site.AnswersAlike.alike {site : Site} (h : site.AnswersAlike) : site.Alike :=
  ⟨h.answers.looksAt, h.values⟩

-- ---------------------------------------------------------------------------
-- Equality and encoding
-- ---------------------------------------------------------------------------

theorem Value.beq_equivalence :
    Equivalence fun a b : { value : Value // value.WellFormed } => a.val == b.val :=
  ⟨fun a => a.property.beq_self, fun {a b} h => a.property.beq_symm b.property h, beq_trans⟩

theorem Document.beq_equivalence :
    Equivalence fun a b : { document : Document // document.WellFormed } => a.val == b.val := by
  have hstruct (a b : Document) : a == b ↔ Value.struct a == .struct b := by simp
  simp only [hstruct]
  exact ⟨fun a => a.property.toStruct.beq_self,
    fun {a b} h => a.property.toStruct.beq_symm b.property.toStruct h, Value.beq_trans⟩

/-- A document is written as whatever is written for an equal one. -/
theorem Schema.encode_same {schema : Schema} (hs : schema.Everywhere Site.AnswersAlike)
    {document document' : Document} (h : document.Same document')
    (hw : schema.encode options document = .ok bytes) :
    schema.encode options document' = .ok bytes := by
  have hroot : (Scope.root document options).Same (Scope.root document' options) := ⟨h, .nil, rfl⟩
  refine (WritesAlike.fields (FieldType.writeAt_alike _ (FieldType.constantBytes_alike _) _)
    (fun field hf => ?_) hroot.agree h).result hw
  obtain ⟨seen, hfield⟩ := hs.field hf
  exact ⟨seen, hfield.mono fun _ hsite => hsite.alike⟩

/-- Equality is an equivalence on the values and documents that repeat no name, and equal
documents are written as the same bytes, if they are written. -/
theorem Schema.encode_iff_of_beq :
    (Equivalence fun a b : { value : Value // value.WellFormed } => a.val == b.val) ∧
    (Equivalence fun a b : { document : Document // document.WellFormed } => a.val == b.val) ∧
    ∀ schema : Schema, schema.Everywhere Site.AnswersAlike →
      ∀ options (document document' : Document), document.WellFormed → document == document' →
        ∀ bytes, schema.encode options document = .ok bytes ↔
          schema.encode options document' = .ok bytes := by
  refine ⟨Value.beq_equivalence, Document.beq_equivalence, ?_⟩
  intro schema hs options document document' hwell heq bytes
  have hsame := Document.Same.of_beq hwell heq
  exact ⟨encode_same hs hsame, encode_same hs hsame.symm⟩

/-- A set of flags, a number, and as many bytes as the flags stand for. -/
def sized : Schema where
  name := "Sized"
  fields :=
    [("marks", .flags ⟨.u8, .little, [("on", 1), ("seen", 2)]⟩), ("level", .float .little),
      ("content", .bytes (.computed fun scope => scope.resolveInt ⟨0, ["marks"]⟩))]

theorem sized_answersAlike : sized.Everywhere Site.AnswersAlike := by
  have hleaf {seen : List (List String)} {type : FieldType}
      (h : Site.AnswersAlike ⟨seen, type⟩)
      (hnone : ∀ other, ¬Site.Part sized.definitions ⟨seen, type⟩ other) :
      Site.Everywhere sized.definitions Site.AnswersAlike ⟨seen, type⟩ :=
    .intro h fun other hpart => absurd hpart (hnone other)
  have hcount (scope scope' : Scope) (h : scope.Same scope') (n : Int)
      (hn : scope.resolveInt ⟨0, ["marks"]⟩ = .ok n) :
      scope'.resolveInt ⟨0, ["marks"]⟩ = .ok n := by
    refine Scope.resolveInt_of_resolve (fun value hv => ?_) hn
    obtain ⟨value', hv', hsame⟩ := h.agree.resolve (fun _ _ => trivial) hv
    exact ⟨value', hv', Value.asInt?_eq_of_beq hsame.beq⟩
  intro before field after heq
  have hfield : field ∈ sized.fields := heq ▸ List.mem_append_right _ List.mem_cons_self
  simp only [sized, List.mem_cons, List.not_mem_nil, or_false] at hfield
  obtain rfl | rfl | rfl := hfield
  · exact hleaf ⟨trivial, trivial⟩ nofun
  · exact hleaf ⟨trivial, trivial⟩ nofun
  · exact hleaf ⟨hcount, trivial⟩ nofun

/-- A document whose number is none, and the same with its fields in another order and without
the names of its flags. -/
theorem encode_sized_reordered :
    let document : Document :=
      ⟨[("marks", .flags 2 ["seen"]), ("level", .float 0x7FC00001), ("content", .bytes [7, 8])]⟩
    let reordered : Document :=
      ⟨[("content", .bytes [7, 8]), ("marks", .flags 2 []), ("level", .float 0x7FC00001)]⟩
    sized.Everywhere Site.AnswersAlike ∧ document.WellFormed ∧ document == reordered ∧
      sized.encode {} reordered = .ok [2, 1, 0, 0xC0, 0x7F, 7, 8] := by
  intro document reordered
  have hwell : document.WellFormed := by
    refine ⟨by decide, ?_⟩
    simp only [document, List.forall_mem_cons]
    exact ⟨.flags _ _, .float _, .bytes _, nofun⟩
  have hiff := Schema.encode_iff_of_beq.2.2 sized sized_answersAlike {} document reordered hwell rfl
    [2, 1, 0, 0xC0, 0x7F, 7, 8]
  exact ⟨sized_answersAlike, hwell, rfl, hiff.mp rfl⟩

end Mapsmith
