import Mathlib.Data.List.Find
import Mapsmith.Proofs.Schema.Agreement

/-!
# Values that answer alike

`Scope.Resembles.discriminant`, `Length.Heeds.asks`: a schema that refers to a field asks
little of its value: the integer that it stands for, the text of a lookup, whether it matches a
key, or what a field inside it holds. Values of different kinds may answer all of these alike,
as a truth value and an integer do. A sight lists what a schema asks of the fields of each
name, and two values resemble each other by it if they answer alike. In scopes that resemble
each other, the lengths and the switches of the schema decide alike.
-/

namespace Mapsmith

/-- A question about a value that is referred to. -/
inductive Query where
  /-- The integer that it stands for, as a count. -/
  | number
  /-- The text under which it stands in a lookup table. -/
  | text
  /-- Whether it is the discriminant of a case. -/
  | case (key : Key)

/-- The one value gives the same answer as the other. -/
def Query.Alike : Query → Value → Value → Prop
  | .number, a, b => a.asInt? = b.asInt?
  | .text, a, b => Length.keyText a = Length.keyText b
  | .case key, a, b => key.matches a = key.matches b

/-- What a schema looks at: the names on the paths of its references, and what it
asks of the fields of a name. -/
structure Sight where
  reached : String → Prop
  asked : String → Query → Prop

/-- The one value answers as the other does, and so do the fields in it that are
looked at. Nothing is said of the fields that it lacks. -/
inductive Value.Resembles (sight : Sight) : (Query → Prop) → Value → Value → Prop
  | plain {asked a b} : a.asStruct? = none → (∀ query, asked query → query.Alike a b) →
      Resembles sight asked a b
  | struct {asked document document'} :
      (∀ query, asked query → query.Alike (.struct document) (.struct document')) →
      (∀ name value, sight.reached name → document.get? name = some value →
        (document'.get? name).isSome) →
      (∀ name value value', sight.reached name → document.get? name = some value →
        document'.get? name = some value' → Resembles sight (sight.asked name) value value') →
      Resembles sight asked (.struct document) (.struct document')

/-- The fields of the names are there in the other document, if they are in the
one, and resemble those. -/
def Document.Resembles (sight : Sight) (names : String → Prop) (document document' : Document) :
    Prop :=
  ∀ name value, names name → sight.reached name → document.get? name = some value →
    ∃ value', document'.get? name = some value' ∧ value.Resembles sight (sight.asked name) value'

/-- The fields of the names resemble each other, in every record in sight. -/
structure Scope.Resembles (sight : Sight) (names : Names) (scope scope' : Scope) : Prop where
  options : scope.options = scope'.options
  fields : ∀ up document, scope.outward? up = some document → ∃ document',
    scope'.outward? up = some document' ∧ document.Resembles sight (names up) document'

-- ---------------------------------------------------------------------------
-- Values
-- ---------------------------------------------------------------------------

theorem Query.Alike.trans {query : Query} (h : query.Alike a b) (h' : query.Alike b c) :
    query.Alike a c := by
  cases query with
  | number | text | case => exact Eq.trans h h'

theorem Query.alike_of_beq (query : Query) {a b : Value} (h : a == b) : query.Alike a b := by
  cases query with
  | number => exact Value.asInt?_eq_of_beq h
  | text => exact Length.keyText_eq_of_beq h
  | case key => exact key.matches_eq_of_beq h

variable {sight : Sight}

namespace Value.Resembles

theorem alike {a b : Value} (h : a.Resembles sight asked b) (hq : asked query) :
    query.Alike a b := by
  cases h with
  | plain _ halike => exact halike query hq
  | struct halike => exact halike query hq

theorem asStruct?_some {a b : Value} (h : a.Resembles sight asked b)
    (hd : a.asStruct? = some document) :
    ∃ document', b.asStruct? = some document' ∧
      document.Resembles sight (fun _ => True) document' := by
  cases h with
  | plain hnone => cases hnone.symm.trans hd
  | @struct _ _ document' _ hthere hfields =>
    cases hd
    refine ⟨document', rfl, fun name value _ hr hv => ?_⟩
    obtain ⟨value', hv'⟩ := Option.isSome_iff_exists.mp (hthere name value hr hv)
    exact ⟨value', hv', hfields name value value' hr hv hv'⟩

theorem trans_same {a b c : Value} (h : a.Resembles sight asked b) (hs : b.Same c) :
    a.Resembles sight asked c := by
  induction h generalizing c with
  | plain hnone halike =>
    exact .plain hnone fun query hq => (halike query hq).trans (query.alike_of_beq hs.beq)
  | @struct _ document document' halike hthere _ ih =>
    obtain ⟨_, rfl, -⟩ := Value.struct_beq_iff.mp hs.beq
    obtain ⟨_, ⟨⟩, hdoc⟩ := hs.asStruct?_some rfl
    refine .struct (fun query hq => (halike query hq).trans (query.alike_of_beq hs.beq)) ?_ ?_
    · intro name value hr hv
      obtain ⟨value', hv'⟩ := Option.isSome_iff_exists.mp (hthere name value hr hv)
      obtain ⟨_, hfound, -⟩ := rel_some (hdoc.get? name) hv'
      simp [hfound]
    · intro name value found hr hv hfound
      obtain ⟨value', hv', hsame⟩ := rel_some_right (hdoc.get? name) hfound
      exact ih name value value' hr hv hv' hsame

end Value.Resembles

-- ---------------------------------------------------------------------------
-- Documents and scopes
-- ---------------------------------------------------------------------------

/-- The names on the path of the reference are looked at, and of the last one that
is asked. -/
structure Sight.Shows (sight : Sight) (reference : Reference) (asked : Query → Prop) : Prop where
  reached : ∀ name ∈ reference.path, sight.reached name
  asked : ∀ name ∈ reference.path.getLast?, ∀ query, asked query → sight.asked name query

theorem Document.Resembles.getPath? {document document' : Document} {names : String → Prop}
    {asked : Query → Prop}
    (h : document.Resembles sight names document') (hstart : ∀ name ∈ path.head?, names name)
    (hreached : ∀ name ∈ path, sight.reached name)
    (hasked : ∀ name ∈ path.getLast?, ∀ query, asked query → sight.asked name query)
    (hv : document.getPath? path = some value) :
    ∃ value', document'.getPath? path = some value' ∧ ∀ query, asked query →
      query.Alike value value' := by
  induction path generalizing document document' names with
  | nil => cases hv
  | cons name rest ih =>
    obtain ⟨hname, hrest⟩ := List.forall_mem_cons.mp hreached
    cases rest with
    | nil =>
      obtain ⟨value', hv', hres⟩ := h name value (hstart name rfl) hname hv
      exact ⟨value', hv', fun query hq => hres.alike (hasked name rfl query hq)⟩
    | cons next rest =>
      simp only [Document.getPath?, Option.bind_eq_bind, Option.bind_eq_some_iff] at hv ⊢
      obtain ⟨held, hheld, inner, hinner, hv⟩ := hv
      obtain ⟨held', hheld', hres⟩ := h name held (hstart name rfl) hname hheld
      obtain ⟨inner', hinner', hdoc⟩ := hres.asStruct?_some hinner
      obtain ⟨value', hv', halike⟩ := ih hdoc (fun _ _ => trivial) hrest
        (by simpa using hasked) hv
      exact ⟨value', ⟨held', hheld', inner', hinner', hv'⟩, halike⟩

namespace Scope.Resembles

variable {scope scope' : Scope} {names fewer : Names}

theorem mono (h : scope.Resembles sight names scope')
    (hsub : ∀ up name, fewer up name → names up name) : scope.Resembles sight fewer scope' := by
  refine ⟨h.options, fun up document hd => ?_⟩
  obtain ⟨document', hd', hdoc⟩ := h.fields up document hd
  exact ⟨document', hd', fun name value hn => hdoc name value (hsub up name hn)⟩

/-- Below scopes that resemble each other, records do so as far as they are known. -/
theorem child (h : scope.Resembles sight names scope')
    (hd : document.Resembles sight (below 0) document')
    (hbelow : ∀ up name, below (up + 1) name → names up name) :
    (scope.child document).Resembles sight below (scope'.child document') := by
  refine ⟨h.options, ?_⟩
  rintro (_ | up) other ho
  · cases ho
    exact ⟨document', rfl, hd⟩
  · obtain ⟨other', ho', hother⟩ := h.fields up other ho
    exact ⟨other', ho', fun name value hn => hother name value (hbelow up name hn)⟩

theorem root (hd : document.Resembles sight (names 0) document') (options : CodecOptions) :
    (Scope.root document options).Resembles sight names (Scope.root document' options) := by
  refine ⟨rfl, ?_⟩
  rintro (_ | up) other ⟨⟩
  exact ⟨document', rfl, hd⟩

theorem resolve (h : scope.Resembles sight names scope') {reference : Reference}
    (hstart : reference.StartsIn names) (hshows : sight.Shows reference asked)
    (hv : scope.resolve reference = .ok value) :
    ∃ value', scope'.resolve reference = .ok value' ∧ ∀ query, asked query →
      query.Alike value value' := by
  unfold Scope.resolve at hv
  split at hv
  · rename_i found hfound
    cases hv
    obtain ⟨document, hd, hpath⟩ := Option.bind_eq_some_iff.mp hfound
    obtain ⟨document', hd', hdoc⟩ := h.fields _ document hd
    obtain ⟨value', hpath', halike⟩ := hdoc.getPath? hstart hshows.reached hshows.asked hpath
    refine ⟨value', ?_, halike⟩
    have hfind : scope'.find? reference = some value' :=
      Option.bind_eq_some_iff.mpr ⟨document', hd', hpath'⟩
    rw [Scope.resolve, hfind]
  · cases hv

theorem resolveInt (h : scope.Resembles sight names scope') {reference : Reference}
    (hstart : reference.StartsIn names) (hshows : sight.Shows reference (· = .number))
    (hn : scope.resolveInt reference = .ok n) : scope'.resolveInt reference = .ok n := by
  refine Scope.resolveInt_of_resolve (fun value hv => ?_) hn
  obtain ⟨value', hv', halike⟩ := h.resolve hstart hshows hv
  exact ⟨value', hv', halike .number rfl⟩

end Scope.Resembles

-- ---------------------------------------------------------------------------
-- Types
-- ---------------------------------------------------------------------------

/-- The length asks no more than what the sight says, and a function in it gives
the same in scopes that resemble each other. -/
def Length.Heeds (sight : Sight) (names : Names) : Length → Prop
  | .field reference | .scaled reference _ => sight.Shows reference (· = .number)
  | .product first second =>
    sight.Shows first (· = .number) ∧ sight.Shows second (· = .number)
  | .lookup _ key => sight.Shows key (· = .text)
  | .computed count => ∀ scope scope' : Scope, scope.Resembles sight names scope' →
    ∀ n, count scope = .ok n → count scope' = .ok n
  | .fixed _ | .remaining => True

/-- The same for what the type itself decides. A check may ask anything of its value. -/
def FieldType.Heeds (sight : Sight) (names : Names) : FieldType → Prop
  | .bytes length | .array length _ => length.Heeds sight names
  | .switch on cases _ => sight.Shows on fun query => ∃ case ∈ cases, query = .case case.1
  | .conditional condition _ _ => ∀ scope scope' : Scope, scope.Resembles sight names scope' →
    ∀ truth, condition scope = .ok truth → condition scope' = .ok truth
  | .checked _ holds _ => ∀ scope scope' : Scope, scope.Resembles sight names scope' →
    ∀ value value', value.Same value' → holds value scope = true → holds value' scope' = true
  | _ => True

/-- What the type at the site decides is decided by what the sight says of the
fields before it. -/
def Site.Heeds (sight : Sight) (site : Site) : Prop := site.type.Heeds sight site.names

theorem Length.Heeds.resolve {length : Length} {scope scope' : Scope}
    (hh : length.Heeds sight names) (hl : length.LooksAt names)
    (h : scope.Resembles sight names scope') (hn : length.resolve scope = .ok n) :
    length.resolve scope' = .ok n := by
  cases length with
  | fixed m => exact hn
  | remaining => exact hn
  | field reference =>
    simp only [Length.resolve, bind_ok] at hn ⊢
    obtain ⟨m, hm, hn⟩ := hn
    exact ⟨m, h.resolveInt (hl.references _ (by simp [references])) hh hm, hn⟩
  | scaled reference factor =>
    simp only [Length.resolve, bind_ok] at hn ⊢
    obtain ⟨m, hm, hn⟩ := hn
    exact ⟨m, h.resolveInt (hl.references _ (by simp [references])) hh hm, hn⟩
  | product first second =>
    simp only [Length.resolve, bind_ok] at hn ⊢
    obtain ⟨a, ha, b, hb, hn⟩ := hn
    exact ⟨a, h.resolveInt (hl.references _ (by simp [references])) hh.1 ha,
      b, h.resolveInt (hl.references _ (by simp [references])) hh.2 hb, hn⟩
  | lookup table key =>
    simp only [Length.resolve, bind_ok] at hn ⊢
    obtain ⟨value, hv, hn⟩ := hn
    obtain ⟨value', hv', halike⟩ := h.resolve (hl.references _ (by simp [references])) hh hv
    have htext : keyText value = keyText value' := halike .text rfl
    exact ⟨value', hv', by simpa only [← htext, ← h.options] using hn⟩
  | computed count =>
    simp only [Length.resolve, bind_ok] at hn ⊢
    obtain ⟨m, hm, hn⟩ := hn
    exact ⟨m, hh _ _ h _ hm, hn⟩

theorem Length.Heeds.asks {length : Length} {scope scope' : Scope} (hh : length.Heeds sight names)
    (hl : length.LooksAt names) (h : scope.Resembles sight names scope')
    (hn : length.Asks scope n) : length.Asks scope' n := by
  cases n with
  | none => exact hh.resolve hl h hn
  | some n => exact ⟨hh.resolve hl h hn.1, h.options ▸ hn.2⟩

theorem Scope.Resembles.discriminant {scope scope' : Scope} {on : Reference}
    {cases : List (Key × FieldType)} {discriminant : Value} (h : scope.Resembles sight names scope')
    (hstart : on.StartsIn names)
    (hh : sight.Shows on fun query => ∃ case ∈ cases, query = .case case.1)
    (hv : scope.resolve on = .ok discriminant) :
    ∃ discriminant', scope'.resolve on = .ok discriminant' ∧
      ∀ case ∈ cases, case.1.matches discriminant = case.1.matches discriminant' := by
  obtain ⟨discriminant', hv', halike⟩ := h.resolve hstart hh hv
  exact ⟨discriminant', hv', fun case hc => halike (.case case.1) ⟨case, hc, rfl⟩⟩

theorem FieldType.pick?_congr {cases : List (Key × FieldType)} (default : Option FieldType)
    {a b : Value} (h : ∀ case ∈ cases, case.1.matches a = case.1.matches b) :
    pick? cases default a = pick? cases default b := by
  rw [pick?, pick?, List.find?_congr h]

theorem FieldType.findIdx?_congr {cases : List (Key × FieldType)} {a b : Value}
    (h : ∀ case ∈ cases, case.1.matches a = case.1.matches b) :
    (cases.findIdx? fun case => case.1.matches a) =
      cases.findIdx? fun case => case.1.matches b := by
  induction cases with
  | nil => rfl
  | cons case cases ih =>
    obtain ⟨hcase, hcases⟩ := List.forall_mem_cons.mp h
    rw [List.findIdx?_cons, List.findIdx?_cons, hcase, ih hcases]

end Mapsmith
