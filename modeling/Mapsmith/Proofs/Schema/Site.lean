import Mathlib.Logic.Relation
import Mapsmith.Schema.FieldType

/-!
# Types where they stand

A type is made of others: the inner type of a constant, the fields of a record,
the definition of a lazy field. What must hold of a schema often depends on where
a type stands, because a field sees the fields before it. A site is a type with
the names that it sees, and `Site.Everywhere` says that a property holds at a
site and at every one that is reached from it. Where records recur through lazy
fields, it is enough that the property holds inside each definition, up to the lazy
fields in it.
-/

namespace Mapsmith

/-- Induction on types, with the types of fields, items, cases and alternatives
as the smaller ones. -/
theorem FieldType.induction {P : FieldType → Prop} (int : ∀ kind order, P (.int kind order))
    (float : ∀ order, P (.float order)) (text : P .text) (id : P .id) (reversedId : P .reversedId)
    (bytes : ∀ length, P (.bytes length)) (const : ∀ inner value, P inner → P (.const inner value))
    (bool : ∀ kind order no yes, P (.bool kind order no yes))
    (enum : ∀ repr variants, P repr → P (.enum repr variants)) (flags : ∀ set, P (.flags set))
    (record : ∀ name fields, (∀ field ∈ fields, P field.2) → P (.record name fields))
    (array : ∀ length element, P element → P (.array length element))
    (greedy : ∀ element, P element → P (.greedy element))
    (sequence : ∀ types, (∀ type ∈ types, P type) → P (.sequence types))
    (switch : ∀ on cases default, (∀ case ∈ cases, P case.2) → (∀ type ∈ default, P type) →
      P (.switch on cases default))
    (conditional : ∀ condition yes no, P yes → P no → P (.conditional condition yes no))
    (select : ∀ alternatives, (∀ type ∈ alternatives, P type) → P (.select alternatives))
    (checked : ∀ relation holds inner, P inner → P (.checked relation holds inner))
    (padded : ∀ size inner, P inner → P (.padded size inner)) (packed : ∀ unit, P (.packed unit))
    (lazy : ∀ slot, P (.lazy slot)) : ∀ type, P type :=
  @FieldType.rec P (fun fields => ∀ field ∈ fields, P field.2) (fun types => ∀ type ∈ types, P type)
    (fun cases => ∀ case ∈ cases, P case.2) (fun default => ∀ type ∈ default, P type)
    (fun field => P field.2) (fun case => P case.2)
    int float text id reversedId bytes const bool enum flags record array greedy sequence
    switch conditional select checked padded packed lazy
    (fun _ h => nomatch h) (fun _ _ hhead htail => List.forall_mem_cons.mpr ⟨hhead, htail⟩)
    (fun _ h => nomatch h) (fun _ _ hhead htail => List.forall_mem_cons.mpr ⟨hhead, htail⟩)
    (fun _ h => nomatch h) (fun _ _ hhead htail => List.forall_mem_cons.mpr ⟨hhead, htail⟩)
    (fun _ h => nomatch h) (fun _ h => by simpa using h)
    (fun _ _ h => h) (fun _ _ h => h)

/-- A type where it stands. `seen` are the names of the fields before it, those
of the innermost record first. -/
structure Site where
  seen : List (List String)
  type : FieldType

namespace Site

/-- The sites one step into a type. A field of a record sees the fields before it. -/
inductive Part (definitions : Nat → FieldType) : Site → Site → Prop
  | const {seen inner value} : Part definitions ⟨seen, .const inner value⟩ ⟨seen, inner⟩
  | enum {seen repr variants} : Part definitions ⟨seen, .enum repr variants⟩ ⟨seen, repr⟩
  | field {seen name before field after} :
      Part definitions ⟨seen, .record name (before ++ field :: after)⟩
        ⟨before.map Prod.fst :: seen, field.2⟩
  | element {seen length element} : Part definitions ⟨seen, .array length element⟩ ⟨seen, element⟩
  | greedy {seen element} : Part definitions ⟨seen, .greedy element⟩ ⟨seen, element⟩
  | item {seen type types} : type ∈ types → Part definitions ⟨seen, .sequence types⟩ ⟨seen, type⟩
  | case {seen entry on cases default} : entry ∈ cases →
      Part definitions ⟨seen, .switch on cases default⟩ ⟨seen, entry.2⟩
  | default {seen type on cases default} : type ∈ default →
      Part definitions ⟨seen, .switch on cases default⟩ ⟨seen, type⟩
  | yes {seen condition yes no} : Part definitions ⟨seen, .conditional condition yes no⟩ ⟨seen, yes⟩
  | no {seen condition yes no} : Part definitions ⟨seen, .conditional condition yes no⟩ ⟨seen, no⟩
  | alternative {seen type alternatives} : type ∈ alternatives →
      Part definitions ⟨seen, .select alternatives⟩ ⟨seen, type⟩
  | checked {seen relation holds inner} :
      Part definitions ⟨seen, .checked relation holds inner⟩ ⟨seen, inner⟩
  | padded {seen size inner} : Part definitions ⟨seen, .padded size inner⟩ ⟨seen, inner⟩
  | lazy {seen slot} : Part definitions ⟨seen, .lazy slot⟩ ⟨seen, definitions slot⟩

/-- The property holds at the site and wherever steps lead from it. -/
def Everywhere (definitions : Nat → FieldType) (P : Site → Prop) (site : Site) : Prop :=
  ∀ part, Relation.ReflTransGen (Part definitions) site part → P part

variable {definitions : Nat → FieldType} {P Q : Site → Prop} {site other : Site}

theorem Everywhere.here (h : Everywhere definitions P site) : P site := h site .refl

theorem Everywhere.intro (h : P site)
    (hp : ∀ other, Part definitions site other → Everywhere definitions P other) :
    Everywhere definitions P site := by
  intro other hs
  obtain rfl | ⟨next, hpart, hrest⟩ := Relation.ReflTransGen.cases_head hs
  · exact h
  · exact hp next hpart other hrest

theorem Everywhere.part (h : Everywhere definitions P site) (hp : Part definitions site other) :
    Everywhere definitions P other :=
  fun _ hs => h _ (.head hp hs)

theorem Everywhere.field {names : List (List String)} {fields : List (String × FieldType)}
    {field : String × FieldType} (h : Everywhere definitions P ⟨names, .record name fields⟩)
    (hf : field ∈ fields) : ∃ seen, Everywhere definitions P ⟨seen, field.2⟩ := by
  obtain ⟨before, after, rfl⟩ := List.append_of_mem hf
  exact ⟨_, h.part .field⟩

theorem Everywhere.record {seen : List (List String)} {fields : List (String × FieldType)}
    (h : P ⟨seen, .record name fields⟩)
    (hf : ∀ before field after, fields = before ++ field :: after →
      Everywhere definitions P ⟨before.map Prod.fst :: seen, field.2⟩) :
    Everywhere definitions P ⟨seen, .record name fields⟩ := by
  refine .intro h fun other hpart => ?_
  generalize hsite : (⟨seen, .record name fields⟩ : Site) = site at hpart
  cases hpart <;> cases hsite
  exact hf _ _ _ rfl

theorem Everywhere.mono (h : Everywhere definitions P site) (himp : ∀ s, P s → Q s) :
    Everywhere definitions Q site :=
  fun part hs => himp part (h part hs)

-- ---------------------------------------------------------------------------
-- Up to lazy fields
-- ---------------------------------------------------------------------------

variable {seen : List (List String)}

/-- The property holds at the site and wherever steps lead from it that do not go
through a lazy field. -/
def Inside (definitions : Nat → FieldType) (P : Site → Prop) (site : Site) : Prop :=
  ∀ part, Relation.ReflTransGen (fun site other => Part definitions site other ∧
    ∀ slot, site.type ≠ .lazy slot) site part → P part

theorem Inside.intro (h : P site)
    (hp : ∀ other, Part definitions site other → (∀ slot, site.type ≠ .lazy slot) →
      Inside definitions P other) :
    Inside definitions P site := by
  intro other hs
  obtain rfl | ⟨next, ⟨hpart, hlazy⟩, hrest⟩ := Relation.ReflTransGen.cases_head hs
  · exact h
  · exact hp next hpart hlazy other hrest

theorem inside_lazy (h : P ⟨seen, .lazy slot⟩) : Inside definitions P ⟨seen, .lazy slot⟩ :=
  .intro h fun _ _ hlazy => absurd rfl (hlazy slot)

/-- What holds inside each definition, wherever it stands, holds everywhere. -/
theorem Inside.everywhere (hd : ∀ slot seen, Inside definitions P ⟨seen, definitions slot⟩)
    (h : Inside definitions P site) : Everywhere definitions P site := by
  -- A path is inside the definition that its last lazy field led to.
  have hstep (part : Site) (hs : Relation.ReflTransGen (Part definitions) site part) :
      Inside definitions P part := by
    induction hs with
    | refl => exact h
    | @tail part other _ hpart ih =>
      by_cases hlazy : ∃ slot, part.type = .lazy slot
      · obtain ⟨slot, hslot⟩ := hlazy
        cases hpart <;> cases hslot
        exact hd _ _
      · exact fun last hlast => ih last (.head ⟨hpart, not_exists.mp hlazy⟩ hlast)
  exact fun part hs => hstep part hs part .refl

/-- The property holds inside each field, which sees the names before it. -/
def InsideFields (definitions : Nat → FieldType) (P : Site → Prop) (seen : List (List String)) :
    List String → List (String × FieldType) → Prop
  | _, [] => True
  | names, (name, type) :: fields => Inside definitions P ⟨names :: seen, type⟩ ∧
      InsideFields definitions P seen (names ++ [name]) fields

theorem InsideFields.field {fields : List (String × FieldType)} {field : String × FieldType}
    {names : List String} (h : InsideFields definitions P seen names fields)
    (heq : fields = before ++ field :: after) :
    Inside definitions P ⟨(names ++ before.map Prod.fst) :: seen, field.2⟩ := by
  subst heq
  induction before generalizing names with
  | nil => simpa using h.1
  | cons first before ih => simpa using ih h.2

theorem inside_record (h : P ⟨seen, .record name fields⟩)
    (hf : InsideFields definitions P seen [] fields) :
    Inside definitions P ⟨seen, .record name fields⟩ := by
  refine .intro h fun other hpart _ => ?_
  generalize hsite : (⟨seen, .record name fields⟩ : Site) = site at hpart
  cases hpart <;> cases hsite
  exact hf.field rfl

end Site

/-- The property holds everywhere in the fields of the root record. -/
def Schema.Everywhere (P : Site → Prop) (schema : Schema) : Prop :=
  ∀ before field after, schema.fields = before ++ field :: after →
    Site.Everywhere schema.definitions P ⟨[before.map Prod.fst], field.2⟩

theorem Schema.Everywhere.field {P : Site → Prop} {schema : Schema} {field : String × FieldType}
    (h : schema.Everywhere P) (hf : field ∈ schema.fields) :
    ∃ seen, Site.Everywhere schema.definitions P ⟨seen, field.2⟩ := by
  obtain ⟨before, after, heq⟩ := List.append_of_mem hf
  exact ⟨_, h before field after heq⟩

end Mapsmith
