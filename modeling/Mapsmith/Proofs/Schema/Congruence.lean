import Mapsmith.Proofs.Schema.Agreement
import Mapsmith.Proofs.Schema.Breakdown
import Mapsmith.Proofs.Schema.Encoder

/-!
# Encoding does not tell equal values apart

`FieldType.writeAt_alike`: values that equal each other, in scopes whose documents do, are
written as the same bytes or not at all, if the conditions and checks of the type answer
them alike. So the encoder may write its own copy of a constant, or of the raw value of an
enumeration, in place of the one it is given.

The errors of the two runs need not be the same, but both halt if one does: a selection
goes on from any other error.
-/

namespace Mapsmith

/-- The values that the type itself has are well-formed. -/
def FieldType.ValuesWellFormed : FieldType → Prop
  | .const _ value => value.WellFormed
  | .enum _ variants => ∀ variant ∈ variants, variant.2.WellFormed
  | _ => True

/-- What the type at the site decides is the same for equal values. -/
structure Site.Alike (site : Site) : Prop where
  looks : site.type.LooksAt .all
  values : site.type.ValuesWellFormed

-- ---------------------------------------------------------------------------
-- Runs that end alike
-- ---------------------------------------------------------------------------

/-- Both runs have a result, the second one related to the first, or both halt, or both
fail otherwise. -/
inductive EndsAlike (r : α → β → Prop) : Except CodecError α → Except CodecError β → Prop
  | ok {a b} : r a b → EndsAlike r (.ok a) (.ok b)
  | halted : EndsAlike r (.error .halted) (.error .halted)
  | failed {error error' : CodecError} : error ≠ .halted → error' ≠ .halted →
      EndsAlike r (.error error) (.error error')

namespace EndsAlike

theorem refl (x : Except CodecError α) : EndsAlike Eq x x := by
  cases x with
  | ok a => exact .ok rfl
  | error error =>
    by_cases h : error = .halted
    · exact h ▸ .halted
    · exact .failed h h

theorem same {error : CodecError} (h : error ≠ .halted) :
    EndsAlike r (.error error) (.error error) :=
  .failed h h

theorem symm {x y : Except CodecError α} (h : EndsAlike Eq x y) : EndsAlike Eq y x := by
  cases h with
  | ok heq => exact .ok heq.symm
  | halted => exact .halted
  | failed h h' => exact .failed h' h

theorem result {x y : Except CodecError α} (h : EndsAlike Eq x y) (hx : x = .ok a) : y = .ok a := by
  subst hx
  cases h with
  | ok heq => exact heq ▸ rfl

theorem bind {x : Except CodecError α} {y : Except CodecError β} {f : α → Except CodecError α'}
    {g : β → Except CodecError β'} (h : EndsAlike r x y)
    (h' : ∀ a b, r a b → EndsAlike r' (f a) (g b)) :
    EndsAlike r' (x >>= f) (y >>= g) := by
  cases h with
  | ok hab => exact h' _ _ hab
  | halted => exact .halted
  | failed h h' => exact .failed h h'

theorem bind_same {x y : Except CodecError α} (h : EndsAlike Eq x y) (f : α → Except CodecError β) :
    EndsAlike Eq (x >>= f) (y >>= f) :=
  h.bind fun _ _ heq => heq ▸ .refl _

theorem mapM {f : α → Except CodecError γ} {g : β → Except CodecError γ} {items : List α}
    {items' : List β} (h : List.Forall₂ (fun a b => EndsAlike Eq (f a) (g b)) items items') :
    EndsAlike Eq (items.mapM f) (items'.mapM g) := by
  induction h with
  | nil => exact .ok rfl
  | cons hitem _ ih =>
    rw [List.mapM_cons, List.mapM_cons]
    refine hitem.bind ?_
    rintro first _ rfl
    exact ih.bind_same _

theorem of_results {x : Except CodecError α} {y : Except CodecError β} (hx : Avoids .halt x)
    (hy : Avoids .halt y)
    (h : ∀ a, x = .ok a → ∃ b, y = .ok b ∧ r a b) (h' : ∀ b, y = .ok b → ∃ a, x = .ok a) :
    EndsAlike r x y := by
  cases x with
  | ok a =>
    obtain ⟨b, rfl, hab⟩ := h a rfl
    exact .ok hab
  | error error =>
    cases y with
    | ok b => exact absurd (h' b rfl) nofun
    | error error' =>
      exact .failed (fun heq => hx error (by simp [heq]) rfl)
        (fun heq => hy error' (by simp [heq]) rfl)

end EndsAlike

theorem answered_alike {x : Except Refusal α} {y : Except Refusal β}
    (h : ∀ a, x = .ok a → ∃ b, y = .ok b ∧ r a b)
    (h' : ∀ b, y = .ok b → ∃ a, x = .ok a) : EndsAlike r (answered x) (answered y) := by
  refine .of_results (avoids_halt_answered x) (avoids_halt_answered y) ?_ ?_
  · simpa using h
  · simpa using h'

/-- A writer that takes equal values to the same bytes. -/
def WritesAlike (definitions : Nat → FieldType) (write : Writer) : Prop :=
  ∀ seen type, Site.Everywhere definitions Site.Alike ⟨seen, type⟩ →
    ∀ path value value' scope scope', value.Same value' → scope.Agree .all scope' →
      EndsAlike Eq (write path type value scope) (write path type value' scope')

/-- Equal constants can be shown alike. -/
def ShowsAlike (definitions : Nat → FieldType)
    (constantBytes : FieldType → Value → Option Bytes) : Prop :=
  ∀ seen type, Site.Everywhere definitions Site.Alike ⟨seen, type⟩ →
    ∀ value value', value.Same value' →
    (constantBytes type value = none ↔ constantBytes type value' = none)

open Codec

-- ---------------------------------------------------------------------------
-- Parts
-- ---------------------------------------------------------------------------

theorem expect_alike {found : Option α} {found' : Option β} (h : Option.Rel r found found') :
    EndsAlike r (expect path expected value found) (expect path expected value' found') := by
  cases h with
  | some hab => exact .ok hab
  | none => exact .failed nofun nofun

theorem expect_same {found : Option α} :
    EndsAlike Eq (expect path expected value found) (expect path expected value' found) := by
  cases found with
  | some a => exact .ok rfl
  | none => exact .failed nofun nofun

theorem otherConstant_alike {expected actual actual' : Option Bytes}
    (h : actual = none ↔ actual' = none) :
    EndsAlike r (throw (otherConstant field expected actual))
      (throw (otherConstant field expected actual')) := by
  cases expected with
  | none => exact .halted
  | some shown =>
    cases actual with
    | none =>
      cases h.mp rfl
      exact .halted
    | some bytes =>
      cases actual' with
      | none => exact absurd (h.mpr rfl) nofun
      | some bytes' => exact .failed nofun nofun

theorem checkCount_alike {length : Length} {scope scope' : Scope}
    (h : ∀ n, length.Asks scope n ↔ length.Asks scope' n) :
    EndsAlike Eq (checkCount path length scope held unit)
      (checkCount path length scope' held unit) := by
  have hcount (scope : Scope) : Avoids .halt (length.count path scope) :=
    avoids_count path scope fun _ _ => avoids_halt_answered _
  refine EndsAlike.bind (r := Eq) (.of_results (hcount _) (hcount _) ?_ ?_) ?_
  · exact fun n hn => ⟨n, Length.count_ok.mpr ((h n).mp (Length.count_ok.mp hn)), rfl⟩
  · exact fun n hn => ⟨n, Length.count_ok.mpr ((h n).mpr (Length.count_ok.mp hn))⟩
  · rintro n _ rfl
    exact .refl _

theorem writeItems_alike {write write' : FieldPath → Value → Except CodecError Bytes}
    (h : List.Forall₂ (fun item item' => ∀ path,
      EndsAlike Eq (write path item) (write' path item')) items items') :
    EndsAlike Eq (writeItems path write items) (writeItems path write' items') := by
  have hpaired (index : Nat) : List.Forall₂ (fun item item' => EndsAlike Eq
      (write (path.push (.index item.2)) item.1) (write' (path.push (.index item'.2)) item'.1))
      (items.zipIdx index) (items'.zipIdx index) := by
    induction h generalizing index with
    | nil => exact .nil
    | cons hitem _ ih => exact .cons (hitem _) (ih (index + 1))
  exact (EndsAlike.mapM (hpaired 0)).bind_same _

theorem Value.Same.wordOf? {value value' : Value} (h : value.Same value') :
    wordOf? value = wordOf? value' := by
  refine Value.beq_induction (P :=
    fun a b => Codec.wordOf? a = Codec.wordOf? b) ?_ ?_ ?_ ?_ ?_ h.beq
  · exact fun _ _ _ => rfl
  · intro name raw raw' hraw _
    show Option.map _ (Option.filter _ raw.asInt?) = Option.map _ (Option.filter _ raw'.asInt?)
    rw [Value.asInt?_eq_of_beq hraw]
  all_goals exact fun _ _ => fun _ => rfl

theorem Value.Same.contentOf? {value value' : Value} (h : value.Same value') :
    contentOf? value = contentOf? value' :=
  Value.eq_of_beq (f := Codec.contentOf?) (fun _ _ _ _ => rfl) (fun _ _ _ => rfl) (fun _ _ => rfl)
    (fun _ _ => rfl) h.beq

theorem packedWord_alike {value value' : Value} (h : value.Same value') :
    EndsAlike Eq (packedWord path field value) (packedWord path field value') := by
  refine .of_results (avoids_packedWord _ _ _) (avoids_packedWord _ _ _) ?_ ?_
  · exact fun word hw => ⟨word, packedWord_ok.mpr (h.wordOf? ▸ packedWord_ok.mp hw), rfl⟩
  · exact fun word hw => ⟨word, packedWord_ok.mpr (h.wordOf? ▸ packedWord_ok.mp hw)⟩

theorem writePacked_alike (h : value.Same value') :
    EndsAlike Eq (writePacked path unit value) (writePacked path unit value') := by
  refine (EndsAlike.refl unit.check).bind fun _ _ _ =>
    (expect_alike h.asStruct?).bind fun document document' hd => ?_
  refine (EndsAlike.mapM (List.forall₂_same.mpr fun field _ => ?_)).bind_same _
  have hrel := hd.get? field.name
  generalize document.get? field.name = found, document'.get? field.name = found' at hrel
  cases hrel with
  | none => exact .same nofun
  | some hsame => exact packedWord_alike hsame

section

variable {definitions : Nat → FieldType} {write : Writer} {scope scope' : Scope}

theorem WritesAlike.missing (h : WritesAlike definitions write)
    (hs : Site.Everywhere definitions Site.Alike ⟨seen, type⟩) (ha : scope.Agree .all scope') :
    EndsAlike Eq (writeMissing write path scope type) (writeMissing write path scope' type) := by
  unfold writeMissing
  split
  · exact h _ _ (hs.part .const) _ _ _ _ _ (.refl hs.here.values) ha
  · have hs := hs.part .padded
    exact (h _ _ (hs.part .const) _ _ _ _ _ (.refl hs.here.values) ha).bind_same _
  · exact .refl _

theorem WritesAlike.fields {fields : List (String × FieldType)} (h : WritesAlike definitions write)
    (hs : ∀ field ∈ fields, ∃ seen, Site.Everywhere definitions Site.Alike ⟨seen, field.2⟩)
    (ha : scope.Agree .all scope') (hd : scope.current.Same scope'.current) :
    EndsAlike Eq (writeFields write path scope fields) (writeFields write path scope' fields) := by
  have hnames : scope.current.names.Perm scope'.current.names :=
    Document.names_perm_of_beq hd.left.nodup hd.beq
  have hknown :
      (scope.current.names.find? fun name => !fields.any fun field => field.1 == name) = none ↔
      (scope'.current.names.find? fun name => !fields.any fun field => field.1 == name) = none := by
    simp only [List.find?_eq_none]
    exact ⟨fun h name hn => h name (hnames.mem_iff.mpr hn),
      fun h name hn => h name (hnames.mem_iff.mp hn)⟩
  rw [writeFields, writeFields]
  generalize (scope.current.names.find? fun name => !fields.any fun field => field.1 == name) =
    unknown,
    (scope'.current.names.find? fun name => !fields.any fun field => field.1 == name) =
      unknown' at hknown
  cases unknown with
  | some name =>
    cases unknown' with
    | none => cases hknown.mpr rfl
    | some name' =>
      have hne (name : String) :
          CodecError.unknownField (path.push (.name name)).toText ≠ .halted := by simp
      exact .failed (hne name) (hne name')
  | none =>
    cases hknown.mp rfl
    refine (EndsAlike.mapM (List.forall₂_same.mpr fun field hf => ?_)).bind_same _
    obtain ⟨seen, hfield⟩ := hs field hf
    have hrel := hd.get? field.1
    generalize scope.current.get? field.1 = found, scope'.current.get? field.1 = found' at *
    cases hrel with
    | none => exact h.missing hfield ha
    | some hsame => exact h _ _ hfield _ _ _ _ _ hsame ha

end

theorem rawValue_same (hv : ∀ variant ∈ variants, variant.2.WellFormed) {value value' : Value}
    (h : value.Same value') : (rawValue variants value).Same (rawValue variants value') := by
  have hknown (name : String) {raw raw' : Value} (hraw : raw.Same raw') :
      ((FieldType.variantRaw? variants name).getD raw).Same
        ((FieldType.variantRaw? variants name).getD raw') := by
    cases hr : FieldType.variantRaw? variants name with
    | none => exact hraw
    | some known =>
      exact .refl
        (hv (name, known)
          (Document.mem_of_get? (show Document.get? ⟨variants⟩ name = some known from hr)))
  obtain ⟨hw, hw', heq⟩ := h
  cases value with
  | enum name raw =>
    obtain ⟨raw', rfl, hraw⟩ := Value.enum_beq_iff.mp heq
    have hsame : raw.Same raw' := ⟨hw.of_enum, hw'.of_enum, hraw⟩
    cases name with
    | none => exact hsame
    | some name => exact hknown name hsame
  | str text =>
    cases Value.str_beq_iff.mp heq
    exact hknown text (.refl hw)
  | flags bits names =>
    obtain ⟨names', rfl⟩ := Value.flags_beq_iff.mp heq
    exact ⟨hw, hw', heq⟩
  | struct document =>
    obtain ⟨document', rfl, -⟩ := Value.struct_beq_iff.mp heq
    exact ⟨hw, hw', heq⟩
  | array items =>
    obtain ⟨items', rfl, -⟩ := Value.array_beq_iff.mp heq
    exact ⟨hw, hw', heq⟩
  | _ =>
    simp only [Value.int_beq_iff, Value.float_beq_iff, Value.bool_beq_iff, Value.bytes_beq_iff,
      Value.id_beq_iff] at heq
    subst heq
    exact .refl hw

-- ---------------------------------------------------------------------------
-- Types
-- ---------------------------------------------------------------------------

namespace WriteContext

variable {ctx : WriteContext} {scope scope' : Scope}

theorem descend_alike {f g : Writer → Except CodecError α}
    (h : ∀ write ∈ ctx.deeper, EndsAlike r (f write) (g write)) :
    EndsAlike r (ctx.descend path f) (ctx.descend path g) := by
  rw [descend, descend]
  cases hd : ctx.deeper with
  | none => exact .same (by simp)
  | some write => exact h write hd

theorem writeSequence_alike (h : ∀ type ∈ types, ∀ path value value', value.Same value' →
      EndsAlike Eq (ctx.write path type value scope) (ctx.write path type value' scope'))
    (hsame : List.Forall₂ Value.Same items items') :
    EndsAlike Eq (ctx.writeSequence path index types items scope)
      (ctx.writeSequence path index types items' scope') := by
  induction types generalizing index items items' with
  | nil => exact .ok rfl
  | cons type types ih =>
    obtain ⟨htype, htypes⟩ := List.forall_mem_cons.mp h
    cases hsame with
    | nil => exact .ok rfl
    | cons hitem hitems =>
      refine (htype _ _ _ hitem).bind ?_
      rintro part _ rfl
      exact (ih htypes hitems).bind_same _

theorem writeCase_alike {default : Option FieldType} (hd : discriminant == discriminant')
    (hcases : ∀ case ∈ cases, EndsAlike Eq (ctx.write path case.2 value scope)
      (ctx.write path case.2 value' scope'))
    (hdefault : ∀ type ∈ default, EndsAlike Eq (ctx.write path type value scope)
      (ctx.write path type value' scope')) :
    EndsAlike Eq (match ctx.writeCase path discriminant cases value scope with
      | some written => written
      | none => ctx.writeDefault path discriminant default value scope)
    (match ctx.writeCase path discriminant' cases value' scope' with
      | some written => written
      | none => ctx.writeDefault path discriminant' default value' scope') := by
  induction cases with
  | nil =>
    cases default with
    | none => exact .failed nofun nofun
    | some type => exact hdefault type rfl
  | cons case cases ih =>
    obtain ⟨key, type⟩ := case
    obtain ⟨hcase, hcases⟩ := List.forall_mem_cons.mp hcases
    have hkey : key.matches discriminant = key.matches discriminant' := key.matches_eq_of_beq hd
    by_cases hmatches : key.matches discriminant
    · simpa only [writeCase, ← hkey, hmatches, if_true] using hcase
    · simpa only [writeCase, ← hkey, hmatches, Bool.false_eq_true, if_false] using ih hcases

/-- An alternative that fails for one value fails for the other, so the same one
goes through. -/
theorem writeFirst_alike (h : ∀ type ∈ types,
      EndsAlike Eq (ctx.write path type value scope) (ctx.write path type value' scope'))
    (hlast : EndsAlike Eq
      (throw (last.getD (.invalidSchema (.noAlternatives path.toText))) : Except CodecError Bytes)
      (throw (last'.getD (.invalidSchema (.noAlternatives path.toText))))) :
    EndsAlike Eq (ctx.writeFirst path last types value scope)
      (ctx.writeFirst path last' types value' scope') := by
  induction types generalizing last last' with
  | nil => exact hlast
  | cons type types ih =>
    obtain ⟨htype, htypes⟩ := List.forall_mem_cons.mp h
    rw [writeFirst, writeFirst]
    generalize ctx.write path type value scope = found,
      ctx.write path type value' scope' = found' at htype
    cases htype with
    | ok heq => exact .ok heq
    | halted => exact .halted
    | failed hne hne' =>
      simp only [CodecError.halts_iff, hne, hne', if_false]
      exact ih htypes (.failed hne hne')

theorem write_alike (ctx : WriteContext)
    (hd : ∀ write ∈ ctx.deeper, WritesAlike ctx.codec.definitions write)
    (hshow : ShowsAlike ctx.codec.definitions ctx.constantBytes) :
    WritesAlike ctx.codec.definitions ctx.write := by
  intro seen type hs path value value' scope scope' hsame ha
  induction type using FieldType.induction generalizing path value value' scope scope' with
  | int kind order =>
    rw [write, write, Value.asInt?_eq_of_beq hsame.beq]
    exact expect_same.bind_same _
  | float order =>
    rw [write, write, Value.asFloat?_eq_of_beq hsame.beq]
    exact expect_same.bind_same _
  | text =>
    rw [write, write, Value.asStr?_eq_of_beq hsame.beq]
    exact expect_same.bind_same _
  | id | reversedId =>
    rw [write, write, Value.asId?_eq_of_beq hsame.beq]
    exact expect_same.bind_same _
  | bytes length =>
    rw [write_bytes, write_bytes, hsame.contentOf?]
    refine expect_same.bind ?_
    rintro content _ rfl
    exact (checkCount_alike (hs.here.looks.asks_iff ha)).bind_same _
  | const inner expected ih =>
    have heq : value == expected ↔ value' == expected :=
      ⟨Value.beq_trans hsame.symm.beq, Value.beq_trans hsame.beq⟩
    rw [write, write]
    by_cases h : value == expected
    · rw [if_pos h, if_pos (heq.mp h)]
      exact ih (hs.part .const) _ _ _ _ _ (.refl hs.here.values) ha
    · rw [if_neg h, if_neg (mt heq.mpr h)]
      exact otherConstant_alike (hshow _ _ (hs.part .const) _ _ hsame)
  | bool kind order no yes =>
    have heq : ctx.write path (.bool kind order no yes) value scope =
        ctx.write path (.bool kind order no yes) value' scope :=
      Value.eq_of_beq (f := (ctx.write path (.bool kind order no yes) · scope))
        (fun _ _ _ _ => rfl) (fun _ _ _ => rfl) (fun _ _ => rfl) (fun _ _ => rfl) hsame.beq
    exact heq ▸ .refl _
  | enum repr variants ih =>
    rw [write, write]
    exact ih (hs.part .enum) _ _ _ _ _ (rawValue_same hs.here.values hsame) ha
  | flags set =>
    have heq : ctx.write path (.flags set) value scope = ctx.write path (.flags set) value' scope :=
      Value.eq_of_beq (f := (ctx.write path (.flags set) · scope))
        (fun _ _ _ _ => rfl) (fun _ _ _ => rfl) (fun _ _ => rfl) (fun _ _ => rfl) hsame.beq
    exact heq ▸ .refl _
  | record name fields =>
    rw [write, write]
    refine (expect_alike hsame.asStruct?).bind fun document document' hdoc =>
      descend_alike fun write hwrite => ?_
    exact (hd write hwrite).fields (fun field hf => hs.field hf) (ha.child hdoc) hdoc
  | array length element ih =>
    rw [write, write]
    refine (expect_alike hsame.asArray?).bind fun items items' hitems => ?_
    rw [hitems.length_eq]
    exact (checkCount_alike (hs.here.looks.asks_iff ha)).bind fun _ _ _ =>
      writeItems_alike (hitems.imp fun _ _ h path => ih (hs.part .element) path _ _ _ _ h ha)
  | greedy element ih =>
    rw [write, write]
    exact (expect_alike hsame.asArray?).bind fun items items' hitems =>
      writeItems_alike (hitems.imp fun _ _ h path => ih (hs.part .greedy) path _ _ _ _ h ha)
  | sequence types ih =>
    rw [write, write]
    refine (expect_alike hsame.asArray?).bind fun items items' hitems => ?_
    rw [hitems.length_eq]
    split
    · exact .refl _
    · exact writeSequence_alike
        (fun type ht path _ _ h => ih type ht (hs.part (.item ht)) path _ _ _ _ h ha) hitems
  | switch on cases default ihc ihd =>
    rw [write, write]
    refine EndsAlike.bind (r := Value.Same)
      (answered_alike (fun _ h => ha.resolve hs.here.looks h) fun _ h => ?_)
      fun discriminant discriminant' h => writeCase_alike h.beq ?_ ?_
    · obtain ⟨discriminant, hdisc, -⟩ := ha.symm.resolve hs.here.looks h
      exact ⟨discriminant, hdisc⟩
    · exact fun case hc => ihc case hc (hs.part (.case hc)) _ _ _ _ _ hsame ha
    · exact fun type ht => ihd type ht (hs.part (.default ht)) _ _ _ _ _ hsame ha
  | conditional condition yes no ihy ihn =>
    rw [write, write]
    refine EndsAlike.bind (r := Eq)
      (answered_alike (fun truth h => ⟨truth, hs.here.looks _ _ ha _ h, rfl⟩)
        fun truth h => ⟨truth, hs.here.looks _ _ ha.symm _ h⟩) ?_
    rintro truth _ rfl
    cases truth with
    | true => exact ihy (hs.part .yes) _ _ _ _ _ hsame ha
    | false => exact ihn (hs.part .no) _ _ _ _ _ hsame ha
  | select alternatives ih =>
    rw [write, write]
    exact writeFirst_alike
      (fun type ht => ih type ht (hs.part (.alternative ht)) _ _ _ _ _ hsame ha) (.refl _)
  | checked relation holds inner ih =>
    have hiff : holds value scope = true ↔ holds value' scope' = true :=
      ⟨hs.here.looks _ _ ha _ _ hsame, hs.here.looks _ _ ha.symm _ _ hsame.symm⟩
    rw [write, write]
    by_cases h : holds value scope
    · rw [if_pos h, if_pos (hiff.mp h)]
      exact ih (hs.part .checked) _ _ _ _ _ hsame ha
    · rw [if_neg h, if_neg (mt hiff.mpr h)]
      exact .same (by simp)
  | padded size inner ih =>
    rw [write, write]
    exact (ih (hs.part .padded) _ _ _ _ _ hsame ha).bind_same _
  | packed unit =>
    rw [write, write]
    exact writePacked_alike hsame
  | lazy slot =>
    rw [write, write]
    exact descend_alike fun write hwrite => hd write hwrite _ _ (hs.part .lazy) _ _ _ _ _ hsame ha

end WriteContext

namespace FieldType

theorem writeAt_alike (codec : Codec) {constantBytes : FieldType → Value → Option Bytes}
    (hshow : ShowsAlike codec.definitions constantBytes) (levels : Nat) :
    WritesAlike codec.definitions (writeAt codec constantBytes levels) := by
  induction levels with
  | zero => exact WriteContext.write_alike ⟨codec, constantBytes, none⟩ nofun hshow
  | succ levels ih =>
    refine WriteContext.write_alike ⟨codec, constantBytes, some _⟩ ?_ hshow
    rintro _ ⟨⟩
    exact ih

theorem constantBytesAt_alike (codec : Codec) (reports : Nat) :
    ShowsAlike codec.definitions (constantBytesAt codec reports) := by
  induction reports with
  | zero => exact fun _ _ _ _ _ _ => Iff.rfl
  | succ reports ih =>
    intro seen type hs value value' hsame
    by_cases hbytes : ∃ content, value = .bytes content
    · obtain ⟨content, rfl⟩ := hbytes
      cases Value.bytes_beq_iff.mp hsame.beq
      exact Iff.rfl
    have hbytes' : ∀ content, value' ≠ .bytes content := by
      rintro content rfl
      exact hbytes ⟨content, Value.bytes_beq_iff.mp hsame.symm.beq⟩
    rw [constantBytesAt_succ _ _ _ (not_exists.mp hbytes), constantBytesAt_succ _ _ _ hbytes']
    have hroot : (Scope.root .empty codec.options).WellFormed := by
      rintro (_ | up) document ⟨⟩
      exact ⟨List.nodup_nil, nofun⟩
    have halike :=
      writeAt_alike codec ih codec.options.maxDepth seen type hs .root value value' _ _ hsame
      hroot.agree
    generalize writeAt codec (constantBytesAt codec reports) codec.options.maxDepth .root type value
      _ = found,
      writeAt codec (constantBytesAt codec reports) codec.options.maxDepth .root type value' _ =
        found' at halike
    cases halike with
    | ok => exact iff_of_false nofun nofun
    | halted => exact Iff.rfl
    | failed hne hne' => simp [hne, hne']

theorem constantBytes_alike (codec : Codec) : ShowsAlike codec.definitions (constantBytes codec) :=
  constantBytesAt_alike codec reportLimit

end FieldType

end Mapsmith
