import Mapsmith.Proofs.Outcome
import Mapsmith.Proofs.Schema.PackedUnit
import Mapsmith.Proofs.Schema.Site
import Mapsmith.Schema.Decode

/-!
# Breakdowns

Two failures of a run say nothing about its data: that the schema is invalid, and that
the run has halted. `Schema.avoids_decode` and `Schema.avoids_encode`: neither codec comes to
either of them with a schema of which no type brings it about by itself, as a packed unit
that is not filled does, a selection without alternatives, a constant that cannot be
shown, or a function of the schema.

What input brings a breakdown about with such a type is not said.
-/

namespace Mapsmith

/-- A failure that the data is not to blame for. -/
inductive Breakdown where
  /-- The schema is invalid. -/
  | fault
  | halt

def CodecError.breakdown? : CodecError → Option Breakdown
  | .invalidSchema _ => some .fault
  | .halted => some .halt
  | _ => none

@[simp] theorem CodecError.breakdown?_eq_halt {error : CodecError} :
    error.breakdown? = some .halt ↔ error = .halted := by
  cases error <;> simp [breakdown?]

theorem CodecError.breakdown?_eq_fault {error : CodecError} :
    error.breakdown? = some .fault ↔ ∃ fault, error = .invalidSchema fault := by
  cases error <;> simp [breakdown?]

/-- The computation does not fail by a breakdown of the kind. -/
def Avoids (b : Breakdown) (x : Except CodecError α) : Prop :=
  ∀ error, error.breakdown? = some b → x ≠ .error error

variable {b : Breakdown}

theorem avoids_ok (a : α) : Avoids b (.ok a : Except CodecError α) := nofun

theorem avoids_throw {error : CodecError} (h : error.breakdown? ≠ some b) :
    Avoids b (throw error : Except CodecError α) :=
  fun _ hb heq => h (Except.error.inj heq ▸ hb)

theorem Avoids.halts {x : Except CodecError α} (h : Avoids .halt x) (hx : x = .error error) :
    error.halts = false :=
  Bool.eq_false_iff.mpr fun hhalts =>
    h error (CodecError.breakdown?_eq_halt.mpr (CodecError.halts_iff.mp hhalts)) hx

theorem Avoids.bind {x : Except CodecError α} {f : α → Except CodecError β} (h : Avoids b x)
    (h' : ∀ a, Avoids b (f a)) : Avoids b (x >>= f) := by
  cases x with
  | ok a => exact h' a
  | error error =>
    exact fun other hb heq => h other hb (congrArg Except.error (Except.error.inj heq))

/-- A step that gives its result unless some condition on the data holds. -/
theorem avoids_unless {p : Prop} [Decidable p] {error : CodecError} {a : α}
    (h : error.breakdown? ≠ some b) :
    Avoids b (if p then throw error else return a : Except CodecError α) := by
  split
  · exact avoids_throw h
  · exact avoids_ok _

theorem Avoids.mapM {f : α → Except CodecError β} {items : List α}
    (h : ∀ item ∈ items, Avoids b (f item)) : Avoids b (items.mapM f) := by
  induction items with
  | nil => exact avoids_ok _
  | cons item items ih =>
    obtain ⟨hitem, hitems⟩ := List.forall_mem_cons.mp h
    rw [List.mapM_cons]
    exact hitem.bind fun _ => (ih hitems).bind fun _ => avoids_ok _

-- ---------------------------------------------------------------------------
-- What a type brings about by itself
-- ---------------------------------------------------------------------------

/-- No function of the type itself answers with a breakdown. -/
def FieldType.AnswersWithout (b : Breakdown) : FieldType → Prop
  | .bytes (.computed count) | .array (.computed count) _ =>
    ∀ scope, Avoids b (answered (count scope))
  | .conditional condition _ _ => ∀ scope, Avoids b (answered (condition scope))
  | _ => True

/-- The error of a constant at the site can show it. -/
def Site.Showable (codec : Codec) (site : Site) : Prop :=
  ∀ inner expected, site.type = .const inner expected → inner.constantBytes codec expected ≠ none

/-- The type at the site does not bring the breakdown about. -/
structure Site.Avoids (b : Breakdown) (constantBytes : FieldType → Value → Option Bytes)
    (site : Site) : Prop where
  answers : site.type.AnswersWithout b
  unit : ∀ unit, site.type = .packed unit → Mapsmith.Avoids b unit.check
  choice : b = .fault → site.type ≠ .select []
  shown : b = .halt → ∀ inner expected, site.type = .const inner expected →
    ∀ value, constantBytes inner value ≠ none

theorem avoids_halt_answered (x : Except Refusal α) : Avoids .halt (answered x) := fun _ hb heq =>
  answered_ne_halted x (CodecError.breakdown?_eq_halt.mp hb ▸ heq)

/-- The widths of a packed unit there add up to less than `2 ^ 32`. -/
def Site.CountsBits (site : Site) : Prop :=
  ∀ unit, site.type = .packed unit → PackedUnit.bits unit.fields < 2 ^ 32

theorem FieldType.answersWithout_halt (type : FieldType) : type.AnswersWithout .halt := by
  unfold AnswersWithout
  split
  · exact fun scope => avoids_halt_answered _
  · exact fun scope => avoids_halt_answered _
  · exact fun scope => avoids_halt_answered _
  · trivial

/-- Only a sum of widths halts by itself, and a constant that cannot be shown. -/
theorem Site.avoids_halt {constantBytes : FieldType → Value → Option Bytes} {site : Site}
    (hc : site.CountsBits)
    (hshown : ∀ inner expected, site.type = .const inner expected →
      ∀ value, constantBytes inner value ≠ none) :
    site.Avoids .halt constantBytes where
  answers := site.type.answersWithout_halt
  unit unit heq error hb hrun := by
    cases CodecError.breakdown?_eq_halt.mp hb
    have hbits := (PackedUnit.check_halted_iff.mp hrun).2.2.2
    exact absurd (hc unit heq) (Nat.not_lt.mpr hbits)
  choice := nofun
  shown _ := hshown

theorem answered_bind (x : Except Refusal α) (f : α → Except Refusal β) :
    answered (x >>= f) = answered x >>= fun a => answered (f a) := by
  cases x <;> rfl

theorem avoids_resolve (scope : Scope) (reference : Reference) :
    Avoids b (answered (scope.resolve reference)) := by
  unfold Scope.resolve
  split
  · exact avoids_ok _
  · exact avoids_throw nofun

theorem avoids_resolveInt (scope : Scope) (reference : Reference) :
    Avoids b (answered (scope.resolveInt reference)) := by
  rw [Scope.resolveInt, answered_bind]
  refine (avoids_resolve scope reference).bind fun value => ?_
  split
  · exact avoids_ok _
  · exact avoids_throw nofun

theorem avoids_count {length : Length} (path : FieldPath) (scope : Scope)
    (h : ∀ count, length = .computed count → Avoids b (answered (count scope))) :
    Avoids b (length.count path scope) := by
  have hasked : Avoids b (answered (length.resolve scope)) := by
    cases length with
    | fixed | remaining => exact avoids_ok _
    | field | scaled =>
      rw [Length.resolve, answered_bind]
      exact (avoids_resolveInt _ _).bind fun _ => avoids_ok _
    | product =>
      rw [Length.resolve, answered_bind]
      refine (avoids_resolveInt _ _).bind fun _ => ?_
      rw [answered_bind]
      exact (avoids_resolveInt _ _).bind fun _ => avoids_ok _
    | lookup table key =>
      rw [Length.resolve, answered_bind]
      refine (avoids_resolve _ _).bind fun value => ?_
      simp only
      split
      · exact avoids_ok _
      · exact avoids_throw nofun
    | computed count =>
      rw [Length.resolve, answered_bind]
      exact (h count rfl).bind fun _ => avoids_ok _
  refine hasked.bind fun asked => ?_
  split
  · exact avoids_ok _
  · simp only
    split
    · exact avoids_throw nofun
    · exact avoids_ok _

theorem FieldType.AnswersWithout.bytes {length : Length}
    (h : (FieldType.bytes length).AnswersWithout b)
    (scope : Scope) (count : Scope → Except Refusal Int) (hc : length = .computed count) :
    Avoids b (answered (count scope)) := by
  subst hc
  exact h scope

theorem FieldType.AnswersWithout.array {length : Length} {element : FieldType}
    (h : (FieldType.array length element).AnswersWithout b) (scope : Scope)
    (count : Scope → Except Refusal Int) (hc : length = .computed count) :
    Avoids b (answered (count scope)) := by
  subst hc
  exact h scope

theorem avoids_otherConstant (field : String) {expected actual : Option Bytes}
    (h : b = .halt → expected ≠ none ∧ actual ≠ none) :
    (Codec.otherConstant field expected actual).breakdown? ≠ some b := by
  cases b with
  | fault => cases expected <;> cases actual <;> nofun
  | halt =>
    obtain ⟨hexpected, hactual⟩ := h rfl
    cases expected <;> cases actual <;> simp_all [Codec.otherConstant, CodecError.breakdown?]

-- ---------------------------------------------------------------------------
-- Decoders
-- ---------------------------------------------------------------------------

namespace Decoder

/-- Wherever the decoder starts, it does not fail by a breakdown of the kind. -/
def Avoids (b : Breakdown) (decoder : Decoder α) : Prop :=
  ∀ start error stop, error.breakdown? = some b → decoder start ≠ .error error stop

variable {decoder : Decoder α} {read : Decoder Value}

theorem Avoids.halts (h : Avoids .halt decoder) (hrun : decoder start = .error error stop) :
    error.halts = false :=
  Bool.eq_false_iff.mpr fun hhalts =>
    h start error stop (CodecError.breakdown?_eq_halt.mpr (CodecError.halts_iff.mp hhalts)) hrun

theorem avoids_pure (a : α) : Avoids b (pure a) := nofun

theorem avoids_fail {error : String → CodecError} (h : ∀ field, (error field).breakdown? ≠ some b) :
    Avoids b (fail error : Decoder α) := by
  intro start other stop hb heq
  obtain ⟨rfl, -⟩ := EStateM.Result.error.inj heq
  exact h _ hb

theorem avoids_failAtEnd : Avoids b (failAtEnd : Decoder α) := by
  rintro start _ _ hb ⟨⟩
  cases hb

theorem avoids_lift {x : Except CodecError α} (h : Mapsmith.Avoids b x) : Avoids b (lift x) := by
  intro start error stop hb heq
  cases x with
  | ok => cases heq
  | error fault =>
    obtain ⟨rfl, -⟩ := EStateM.Result.error.inj heq
    exact h _ hb rfl

theorem Avoids.bind {next : α → Decoder β} (h : Avoids b decoder) (h' : ∀ a, Avoids b (next a)) :
    Avoids b (decoder >>= next) := by
  intro start error stop hb heq
  have heq : EStateM.bind decoder next start = _ := heq
  rw [EStateM.bind] at heq
  cases hrun : decoder start with
  | ok a middle =>
    rw [hrun] at heq
    exact h' a middle error stop hb heq
  | error fault middle =>
    rw [hrun] at heq
    obtain ⟨rfl, rfl⟩ := EStateM.Result.error.inj heq
    exact h start _ _ hb hrun

theorem Avoids.map (h : Avoids b decoder) (f : α → β) : Avoids b (do return f (← decoder)) :=
  h.bind fun a => avoids_pure (f a)

theorem Avoids.within (h : Avoids b decoder) (segment : Segment) :
    Avoids b (Decoder.within segment decoder) := by
  have hmodify (f : Place → Place) : Avoids b (modify f : Decoder PUnit) := nofun
  exact (hmodify _).bind fun _ => h.bind fun a => (hmodify _).bind fun _ => avoids_pure a

theorem avoids_count {length : Length} (scope : Scope)
    (h : ∀ count, length = .computed count → Mapsmith.Avoids b (answered (count scope))) :
    Avoids b (count length scope) :=
  fun start => avoids_lift (Mapsmith.avoids_count start.path scope h) start

theorem avoids_take (n : Nat) : Avoids b (take n) := by
  intro start error stop hb heq
  simp only [take] at heq
  split at heq
  · exact avoids_failAtEnd start error stop hb heq
  · cases heq

theorem avoids_readText : Avoids b readText := by
  intro start error stop hb heq
  simp only [readText] at heq
  split at heq
  · cases heq
    cases hb
  · split at heq
    · cases heq
    · exact avoids_fail (by nofun) _ error stop hb heq

theorem Avoids.times (h : Avoids b read) (n index : Nat) (before : List Value) :
    Avoids b (readTimes read n index before) := by
  induction n generalizing index before with
  | zero => exact avoids_pure _
  | succ n ih => exact (h.within _).bind fun item => ih (index + 1) (item :: before)

theorem Avoids.greedy (h : Avoids b read) (bound : Bytes) (index : Nat) (before : List Value) :
    Avoids b (readGreedy read bound index before) := by
  induction bound generalizing index before with
  | nil => exact avoids_pure _
  | cons _ bound ih =>
    intro start error stop hb heq
    simp only [readGreedy] at heq
    split at heq
    · cases heq
    · split at heq
      · obtain ⟨rfl, rfl⟩ := EStateM.Result.error.inj heq
        exact h.within _ start _ _ hb ‹_›
      · split at heq
        · cases heq
        · exact ih _ _ _ error stop hb heq

theorem Avoids.greedyItems (h : Avoids b read) :
    Avoids b (α := Value) (do return .array (← readGreedy read (← get).rest 0 [])) := by
  intro start
  exact (h.greedy start.rest 0 []).map Value.array start

theorem Avoids.fields {read : ValueReader} {scope : Document → Scope}
    {fields : List (String × FieldType)}
    (h : ∀ field ∈ fields, ∀ document, Avoids b (read field.2 (scope document)))
    (document : Document) :
    Avoids b (readFields read scope fields document) := by
  induction fields generalizing document with
  | nil => exact avoids_pure _
  | cons field fields ih =>
    obtain ⟨hfield, hfields⟩ := List.forall_mem_cons.mp h
    exact ((hfield document).within _).bind fun value => ih hfields _

theorem Avoids.const (h : Avoids b read) (expected : Value) {bytes : Unit → Option Bytes}
    (hbytes : b = .halt → bytes () ≠ none) : Avoids b (readConst expected bytes read) := by
  have hother (actual : Bytes) (stop : Place) (error : CodecError) (stop' : Place)
      (hb : error.breakdown? = some b) :
      (fail (Codec.otherConstant · (bytes ()) (some actual)) : Decoder Value) stop ≠
      .error error stop' :=
    avoids_fail (fun field => avoids_otherConstant field fun hb =>
      ⟨hbytes hb, Option.some_ne_none _⟩) stop error stop' hb
  intro start error stop hb heq
  simp only [readConst] at heq
  split at heq
  · split at heq
    · cases heq
    · exact hother _ _ _ _ hb heq
  · exact hother _ _ _ _ hb heq
  · obtain ⟨rfl, rfl⟩ := EStateM.Result.error.inj heq
    exact h start _ _ hb ‹_›

theorem Avoids.block (h : Avoids b read) (size : Nat) : Avoids b (readBlock size read) := by
  have hensure : Avoids b (ensure size) := by
    intro start error stop hb heq
    simp only [ensure] at heq
    split at heq
    · exact avoids_failAtEnd start error stop hb heq
    · cases heq
  intro start error stop hb heq
  simp only [readBlock] at heq
  split at heq
  · obtain ⟨rfl, rfl⟩ := EStateM.Result.error.inj heq
    exact hensure start _ _ hb ‹_›
  · split at heq
    · obtain ⟨rfl, rfl⟩ := EStateM.Result.error.inj heq
      exact h start _ _ hb ‹_›
    · split at heq
      · exact avoids_fail (by nofun) _ error stop hb heq
      · cases heq

theorem avoids_readBool (kind : IntKind) (order : ByteOrder) (no yes : Int) :
    Avoids b (readBool kind order no yes) := by
  refine ((avoids_take kind.size).map _).bind fun found => ?_
  split
  · exact avoids_pure _
  · split
    · exact avoids_pure _
    · exact avoids_fail (by nofun)

theorem avoids_readPacked {unit : PackedUnit} (h : Mapsmith.Avoids b unit.check) :
    Avoids b (readPacked unit) :=
  (avoids_lift h).bind fun _ => (avoids_take unit.size).map _

theorem avoids_code (f : FourCC → Value) : Avoids b (do
    match FourCC.ofBytes? (← take 4) with
    | some code => return f code
    | none => failAtEnd) := by
  refine (avoids_take 4).bind fun content => ?_
  split
  · exact avoids_pure _
  · exact avoids_failAtEnd

end Decoder

/-- Reading breaks down only where the type does. -/
def ValueReader.Avoids (b : Breakdown) (codec : Codec) (read : ValueReader) : Prop :=
  ∀ seen type scope,
    Site.Everywhere codec.definitions (Site.Avoids b (FieldType.constantBytes codec)) ⟨seen, type⟩ →
      (read type scope).Avoids b

namespace ReadContext

variable {ctx : ReadContext} {scope : Scope}

theorem avoids_descend (hd : ∀ read ∈ ctx.deeper, read.Avoids b ctx.codec)
    {f : ValueReader → Decoder α}
    (h : ∀ read : ValueReader, read.Avoids b ctx.codec → Decoder.Avoids b (f read)) :
    Decoder.Avoids b (ctx.descend f) := by
  rw [descend]
  split
  · exact h _ (hd _ ‹_›)
  · exact Decoder.avoids_fail (by nofun)

theorem avoids_sequence {types : List FieldType}
    (h : ∀ type ∈ types, Decoder.Avoids b (ctx.read type scope))
    (index : Nat) : Decoder.Avoids b (ctx.readSequence index types scope) := by
  induction types generalizing index with
  | nil => exact Decoder.avoids_pure _
  | cons type types ih =>
    obtain ⟨htype, htypes⟩ := List.forall_mem_cons.mp h
    exact (htype.within _).bind fun item => (ih htypes _).map _

theorem avoids_case {default : Option FieldType} (discriminant : Value)
    (hcases : ∀ case ∈ cases, Decoder.Avoids b (ctx.read case.2 scope))
    (hdefault : ∀ type ∈ default, Decoder.Avoids b (ctx.read type scope)) :
    Decoder.Avoids b (match ctx.readCase discriminant cases scope with
      | some decoder => decoder
      | none => ctx.readDefault discriminant default scope) := by
  induction cases with
  | nil =>
    cases default with
    | none =>
      show (Decoder.fail (.unknownVariant · discriminant.toText)).Avoids b
      exact Decoder.avoids_fail nofun
    | some type => exact hdefault type rfl
  | cons case cases ih =>
    obtain ⟨key, type⟩ := case
    obtain ⟨hcase, hcases⟩ := List.forall_mem_cons.mp hcases
    by_cases hkey : key.matches discriminant
    · simpa only [readCase, hkey, if_true] using hcase
    · simpa only [readCase, hkey, Bool.false_eq_true, if_false] using ih hcases

/-- A selection reports why its last alternative failed, and has one to report. -/
theorem avoids_first {types : List FieldType}
    (h : ∀ type ∈ types, Decoder.Avoids b (ctx.read type scope))
    {last : Option CodecError} (hlast : ∀ error ∈ last, error.breakdown? ≠ some b)
    (hnil : b = .fault → types = [] → last ≠ none) :
    Decoder.Avoids b (ctx.readFirst last types scope) := by
  induction types generalizing last with
  | nil =>
    rintro start _ _ hb ⟨⟩
    cases last with
    | some error => exact hlast error rfl hb
    | none =>
      cases b with
      | fault => exact hnil rfl rfl rfl
      | halt => cases hb
  | cons type types ih =>
    obtain ⟨htype, htypes⟩ := List.forall_mem_cons.mp h
    intro start error stop hb heq
    simp only [readFirst] at heq
    split at heq
    · cases heq
    · rename_i failure middle hrun
      split at heq
      · obtain ⟨rfl, rfl⟩ := EStateM.Result.error.inj heq
        exact htype start _ _ hb hrun
      · have hlast : ∀ error ∈ some failure, error.breakdown? ≠ some b := by
          rintro _ ⟨⟩ hfailure
          exact htype start _ _ hfailure hrun
        exact ih htypes hlast (fun _ _ => Option.some_ne_none _) start error stop hb heq

theorem avoids_read (hd : ∀ read ∈ ctx.deeper, read.Avoids b ctx.codec) (type : FieldType)
    (hs : Site.Everywhere ctx.codec.definitions (Site.Avoids b (FieldType.constantBytes ctx.codec))
      ⟨seen, type⟩) :
    Decoder.Avoids b (ctx.read type scope) := by
  induction type using FieldType.induction with
  | int kind order => exact ((Decoder.avoids_take kind.size).map _).map _
  | float order => exact (Decoder.avoids_take 4).map _
  | text => exact Decoder.avoids_readText.map _
  | id =>
    rw [read]
    exact Decoder.avoids_code _
  | reversedId =>
    rw [read]
    exact Decoder.avoids_code _
  | bytes length =>
    rw [read]
    refine (Decoder.avoids_count scope fun count hc => hs.here.answers.bytes scope count hc).bind
      fun n => ?_
    split
    · exact (Decoder.avoids_take _).map _
    · exact fun start => (Decoder.avoids_take start.rest.length).map Value.bytes start
  | const inner value ih =>
    rw [read]
    exact (ih (hs.part .const)).const value fun hb => hs.here.shown hb inner value rfl value
  | bool kind order no yes =>
    rw [read]
    exact Decoder.avoids_readBool kind order no yes
  | enum repr variants ih =>
    rw [read]
    exact (ih (hs.part .enum)).map _
  | flags set => exact (Decoder.avoids_take _).map _
  | record name fields =>
    rw [read]
    refine avoids_descend hd fun read hread =>
      Decoder.Avoids.map (Decoder.Avoids.fields (fun field hf document => ?_) _) _
    obtain ⟨_, hfield⟩ := hs.field hf
    exact hread _ _ _ hfield
  | array length element ih =>
    have helement := ih (hs.part .element)
    rw [read]
    refine (Decoder.avoids_count scope fun count hc => hs.here.answers.array scope count hc).bind
      fun n => ?_
    split
    · exact (helement.times _ 0 []).map _
    · exact helement.greedyItems
  | greedy element ih =>
    rw [read]
    exact (ih (hs.part .greedy)).greedyItems
  | sequence types ih =>
    rw [read]
    exact (avoids_sequence (fun type ht => ih type ht (hs.part (.item ht))) 0).map _
  | switch on cases default ihc ihd =>
    rw [read]
    refine (Decoder.avoids_lift (avoids_resolve scope on)).bind fun discriminant =>
      avoids_case discriminant ?_ ?_
    · exact fun case hc => ihc case hc (hs.part (.case hc))
    · exact fun type ht => ihd type ht (hs.part (.default ht))
  | conditional condition yes no ihy ihn =>
    rw [read]
    refine (Decoder.avoids_lift (hs.here.answers scope)).bind fun truth => ?_
    cases truth with
    | false => exact ihn (hs.part .no)
    | true => exact ihy (hs.part .yes)
  | select alternatives ih =>
    rw [read]
    refine avoids_first (fun type ht => ih type ht (hs.part (.alternative ht))) nofun ?_
    rintro hb rfl
    exact absurd rfl (hs.here.choice hb)
  | checked relation holds inner ih =>
    rw [read]
    refine (ih (hs.part .checked)).bind fun value => ?_
    split
    · exact Decoder.avoids_pure _
    · exact Decoder.avoids_fail (by nofun)
  | padded size inner ih =>
    rw [read]
    exact (ih (hs.part .padded)).block size
  | packed unit =>
    rw [read]
    exact Decoder.avoids_readPacked (hs.here.unit unit rfl)
  | lazy slot =>
    rw [read]
    exact avoids_descend hd fun read hread => hread _ _ _ (hs.part .lazy)

end ReadContext

theorem FieldType.avoids_readAt (codec : Codec) (levels : Nat) :
    ValueReader.Avoids b codec (readAt codec levels) := by
  induction levels with
  | zero =>
    refine fun _ type _ hs => ReadContext.avoids_read ?_ type hs
    nofun
  | succ levels ih =>
    refine fun _ type _ hs => ReadContext.avoids_read ?_ type hs
    rintro _ ⟨⟩
    exact ih

-- ---------------------------------------------------------------------------
-- Writers
-- ---------------------------------------------------------------------------

namespace Codec

theorem avoids_expect (path : FieldPath) (expected : String) (value : Value) (found : Option α) :
    Avoids b (expect path expected value found) := by
  cases found with
  | some => exact avoids_ok _
  | none => exact avoids_throw nofun

theorem avoids_writeInt (path : FieldPath) (kind : IntKind) (order : ByteOrder) (n : Int) :
    Avoids b (writeInt path kind order n) :=
  avoids_unless (by nofun)

theorem avoids_writeFlags (path : FieldPath) (set : FlagSet) (bits : Nat) :
    Avoids b (writeFlags path set bits) :=
  avoids_unless (by nofun)

theorem avoids_writeText (path : FieldPath) (text : String) : Avoids b (writeText path text) :=
  avoids_unless (by nofun)

theorem avoids_checkCount {length : Length} (path : FieldPath) (scope : Scope) (held : Nat)
    (unit : String) (h : ∀ count, length = .computed count → Avoids b (answered (count scope))) :
    Avoids b (checkCount path length scope held unit) := by
  refine (avoids_count path scope h).bind fun expected => ?_
  split
  · split
    · exact avoids_ok _
    · exact avoids_throw nofun
  · exact avoids_ok _

theorem avoids_fillBlock (path : FieldPath) (size : Nat) (content : Bytes) :
    Avoids b (fillBlock path size content) :=
  avoids_unless (by nofun)

theorem avoids_packedWord (path : FieldPath) (field : PackedField) (value : Value) :
    Avoids b (packedWord path field value) := by
  have hfits (word : UInt64) : Avoids b (if PackedUnit.fits field.width word then return word
      else throw (.roundTrip path.toText (.tooWide word.toNat field.width.toNat))) := by
    split
    · exact avoids_ok _
    · exact avoids_throw nofun
  unfold packedWord
  split
  · exact hfits _
  · refine (avoids_expect _ _ _ _).bind fun n => ?_
    split
    · refine (avoids_throw ?_).bind hfits
      nofun
    · exact hfits _

theorem avoids_writePacked {unit : PackedUnit} (h : Avoids b unit.check) (path : FieldPath)
    (value : Value) : Avoids b (writePacked path unit value) := by
  refine h.bind fun _ => (avoids_expect _ _ _ _).bind fun document => Avoids.bind ?_ fun words =>
    avoids_ok _
  refine .mapM fun field _ => ?_
  split
  · exact avoids_packedWord _ _ _
  · exact avoids_throw nofun

theorem avoids_items {write : FieldPath → Value → Except CodecError Bytes}
    (h : ∀ path item, Avoids b (write path item)) (path : FieldPath) (items : List Value) :
    Avoids b (writeItems path write items) :=
  (Avoids.mapM fun item _ => h (path.push (.index item.2)) item.1).bind fun _ => avoids_ok _

end Codec

/-- Writing breaks down only where the type does. -/
def Writer.Avoids (b : Breakdown) (definitions : Nat → FieldType)
    (constantBytes : FieldType → Value → Option Bytes) (write : Writer) : Prop :=
  ∀ seen type path value scope,
    Site.Everywhere definitions (Site.Avoids b constantBytes) ⟨seen, type⟩ →
    Mapsmith.Avoids b (write path type value scope)

namespace Writer.Avoids

open Codec

variable {definitions : Nat → FieldType} {constantBytes : FieldType → Value → Option Bytes}
  {write : Writer}

theorem missing (h : write.Avoids b definitions constantBytes)
    (hs : Site.Everywhere definitions (Site.Avoids b constantBytes) ⟨seen, type⟩) (path : FieldPath)
    (scope : Scope) : Mapsmith.Avoids b (writeMissing write path scope type) := by
  unfold writeMissing
  split
  · exact h _ _ _ _ _ (hs.part .const)
  · exact (h _ _ _ _ _ ((hs.part .padded).part .const)).bind fun _ => avoids_ok _
  · exact avoids_throw nofun

theorem fields (h : write.Avoids b definitions constantBytes) {fields : List (String × FieldType)}
    (hs : ∀ field ∈ fields, ∃ seen, Site.Everywhere definitions (Site.Avoids b constantBytes)
      ⟨seen, field.2⟩)
    (path : FieldPath) (scope : Scope) :
    Mapsmith.Avoids b (writeFields write path scope fields) := by
  rw [writeFields]
  split
  · exact avoids_throw nofun
  · refine (Mapsmith.Avoids.mapM fun field hf => ?_).bind fun _ => avoids_ok _
    obtain ⟨_, hs⟩ := hs field hf
    split
    · exact h _ _ _ _ _ hs
    · exact h.missing hs _ _

end Writer.Avoids

namespace WriteContext

open Codec

variable {ctx : WriteContext} {scope : Scope} {path : FieldPath} {value : Value}

theorem avoids_descend
    (hd : ∀ write ∈ ctx.deeper, write.Avoids b ctx.codec.definitions ctx.constantBytes)
    {f : Writer → Except CodecError α}
    (h : ∀ write : Writer, write.Avoids b ctx.codec.definitions ctx.constantBytes →
      Avoids b (f write)) :
    Avoids b (ctx.descend path f) := by
  rw [descend]
  split
  · exact h _ (hd _ ‹_›)
  · exact avoids_throw nofun

theorem avoids_sequence {types : List FieldType}
    (h : ∀ type ∈ types, ∀ path value, Avoids b (ctx.write path type value scope))
    (path : FieldPath) (index : Nat) (items : List Value) :
    Avoids b (ctx.writeSequence path index types items scope) := by
  induction types generalizing index items with
  | nil => exact avoids_ok _
  | cons type types ih =>
    obtain ⟨htype, htypes⟩ := List.forall_mem_cons.mp h
    cases items with
    | nil => exact avoids_ok _
    | cons item items =>
      exact (htype _ _).bind fun part => (ih htypes _ _).bind fun rest => avoids_ok _

theorem avoids_case {default : Option FieldType} (discriminant : Value)
    (hcases : ∀ case ∈ cases, Avoids b (ctx.write path case.2 value scope))
    (hdefault : ∀ type ∈ default, Avoids b (ctx.write path type value scope)) :
    Avoids b (match ctx.writeCase path discriminant cases value scope with
      | some written => written
      | none => ctx.writeDefault path discriminant default value scope) := by
  induction cases with
  | nil =>
    cases default with
    | none => exact avoids_throw nofun
    | some type => exact hdefault type rfl
  | cons case cases ih =>
    obtain ⟨key, type⟩ := case
    obtain ⟨hcase, hcases⟩ := List.forall_mem_cons.mp hcases
    by_cases hkey : key.matches discriminant
    · simpa only [writeCase, hkey, if_true] using hcase
    · simpa only [writeCase, hkey, Bool.false_eq_true, if_false] using ih hcases

theorem avoids_first {types : List FieldType}
    (h : ∀ type ∈ types, Avoids b (ctx.write path type value scope)) {last : Option CodecError}
    (hlast : ∀ error ∈ last, error.breakdown? ≠ some b)
    (hnil : b = .fault → types = [] → last ≠ none) :
    Avoids b (ctx.writeFirst path last types value scope) := by
  induction types generalizing last with
  | nil =>
    refine avoids_throw fun hb => ?_
    cases last with
    | some error => exact hlast error rfl hb
    | none =>
      cases b with
      | fault => exact hnil rfl rfl rfl
      | halt => cases hb
  | cons type types ih =>
    obtain ⟨htype, htypes⟩ := List.forall_mem_cons.mp h
    rw [writeFirst]
    split
    · exact avoids_ok _
    · rename_i failure hrun
      have hfailure : failure.breakdown? ≠ some b := fun hb => htype failure hb hrun
      split
      · exact avoids_throw hfailure
      · have hlast : ∀ error ∈ some failure, error.breakdown? ≠ some b := by
          rintro _ ⟨⟩
          exact hfailure
        exact ih htypes hlast fun _ _ => Option.some_ne_none _

theorem avoids_write
    (hd : ∀ write ∈ ctx.deeper, write.Avoids b ctx.codec.definitions ctx.constantBytes)
    (type : FieldType)
    (hs : Site.Everywhere ctx.codec.definitions (Site.Avoids b ctx.constantBytes) ⟨seen, type⟩)
    (path : FieldPath) (value : Value) : Avoids b (ctx.write path type value scope) := by
  induction type using FieldType.induction generalizing path value with
  | int kind order =>
    exact (avoids_expect _ _ _ _).bind fun n => avoids_writeInt _ _ _ n
  | float => exact (avoids_expect _ _ _ _).bind fun _ => avoids_ok _
  | text => exact (avoids_expect _ _ _ _).bind fun text => avoids_writeText _ text
  | id | reversedId => exact (avoids_expect _ _ _ _).bind fun _ => avoids_ok _
  | bytes length =>
    have hcount (content : Bytes) : Avoids b
        (do checkCount path length scope content.length "bytes"; return content) :=
      (avoids_checkCount _ _ _ _ fun count hc => hs.here.answers.bytes scope count hc).bind
        fun _ => avoids_ok _
    cases value with
    | bytes content => exact hcount content
    | id code => exact hcount code.bytes
    | _ => exact avoids_throw nofun
  | const inner expected ih =>
    rw [write]
    split
    · exact ih (hs.part .const) path expected
    · exact avoids_throw (avoids_otherConstant _ fun hb =>
        ⟨hs.here.shown hb inner expected rfl _, hs.here.shown hb inner expected rfl _⟩)
  | bool kind order no yes =>
    cases value with
    | bool b => exact avoids_writeInt _ _ _ _
    | _ => exact avoids_throw nofun
  | enum repr variants ih =>
    rw [write]
    exact ih (hs.part .enum) _ _
  | flags set =>
    cases value with
    | flags bits names => exact avoids_writeFlags _ _ _
    | int n =>
      rw [write]
      split
      · exact avoids_writeFlags _ _ _
      · exact avoids_throw nofun
    | _ => exact avoids_throw nofun
  | record name fields =>
    rw [write]
    exact (avoids_expect _ _ _ _).bind fun document =>
      avoids_descend hd fun write hwrite => hwrite.fields (fun field hf => hs.field hf) _ _
  | array length element ih =>
    rw [write]
    exact (avoids_expect _ _ _ _).bind fun items =>
      (avoids_checkCount _ _ _ _ fun count hc => hs.here.answers.array scope count hc).bind fun _ =>
        avoids_items (fun path item => ih (hs.part .element) path item) _ _
  | greedy element ih =>
    rw [write]
    exact (avoids_expect _ _ _ _).bind fun items =>
      avoids_items (fun path item => ih (hs.part .greedy) path item) _ _
  | sequence types ih =>
    rw [write]
    refine (avoids_expect _ _ _ _).bind fun items => ?_
    by_cases harity : items.length ≠ types.length
    · simp only [if_pos harity]
      exact avoids_throw nofun
    · simp only [if_neg harity]
      exact avoids_sequence
        (fun type ht path value => ih type ht (hs.part (.item ht)) path value) _ _ _
  | switch on cases default ihc ihd =>
    rw [write]
    refine (avoids_resolve scope on).bind fun discriminant => avoids_case discriminant ?_ ?_
    · exact fun case hc => ihc case hc (hs.part (.case hc)) path value
    · exact fun type ht => ihd type ht (hs.part (.default ht)) path value
  | conditional condition yes no ihy ihn =>
    rw [write]
    refine (hs.here.answers scope).bind fun truth => ?_
    cases truth with
    | false => exact ihn (hs.part .no) path value
    | true => exact ihy (hs.part .yes) path value
  | select alternatives ih =>
    rw [write]
    refine avoids_first (fun type ht => ih type ht (hs.part (.alternative ht)) path value) nofun ?_
    rintro hb rfl
    exact absurd rfl (hs.here.choice hb)
  | checked relation holds inner ih =>
    rw [write]
    split
    · exact ih (hs.part .checked) path value
    · exact avoids_throw nofun
  | padded size inner ih =>
    rw [write]
    exact (ih (hs.part .padded) path value).bind fun content => avoids_fillBlock _ _ content
  | packed unit =>
    rw [write]
    exact avoids_writePacked (hs.here.unit unit rfl) _ _
  | lazy slot =>
    rw [write]
    exact avoids_descend hd fun write hwrite => hwrite _ _ _ _ _ (hs.part .lazy)

end WriteContext

theorem FieldType.avoids_writeAt (codec : Codec) (constantBytes : FieldType → Value → Option Bytes)
    (levels : Nat) :
    Writer.Avoids b codec.definitions constantBytes (writeAt codec constantBytes levels) := by
  induction levels with
  | zero =>
    refine fun _ type path value _ hs => WriteContext.avoids_write ?_ type hs path value
    nofun
  | succ levels ih =>
    refine fun _ type path value _ hs => WriteContext.avoids_write ?_ type hs path value
    rintro _ ⟨⟩
    exact ih

namespace FieldType

theorem constantBytesAt_succ (codec : Codec) (reports : Nat) (type : FieldType) {value : Value}
    (h : ∀ content, value ≠ .bytes content) : constantBytesAt codec (reports + 1) type value =
      match writeAt codec (constantBytesAt codec reports) codec.options.maxDepth .root type value
        (Scope.root .empty codec.options) with
      | .ok written => some written
      | .error error => if error.halts then none else some [] := by
  cases value with
  | bytes content => exact absurd rfl (h content)
  | _ => rfl

/-- Where no constant stands in it, a type is shown with every value, unless widths add
up to too much. -/
theorem constantBytes_ne_none {codec : Codec} {type : FieldType} (seen : List (List String))
    (h : Site.Everywhere codec.definitions (fun site => site.CountsBits ∧
      ∀ inner expected, site.type ≠ .const inner expected) ⟨seen, type⟩) (value : Value) :
    type.constantBytes codec value ≠ none := by
  by_cases hbytes : ∃ content, value = .bytes content
  · obtain ⟨content, rfl⟩ := hbytes
    exact Option.some_ne_none content
  have havoids :=
    avoids_writeAt codec (constantBytesAt codec (reportLimit - 1)) codec.options.maxDepth seen type
      .root value (Scope.root .empty codec.options)
      (h.mono fun _ h => Site.avoids_halt h.1 fun inner expected heq =>
        absurd heq (h.2 inner expected))
  change constantBytesAt codec (reportLimit - 1 + 1) type value ≠ none
  rw [constantBytesAt_succ _ _ _ (not_exists.mp hbytes)]
  split
  · exact Option.some_ne_none _
  · rename_i error hrun
    simp [havoids.halts hrun]

end FieldType

-- ---------------------------------------------------------------------------
-- Schemas
-- ---------------------------------------------------------------------------

namespace Schema

variable {schema : Schema} {options : CodecOptions}

theorem avoids_decode
    (h : schema.Everywhere (Site.Avoids b (FieldType.constantBytes (schema.codec options))))
    (bytes : Bytes) :
    Avoids b (schema.decode options bytes) := by
  have hdecoder : Decoder.Avoids b (Decoder.readFields
      (FieldType.readAt (schema.codec options) options.maxDepth)
      (Scope.root · options) schema.fields .empty) :=
    Decoder.Avoids.fields (fun _ hf _ => by
      obtain ⟨_, hfield⟩ := h.field hf
      exact FieldType.avoids_readAt (schema.codec options) _ _ _ _ hfield) _
  intro error hb heq
  simp only [decode] at heq
  split at heq
  · cases heq
    exact hdecoder _ _ _ hb ‹_›
  · split at heq
    · cases heq
    · split at heq <;> cases heq
      cases hb

theorem avoids_encode
    (h : schema.Everywhere (Site.Avoids b (FieldType.constantBytes (schema.codec options))))
    (document : Document) : Avoids b (schema.encode options document) :=
  Writer.Avoids.fields (FieldType.avoids_writeAt (schema.codec options) _ _)
  (fun _ hf => h.field hf) _ _

end Schema

end Mapsmith
