import Mapsmith.Proofs.Schema.Comparison
import Mapsmith.Proofs.Schema.RoundTrip

/-!
# Limits

`Schema.decode_encode_of_loosens`: the limits of a run bound what it takes on, and that is all
they do. Looser options give the same results and more of them, and what stricter options
refuse they refuse with an error about a limit. What decodes has no more records inside one
another than the limit allows.
-/

namespace Mapsmith

-- ---------------------------------------------------------------------------
-- Writing under looser options
-- ---------------------------------------------------------------------------

namespace Comparison

/-- The second writer agrees with the first one in all types where the runs may be compared. -/
def WriterAgrees (c : Comparison) (codec : Codec) (write write' : Writer) : Prop :=
  ∀ seen type path value scope, Site.Everywhere codec.definitions (c.Covers codec) ⟨seen, type⟩ →
    scope.options = c.options →
      c.Agree (write path type value scope) (write' path type value (scope.under c.looser))

/-- What the second run depends on, beside what the first one does. -/
structure Writing (c : Comparison) (ctx ctx' : WriteContext) : Prop where
  definitions : ctx'.codec.definitions = ctx.codec.definitions
  deeper : ∀ write ∈ ctx.deeper, ∃ write' ∈ ctx'.deeper, c.WriterAgrees ctx.codec write write'
  limit : ctx.deeper = none → ctx'.deeper = none ∨ c.options ≠ c.looser

open Codec

variable {c : Comparison} {scope : Scope}

theorem agree_checkCount {length : Length} (hl : length.Indifferent c.options c.looser)
    (hs : scope.options = c.options) (path : FieldPath) (held : Nat) (unit : String) :
    c.Agree (checkCount path length scope held unit)
      (checkCount path length (scope.under c.looser) held unit) :=
  (agree_count hl hs path).bind fun _ => .refl _

theorem agree_items {write write' : FieldPath → Value → Except CodecError Bytes}
    (h : ∀ path item, c.Agree (write path item) (write' path item)) (path : FieldPath)
    (items : List Value) :
    c.Agree (writeItems path write items) (writeItems path write' items) :=
  (Agree.mapM fun item _ => h (path.push (.index item.2)) item.1).bind fun _ => .ok

theorem WriterAgrees.missing {codec : Codec} {write write' : Writer}
    (h : c.WriterAgrees codec write write')
    (hs : Site.Everywhere codec.definitions (c.Covers codec) ⟨seen, type⟩)
    (ho : scope.options = c.options) (path : FieldPath) :
    c.Agree (writeMissing write path scope type)
      (writeMissing write' path (scope.under c.looser) type) := by
  unfold writeMissing
  split
  · exact h _ _ _ _ _ (hs.part .const) ho
  · exact (h _ _ _ _ _ ((hs.part .padded).part .const) ho).bind fun _ => .ok
  · exact .failed

theorem WriterAgrees.fields {codec : Codec} {write write' : Writer}
    (h : c.WriterAgrees codec write write') {fields : List (String × FieldType)}
    (hs : ∀ field ∈ fields, ∃ seen, Site.Everywhere codec.definitions (c.Covers codec)
      ⟨seen, field.2⟩) (ho : scope.options = c.options) (path : FieldPath) :
    c.Agree (writeFields write path scope fields)
      (writeFields write' path (scope.under c.looser) fields) := by
  have hcurrent : (scope.under c.looser).current = scope.current := rfl
  rw [writeFields, writeFields, hcurrent]
  split
  · exact .failed
  · refine (Agree.mapM fun field hf => ?_).bind fun _ => .ok
    obtain ⟨seen, hs⟩ := hs field hf
    split
    · exact h _ _ _ _ _ hs ho
    · exact h.missing hs ho _

end Comparison

namespace WriteContext

open Codec Comparison

variable {c : Comparison} {ctx ctx' : WriteContext} {scope : Scope}

theorem agree_descend (hctx : c.Writing ctx ctx') (path : FieldPath)
    {f f' : Writer → Except CodecError α}
    (h : ∀ write write', c.WriterAgrees ctx.codec write write' → c.Agree (f write) (f' write')) :
    c.Agree (ctx.descend path f) (ctx'.descend path f') := by
  rw [descend, descend]
  cases hwrite : ctx.deeper with
  | some write =>
    obtain ⟨write', hwrite', hagrees⟩ := hctx.deeper write hwrite
    rw [Option.mem_def.mp hwrite']
    exact h write write' hagrees
  | none =>
    obtain hnone | hne := hctx.limit hwrite
    · rw [hnone]
      exact .failed
    · exact .excused (.inl ⟨hne, trivial⟩)

theorem agree_sequence {types : List FieldType} {scope scope' : Scope}
    (h : ∀ type ∈ types, ∀ path value,
      c.Agree (ctx.write path type value scope) (ctx'.write path type value scope'))
    (path : FieldPath) (index : Nat) (items : List Value) :
    c.Agree (ctx.writeSequence path index types items scope)
      (ctx'.writeSequence path index types items scope') := by
  induction types generalizing index items with
  | nil => exact .ok
  | cons type types ih =>
    obtain ⟨htype, htypes⟩ := List.forall_mem_cons.mp h
    cases items with
    | nil => exact .ok
    | cons item items =>
      rw [writeSequence, writeSequence]
      exact (htype _ _).bind fun part => (ih htypes _ _).bind fun rest => .ok

theorem agree_case {default : Option FieldType} {scope scope' : Scope} (path : FieldPath)
    (discriminant value : Value)
    (hcases : ∀ case ∈ cases, c.Agree (ctx.write path case.2 value scope)
      (ctx'.write path case.2 value scope')) (hdefault : ∀ type ∈ default,
      c.Agree (ctx.write path type value scope) (ctx'.write path type value scope')) :
    c.Agree (match ctx.writeCase path discriminant cases value scope with
      | some written => written
      | none => ctx.writeDefault path discriminant default value scope)
      (match ctx'.writeCase path discriminant cases value scope' with
      | some written => written
      | none => ctx'.writeDefault path discriminant default value scope') := by
  induction cases with
  | nil =>
    cases default with
    | none => exact .failed
    | some type => exact hdefault type rfl
  | cons case cases ih =>
    obtain ⟨key, type⟩ := case
    obtain ⟨hcase, hcases⟩ := List.forall_mem_cons.mp hcases
    by_cases hkey : key.matches discriminant
    · simpa only [writeCase, hkey, if_true] using hcase
    · simpa only [writeCase, hkey, Bool.false_eq_true, if_false] using ih hcases

theorem agree_write (hctx : c.Writing ctx ctx') (type : FieldType)
    (hs : Site.Everywhere ctx.codec.definitions (c.Covers ctx.codec) ⟨seen, type⟩)
    (ho : scope.options = c.options) (path : FieldPath) (value : Value) :
    c.Agree (ctx.write path type value scope)
      (ctx'.write path type value (scope.under c.looser)) := by
  induction type using FieldType.induction generalizing path value with
  | int | float | text | id | reversedId | bool | flags | packed => exact .refl _
  | bytes length =>
    have hcount (content : Bytes) : c.Agree
        (do checkCount path length scope content.length "bytes"; return content)
        (do checkCount path length (scope.under c.looser) content.length "bytes"; return content) :=
      (agree_checkCount hs.here.indifferent ho _ _ _).bind fun _ => .ok
    cases value with
    | bytes content => exact hcount content
    | id code => exact hcount code.bytes
    | _ => exact .failed
  | const inner expected ih =>
    rw [write, write]
    split
    · exact ih (hs.part .const) path expected
    · exact .failed
  | enum repr variants ih =>
    rw [write, write]
    exact ih (hs.part .enum) _ _
  | record name fields =>
    rw [write, write]
    refine Agree.bind (.refl _) fun document =>
      agree_descend hctx path fun write write' hwrite => ?_
    have ho : (scope.child document).options = c.options := ho
    refine hwrite.fields (fun field hf => ?_) ho path
    exact hs.field hf
  | array length element ih =>
    rw [write, write]
    refine Agree.bind (.refl _) fun items =>
      (agree_checkCount hs.here.indifferent ho _ _ _).bind fun _ => ?_
    exact agree_items (fun path item => ih (hs.part .element) path item) _ _
  | greedy element ih =>
    rw [write, write]
    refine Agree.bind (.refl _) fun items => ?_
    exact agree_items (fun path item => ih (hs.part .greedy) path item) _ _
  | sequence types ih =>
    rw [write, write]
    refine Agree.bind (.refl _) fun items => ?_
    by_cases harity : items.length ≠ types.length
    · simp only [if_pos harity]
      exact .failed
    · simp only [if_neg harity]
      exact agree_sequence (fun type ht path value => ih type ht
        (hs.part (.item ht)) path value) _ _ _
  | switch on cases default ihc ihd =>
    rw [write, write]
    refine Agree.bind (.refl _) fun discriminant => agree_case path discriminant value ?_ ?_
    · exact fun case hc => ihc case hc (hs.part (.case hc)) path value
    · exact fun type ht => ihd type ht (hs.part (.default ht)) path value
  | conditional condition yes no ihy ihn =>
    have hsame : condition (scope.under c.looser) = condition scope := hs.here.indifferent scope ho
    rw [write, write, hsame]
    refine Agree.bind (.refl _) fun truth => ?_
    cases truth with
    | false => exact ihn (hs.part .no) path value
    | true => exact ihy (hs.part .yes) path value
  | select alternatives => exact absurd rfl (hs.here.noSelection alternatives)
  | checked relation holds inner ih =>
    have hsame : holds value (scope.under c.looser) = holds value scope :=
      hs.here.indifferent value scope ho
    rw [write, write, hsame]
    split
    · exact ih (hs.part .checked) path value
    · exact .failed
  | padded size inner ih =>
    rw [write, write]
    exact (ih (hs.part .padded) path value).bind fun content => .refl _
  | lazy slot =>
    rw [write, write]
    refine agree_descend hctx path fun write write' hwrite => ?_
    rw [hctx.definitions]
    exact hwrite _ _ _ _ _ (hs.part .lazy) ho

end WriteContext

theorem FieldType.writerAgrees_writeAt {c : Comparison} (codec codec' : Codec)
    (hd : codec'.definitions = codec.definitions)
    (constantBytes constantBytes' : FieldType → Value → Option Bytes)
    (n m : Nat) (hlevels : n + c.looser.maxDepth = m + c.options.maxDepth) :
    c.WriterAgrees codec (writeAt codec constantBytes n) (writeAt codec' constantBytes' m) := by
  have hwrite {below below' : Option Writer}
      (hctx : c.Writing ⟨codec, constantBytes, below⟩ ⟨codec', constantBytes', below'⟩) :
      c.WriterAgrees codec (WriteContext.write ⟨codec, constantBytes, below⟩)
        (WriteContext.write ⟨codec', constantBytes', below'⟩) :=
    fun _ type path value _ hs ho => WriteContext.agree_write hctx type hs ho path value
  refine c.levels (P := fun n m => c.WriterAgrees codec (writeAt codec constantBytes n)
    (writeAt codec' constantBytes' m)) (hwrite ⟨hd, nofun, fun _ => .inl rfl⟩)
    (fun hne m => hwrite ⟨hd, nofun, fun _ => .inr hne⟩)
    (fun n m ih => hwrite ⟨hd, ?_, nofun⟩) n m hlevels
  rintro _ ⟨⟩
  exact ⟨_, rfl, ih⟩

-- ---------------------------------------------------------------------------
-- Records inside one another
-- ---------------------------------------------------------------------------

/-- No value of the type has a record in it. -/
def FieldType.HoldsNoRecord : FieldType → Prop
  | .int .. | .float _ | .text | .id | .reversedId | .bytes _ | .bool .. | .flags _ | .packed _ =>
    True
  | _ => False

mutual

/-- At most `n` records lie inside one another in the value, by the types of its parts. A
packed unit is no record. -/
inductive Nests (definitions : Nat → FieldType) : Nat → FieldType → Scope → Value → Prop
  | leaf {n type scope value} : type.HoldsNoRecord → Nests definitions n type scope value
  | const {n inner expected scope value} : Nests definitions n inner scope value →
      Nests definitions n (.const inner expected) scope value
  | enum {n repr variants scope name raw} : Nests definitions n repr scope raw →
      Nests definitions n (.enum repr variants) scope (.enum name raw)
  | record {n name fields scope document} :
      NestsFields definitions n scope.child fields .empty document →
      Nests definitions (n + 1) (.record name fields) scope (.struct document)
  | array {n length element scope items} :
      (∀ item ∈ items, Nests definitions n element scope item) →
      Nests definitions n (.array length element) scope (.array items)
  | greedy {n element scope items} : (∀ item ∈ items, Nests definitions n element scope item) →
      Nests definitions n (.greedy element) scope (.array items)
  | sequence {n types scope items} : types.length = items.length →
      (∀ part ∈ types.zip items, Nests definitions n part.1 scope part.2) →
      Nests definitions n (.sequence types) scope (.array items)
  | switch {n on cases default scope discriminant type value} :
      scope.resolve on = .ok discriminant →
      FieldType.pick? cases default discriminant = some type →
      Nests definitions n type scope value →
      Nests definitions n (.switch on cases default) scope value
  | conditional {n condition yes no scope truth value} : condition scope = .ok truth →
      Nests definitions n (if truth then yes else no) scope value →
      Nests definitions n (.conditional condition yes no) scope value
  | checked {n relation holds inner scope value} : Nests definitions n inner scope value →
      Nests definitions n (.checked relation holds inner) scope value
  | padded {n size inner scope value} : Nests definitions n inner scope value →
      Nests definitions n (.padded size inner) scope value
  | lazy {m n slot scope value} : m ≤ n → Nests definitions m (definitions slot) scope value →
      Nests definitions n (.lazy slot) scope value

/-- The same for the fields of a record after those of a document, each in the scope of
the fields before it. -/
inductive NestsFields (definitions : Nat → FieldType) :
    Nat → (Document → Scope) → List (String × FieldType) → Document → Document → Prop
  | nil {n scope document} : NestsFields definitions n scope [] document document
  | cons {n scope name type fields document value final} :
      Nests definitions n type (scope document) value →
      NestsFields definitions n scope fields (document.insert name value) final →
      NestsFields definitions n scope ((name, type) :: fields) document final

end

theorem FieldsLie.nests {definitions : Nat → FieldType} {layout : Layout}
    (h : ∀ type scope left value cells, layout type scope left value cells →
      Nests definitions n type scope value)
    (hl : FieldsLie layout scope fields before left document cells) :
    NestsFields definitions n scope fields before document := by
  induction hl with
  | nil => exact .nil
  | cons hvalue _ ih => exact .cons (h _ _ _ _ _ hvalue) ih

namespace FieldType

theorem SequenceLies.nests {codec : Codec} {types : List FieldType}
    (h : ∀ type ∈ types, ∀ left value cells, Lies codec deeper type scope left value cells →
      Nests codec.definitions n type scope value)
    (hl : SequenceLies codec deeper types scope left items cells) :
    types.length = items.length ∧
      ∀ part ∈ types.zip items, Nests codec.definitions n part.1 scope part.2 := by
  induction types generalizing items cells with
  | nil =>
    obtain ⟨rfl, -⟩ := hl
    exact ⟨rfl, nofun⟩
  | cons type types ih =>
    obtain ⟨htype, htypes⟩ := List.forall_mem_cons.mp h
    obtain ⟨value, rest, first, others, rfl, rfl, hvalue, hrest⟩ := hl
    obtain ⟨hlength, hparts⟩ := ih htypes hrest
    exact ⟨congrArg (· + 1) hlength, List.forall_mem_cons.mpr ⟨htype _ _ _ hvalue, hparts⟩⟩

theorem Lies.nests {codec : Codec} {deeper : Option Layout}
    (hd : ∀ layout ∈ deeper, ∃ m, n = m + 1 ∧ ∀ type scope left value cells,
      layout type scope left value cells → Nests codec.definitions m type scope value)
    {type : FieldType} (h : Lies codec deeper type scope left value cells) :
    Nests codec.definitions n type scope value := by
  induction type using FieldType.induction generalizing left value cells with
  | int | float | text | id | reversedId | bytes | bool | flags | packed => exact .leaf trivial
  | const inner expected ih => exact .const (ih h.1)
  | enum repr variants ih =>
    obtain ⟨raw, hraw, rfl⟩ := h
    exact .enum (ih hraw)
  | record name fields =>
    obtain ⟨layout, hlayout, document, hfields, rfl⟩ := h
    obtain ⟨m, rfl, hbelow⟩ := hd layout hlayout
    exact .record (hfields.nests hbelow)
  | array length element ih =>
    obtain ⟨items, rfl, ⟨-, hitems⟩ | ⟨-, hitems⟩⟩ := h
    · exact .array (hitems.forall fun _ _ _ => ih)
    · exact .array (hitems.forall fun _ _ _ => ih)
  | greedy element ih =>
    obtain ⟨items, rfl, hitems⟩ := h
    exact .greedy (hitems.forall fun _ _ _ => ih)
  | sequence types ih =>
    obtain ⟨items, rfl, hitems⟩ := h
    obtain ⟨hlength, hparts⟩ := hitems.nests fun type ht _ _ _ => ih type ht
    exact .sequence hlength hparts
  | switch on cases default ihc ihd =>
    obtain ⟨discriminant, type, hon, hpick, hvalue⟩ := switch_lies_iff.mp h
    refine .switch hon hpick ?_
    obtain ⟨case, hc, rfl⟩ | ht := mem_of_pick? hpick
    · exact ihc case hc hvalue
    · exact ihd type ht hvalue
  | conditional condition yes no ihy ihn =>
    obtain ⟨htruth, hvalue⟩ | ⟨htruth, hvalue⟩ := h
    · exact .conditional htruth (ihy hvalue)
    · exact .conditional htruth (ihn hvalue)
  | select alternatives => exact h.elim
  | checked relation holds inner ih => exact .checked (ih h.1)
  | padded size inner ih =>
    obtain ⟨content, -, hvalue, -⟩ := h
    exact .padded (ih hvalue)
  | lazy slot =>
    obtain ⟨layout, hlayout, hvalue⟩ := h
    obtain ⟨m, rfl, hbelow⟩ := hd layout hlayout
    exact .lazy (Nat.le_succ m) (hbelow _ _ _ _ _ hvalue)

/-- With so many levels left, no more records than that lie inside one another. -/
theorem LiesAt.nests {codec : Codec} {n : Nat} (type : FieldType) (scope : Scope) (left : Nat)
    (value : Value) (cells : Cells) (h : LiesAt codec n type scope left value cells) :
    Nests codec.definitions n type scope value := by
  induction n generalizing type scope left value cells with
  | zero =>
    refine Lies.nests ?_ h
    rintro _ ⟨⟩
  | succ n ih =>
    refine Lies.nests ?_ h
    rintro _ ⟨⟩
    exact ⟨n, rfl, ih⟩

end FieldType

namespace Schema

theorem agree_encode {schema : Schema} {c : Comparison}
    (hs : schema.Everywhere (c.Covers (schema.codec c.options))) (document : Document) :
    c.Agree (schema.encode c.options document) (schema.encode c.looser document) := by
  have hwrite := FieldType.writerAgrees_writeAt (schema.codec c.options) (schema.codec c.looser) rfl
    (FieldType.constantBytes (schema.codec c.options))
    (FieldType.constantBytes (schema.codec c.looser)) _ _
    (Nat.add_comm c.options.maxDepth c.looser.maxDepth)
  have ho : (Scope.root document c.options).options = c.options := rfl
  refine hwrite.fields (fun field hf => ?_) ho _
  exact hs.field hf

/-- Under looser options a document has the same bytes and bytes hold the same document,
and what decodes or encodes under these does so under the stricter ones, unless a limit is
reached, a table lacks an entry or bytes are left over. The records of a document lie inside
one another no deeper than the options allow. -/
theorem decode_encode_of_loosens {schema : Schema} (hn : schema.Everywhere Site.NoSelection)
    {options looser : CodecOptions}
    (hi : schema.Everywhere fun site => site.type.Indifferent options looser)
    (h : options.LoosensTo looser) :
    (∀ bytes document, schema.decode options bytes = .ok document →
      schema.decode looser bytes = .ok document) ∧
    (∀ bytes document, schema.decode looser bytes = .ok document →
      schema.decode options bytes = .ok document ∨
        ∃ error, schema.decode options bytes = .error error ∧
        (error.IsLimit ∨ ∃ offset left, error = .trailingData offset left)) ∧
    (∀ document bytes, schema.encode options document = .ok bytes →
      schema.encode looser document = .ok bytes) ∧
    (∀ document bytes, schema.encode looser document = .ok bytes →
      schema.encode options document = .ok bytes ∨
        ∃ error, schema.encode options document = .error error ∧
        error.IsLimit) ∧
    ∀ bytes document, schema.decode options bytes = .ok document →
      NestsFields schema.definitions options.maxDepth
        (Scope.root · options) schema.fields .empty document := by
  have hcovers := covers_loosened hn hi h (schema.codec options)
  have hlimit {error : CodecError} (he : (Comparison.loosened h).Excuses error) :
      error.IsLimit := by
    obtain ⟨-, he⟩ | ⟨hmore, -⟩ := he
    · exact he
    · exact absurd rfl hmore
  refine ⟨fun bytes document hd => ?_, fun bytes document hd => ?_, fun document bytes he => ?_,
    fun document bytes he => ?_, fun bytes document hd => ?_⟩
  · obtain ⟨stop, hrun, hstop⟩ := decode_ok.mp hd
    exact decode_ok.mpr ⟨stop, decoder_of_loosens hn hi h hrun, hstop.imp_right h.allowTrailing⟩
  · obtain ⟨stop, hrun, -⟩ := decode_ok.mp hd
    have hrun : schema.decoder looser ((Place.start bytes).withMore []) = .ok document stop := by
      rwa [Place.withMore_nil]
    obtain ⟨stop, hrun, -⟩ | ⟨error, stop, hrun, he⟩ := (follows_decoder hcovers).ok_or_excused hrun
    · by_cases hrest : stop.rest = [] ∨ options.allowTrailing = true
      · exact .inl (decode_ok.mpr ⟨stop, hrun, hrest⟩)
      · obtain ⟨hrest, ht⟩ := not_or.mp hrest
        exact .inr ⟨_, decode_of_trailing hrun hrest (by simpa using ht), .inr ⟨_, _, rfl⟩⟩
    · exact .inr ⟨error, decode_of_error hrun, .inl (hlimit he)⟩
  · exact (agree_encode hcovers document).ok_of_ok he
  · obtain hok | ⟨error, herror, he⟩ := (agree_encode hcovers document).ok_or_excused he
    · exact .inl hok
    · exact .inr ⟨error, herror, hlimit he⟩
  · obtain ⟨stop, hrun, -⟩ := decode_ok.mp hd
    obtain ⟨_, _, -, -, hlies⟩ := (reads_fields hn options _ _ _).mp hrun
    exact hlies.nests FieldType.LiesAt.nests

/-- No records, and no more than two items. -/
def strict : CodecOptions := { maxElements := 2, maxDepth := 0 }

theorem decode_encode_of_loosens_countedBlock : strict.LoosensTo {} ∧
    countedBlock.decode {} [2, 7, 8, 9, 9] =
      .ok ⟨[("count", .int 2), ("block", .array [.int 7, .int 8])]⟩ ∧
    (∃ error, countedBlock.decode strict [3, 7, 8, 9, 9] = .error error ∧
      (error.IsLimit ∨ ∃ offset left, error = .trailingData offset left)) ∧
    (∃ error, countedBlock.encode strict
      ⟨[("count", .int 3), ("block", .array [.int 7, .int 8, .int 9])]⟩ = .error error ∧
        error.IsLimit) ∧
    NestsFields countedBlock.definitions 0 (Scope.root · strict) countedBlock.fields .empty
      ⟨[("count", .int 2), ("block", .array [.int 7, .int 8])]⟩ := by
  have hl : strict.LoosensTo {} := ⟨by decide, by decide, nofun, nofun⟩
  have hn : countedBlock.Everywhere Site.NoSelection := countedBlock_everywhere nofun nofun nofun
  have hi := countedBlock_everywhere (P := fun site => site.type.Indifferent strict {})
    (fun _ _ _ => trivial) trivial fun _ _ _ => trivial
  have hd : countedBlock.decode strict [2, 7, 8, 9, 9] =
    .ok ⟨[("count", .int 2), ("block", .array [.int 7, .int 8])]⟩ := rfl
  have hd' : countedBlock.decode {} [3, 7, 8, 9, 9] =
    .ok ⟨[("count", .int 3), ("block", .array [.int 7, .int 8, .int 9])]⟩ := rfl
  have he :
      countedBlock.encode {} ⟨[("count", .int 3), ("block", .array [.int 7, .int 8, .int 9])]⟩ =
    .ok [3, 7, 8, 9, 0] := rfl
  obtain ⟨hdecode, hrefused, -, hunwritten, hnests⟩ := decode_encode_of_loosens hn hi hl
  exact ⟨hl, hdecode _ _ hd, (hrefused _ _ hd').resolve_left nofun,
    (hunwritten _ _ he).resolve_left nofun, hnests _ _ hd⟩

end Schema

end Mapsmith
