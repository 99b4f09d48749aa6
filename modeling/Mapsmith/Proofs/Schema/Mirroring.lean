import Mapsmith.Proofs.Schema.Limits

/-!
# Documents mirror their schema

`Schema.mirrors_of_decode`: what a schema says of a document can be read off the document once
it is finished: the names of each record, the kind of each value, the constants, and how many
items there are. The decoder decides all this when it has read no more than the fields before,
so that counts are the only part that later fields could upset.
-/

namespace Mapsmith

-- ---------------------------------------------------------------------------
-- The judgment
-- ---------------------------------------------------------------------------

mutual

/-- A value is what its type asks for. The decoder had `early` in sight when it came to the
value, and `final` is the same once all records are finished: the first is what decided
between types and was checked, the second is what counts are compared with. -/
inductive Mirrors (definitions : Nat → FieldType) : FieldType → Scope → Scope → Value → Prop
  | int {kind order early final n} : kind.min ≤ n.toInt → n.toInt ≤ kind.max →
      Mirrors definitions (.int kind order) early final (.int n)
  | float {order early final bits} : Mirrors definitions (.float order) early final (.float bits)
  | text {early final content} : Mirrors definitions .text early final (.str content)
  | id {early final code} : Mirrors definitions .id early final (.id code)
  | reversedId {early final code} : Mirrors definitions .reversedId early final (.id code)
  | bytes {length early final content} :
      (length ≠ .remaining → length.Asks final (some content.length)) →
      Mirrors definitions (.bytes length) early final (.bytes content)
  | const {inner expected early final value} : Mirrors definitions inner early final value →
      (value == expected) = true → Mirrors definitions (.const inner expected) early final value
  | bool {kind order no yes early final b} :
      Mirrors definitions (.bool kind order no yes) early final (.bool b)
  | enum {repr variants early final raw} : Mirrors definitions repr early final raw →
      Mirrors definitions (.enum repr variants) early final
      (.enum (FieldType.variantName? variants raw) raw)
  | flags {set early final} {bits : UInt64} : bits.toNat < 2 ^ set.kind.width →
      Mirrors definitions (.flags set) early final (.flags bits (set.namesOf bits))
  | record {name fields early final document} :
      MirrorsFields definitions early.child (final.child document) fields document →
      Mirrors definitions (.record name fields) early final (.struct document)
  | array {length element early final items} :
      (length ≠ .remaining → length.Asks final (some items.length)) →
      (∀ item ∈ items, Mirrors definitions element early final item) →
      Mirrors definitions (.array length element) early final (.array items)
  | greedy {element early final items} :
      (∀ item ∈ items, Mirrors definitions element early final item) →
      Mirrors definitions (.greedy element) early final (.array items)
  | sequence {types early final items} : types.length = items.length →
      (∀ part ∈ types.zip items, Mirrors definitions part.1 early final part.2) →
      Mirrors definitions (.sequence types) early final (.array items)
  | switch {on cases default early final discriminant type value} :
      early.resolve on = .ok discriminant →
      final.resolve on = .ok discriminant → FieldType.pick? cases default discriminant = some type →
      Mirrors definitions type early final value →
      Mirrors definitions (.switch on cases default) early final value
  | conditional {condition yes no early final truth value} : condition early = .ok truth →
      Mirrors definitions (if truth then yes else no) early final value →
      Mirrors definitions (.conditional condition yes no) early final value
  | select {alternatives early final type value} : type ∈ alternatives →
      Mirrors definitions type early final value →
      Mirrors definitions (.select alternatives) early final value
  | checked {relation holds inner early final value} : Mirrors definitions inner early final value →
      holds value early = true →
      Mirrors definitions (.checked relation holds inner) early final value
  | padded {size inner early final value} : Mirrors definitions inner early final value →
      Mirrors definitions (.padded size inner) early final value
  | packed {unit early final words} :
      List.Forall₂ (fun (field : PackedField) word => word.toNat <
        2 ^ field.width.toNat) unit.fields words →
      Mirrors definitions (.packed unit) early final (.struct ⟨unit.entries words⟩)
  | lazy {slot early final value} : Mirrors definitions (definitions slot) early final value →
      Mirrors definitions (.lazy slot) early final value

/-- The entries of a document are those of the fields, in their order, and each value is what
its type asks for when the entries before it have been seen. -/
inductive MirrorsFields (definitions : Nat → FieldType) :
    (Document → Scope) → Scope → List (String × FieldType) → Document → Prop
  | intro {scope final fields document} : document.names = fields.map Prod.fst →
      (∀ i field entry, fields[i]? = some field → document.entries[i]? = some entry →
        Mirrors definitions field.2 (scope ⟨document.entries.take i⟩) final entry.2) →
      MirrorsFields definitions scope final fields document

end

/-- What a length of the type asks for stays when later fields are added. -/
def FieldType.CountsStay : FieldType → Prop
  | .bytes length | .array length _ => length.Keeps
  | _ => True

/-- A site where a finished document shows what was read. -/
structure Site.Steady (site : Site) : Prop where
  names : site.NamesDistinct
  counts : site.type.CountsStay

/-- The value mirrors its type whatever the scope grows to. -/
def MirrorsOnceGrown (definitions : Nat → FieldType) (type : FieldType) (early : Scope)
    (value : Value) : Prop :=
  ∀ final : Scope, early.GrowsTo final → Mirrors definitions type early final value

/-- A reader of values that mirror their types. -/
def ReadsMirrors (definitions : Nat → FieldType) (read : ValueReader) : Prop :=
  ∀ seen type, Site.Everywhere definitions Site.Steady ⟨seen, type⟩ →
    ∀ scope, (read type scope).Gives fun _ value _ => MirrorsOnceGrown definitions type scope value

-- ---------------------------------------------------------------------------
-- Records
-- ---------------------------------------------------------------------------

section

variable {P : FieldType → Scope → Value → Prop} {scope : Document → Scope}
    {fields : List (String × FieldType)}

/-- What holds of each field in the scope of those before it, said of the entries of the
finished document. -/
theorem FieldsLie.holds_at (before : Document)
    (h : FieldsLie (fun type scope _ value _ => P type scope value) scope fields before left
      final cells)
    (hn : (before.names ++ fields.map Prod.fst).Nodup) {i : Nat} (hfield : fields[i]? = some field)
    (hentry : final.entries[before.entries.length + i]? = some entry) :
    P field.2 (scope ⟨final.entries.take (before.entries.length + i)⟩) entry.2 := by
  induction h generalizing i with
  | nil => simp at hfield
  | @cons name type fields before left value cells final rest hvalue hlie ih =>
    obtain ⟨hnew, hn⟩ := Document.nodup_step value hn
    obtain ⟨later, hlater⟩ := (FieldsLie.names _ hlie hn).1
    rw [Document.insert_of_notMem hnew] at hlater
    cases i with
    | zero =>
      obtain rfl : (name, type) = field := by simpa using hfield
      obtain rfl : (name, value) = entry := by simpa [← hlater] using hentry
      obtain ⟨entries⟩ := before
      simpa [← hlater] using hvalue
    | succ i =>
      have hlength : before.entries.length + (i + 1) =
          (before.insert name value).entries.length + i := by
        rw [Document.insert_of_notMem hnew, List.length_append, List.length_singleton]
        omega
      rw [hlength] at hentry ⊢
      exact ih hn (by simpa using hfield) hentry

/-- A record that was read mirrors its fields, in any scope to which each field's scope grows. -/
theorem Decoder.mirrors_of_readFields {read : ValueReader} (hn : (fields.map Prod.fst).Nodup)
    (h : ∀ field ∈ fields, ∀ document, (read field.2 (scope document)).Gives fun _ value _ =>
      MirrorsOnceGrown definitions field.2 (scope document) value)
    (hrun : readFields read scope fields .empty start = .ok document stop) :
    ∃ taken, start.Takes taken stop ∧ ∀ whole : Scope,
      (∀ before, before.Before document → (scope before).GrowsTo whole) →
        MirrorsFields definitions scope whole fields document := by
  obtain ⟨taken, htakes, hlie⟩ : ∃ taken, start.Takes taken stop ∧
      FieldsLie (fun type scope _ value _ => MirrorsOnceGrown definitions type scope value)
      scope fields .empty stop.rest.length document (.of taken) :=
    Gives.fields h .empty _ _ _ hrun
  refine ⟨taken, htakes, fun whole hgrows => .intro
    (hlie.names_eq hn) fun i field entry hfield hentry => ?_⟩
  have hzero : Document.empty.entries.length + i = i := Nat.zero_add i
  have hvalue := FieldsLie.holds_at .empty hlie hn hfield (hzero.symm ▸ hentry)
  rw [hzero] at hvalue
  exact hvalue whole (hgrows _ (List.take_prefix _ _))

end

-- ---------------------------------------------------------------------------
-- Types
-- ---------------------------------------------------------------------------

theorem Length.Asks.of_growsTo {length : Length} (hl : length.Keeps) {early final : Scope}
    (h : early.GrowsTo final) (hasks : length.Asks early (some n) ∨ length.Asks early none) :
    length ≠ .remaining → length.Asks final (some n) := by
  intro hne
  exact hl.asks h (hasks.resolve_right (Length.not_asks_none hne))

theorem FlagSet.toNat_decode_lt (set : FlagSet) {word : Bytes} (h : word.length = set.kind.size) :
    (UInt64.ofNat (set.order.decode word)).toNat < 2 ^ set.kind.width := by
  have hlt := set.order.decode_lt word
  rw [h, show 256 = 2 ^ 8 from rfl, Nat.pow_eq, ← Nat.pow_mul] at hlt
  rw [UInt64.toNat_ofNat']
  exact Nat.lt_of_le_of_lt (Nat.mod_le _ _) hlt

theorem PackedUnit.toNat_lt_of_split (unit : PackedUnit) (h : unit.check = .ok ()) (bytes : Bytes) :
    List.Forall₂ (fun (field : PackedField) word => word.toNat < 2 ^ field.width.toNat) unit.fields
      (unit.split bytes) := by
  have hwidth := (check_ok_iff.mp h).widths
  refine ((List.forall₂_and_left _ _).mpr ⟨hwidth, unit.fits_split bytes⟩).imp ?_
  rintro field word ⟨hw, hfits⟩
  exact toNat_lt_two_pow_of_fits hw hfits

open Decoder in
theorem ReadContext.gives_sequence {ctx : ReadContext} {P : FieldType → Value → Prop}
    (h : ∀ type ∈ types, (ctx.read type scope).Gives fun _ value _ => P type value)
    (hrun : ctx.readSequence index types scope start = .ok items stop) :
    ∃ taken, start.Takes taken stop ∧ types.length = items.length ∧
      ∀ part ∈ types.zip items, P part.1 part.2 := by
  induction types generalizing index start items with
  | nil =>
    obtain ⟨rfl, rfl⟩ := pure_run.mp hrun
    exact ⟨[], .refl _, rfl, nofun⟩
  | cons type types ih =>
    obtain ⟨htype, htypes⟩ := List.forall_mem_cons.mp h
    rw [readSequence] at hrun
    obtain ⟨item, middle, hitem, hrun⟩ := bind_run.mp hrun
    obtain ⟨rest, hrest, rfl⟩ := map_run.mp hrun
    obtain ⟨first, htakes, hvalue⟩ := htype.within _ _ _ _ hitem
    obtain ⟨second, htakes', hlength, hparts⟩ := ih htypes hrest
    exact ⟨first ++ second, htakes.trans htakes', congrArg (· + 1) hlength,
      List.forall_mem_cons.mpr ⟨hvalue, hparts⟩⟩

namespace FieldType

/-- A value without parts mirrors its type by where it lies. -/
theorem Lies.mirrors {codec : Codec} {deeper : Option Layout} (hs : Site.Steady ⟨seen, type⟩)
    (hleaf : type.HoldsNoRecord) (h : Lies codec deeper type scope left value cells) :
    MirrorsOnceGrown codec.definitions type scope value := by
  intro final hgrows
  cases type with
  | int kind order =>
    obtain ⟨word, hlength, -, rfl⟩ := h
    obtain ⟨hmin, hmax⟩ := kind.decode_bounds order hlength
    rw [← kind.toInt_ofInt_decode order hlength] at hmin hmax
    exact .int hmin hmax
  | float order =>
    obtain ⟨_, _, _, rfl⟩ := h
    exact .float
  | text =>
    obtain ⟨_, _, _, rfl⟩ := h
    exact .text
  | id =>
    obtain ⟨_, _, rfl⟩ := h
    exact .id
  | reversedId =>
    obtain ⟨_, _, rfl⟩ := h
    exact .reversedId
  | bytes length =>
    obtain ⟨content, -, rfl, hasks⟩ := h
    exact .bytes (.of_growsTo hs.counts hgrows (hasks.imp_right And.left))
  | bool kind order no yes =>
    obtain ⟨_, _, _, ⟨_, rfl⟩ | ⟨_, _, rfl⟩⟩ := h
    · exact .bool
    · exact .bool
  | flags set =>
    obtain ⟨word, hlength, -, rfl⟩ := h
    exact .flags (set.toNat_decode_lt hlength)
  | packed unit =>
    obtain ⟨hcheck, word, -, -, rfl⟩ := h
    rw [PackedUnit.value_eq hs.names]
    exact .packed (unit.toNat_lt_of_split hcheck word)
  | _ => exact hleaf.elim

theorem not_part_of_holdsNoRecord (hleaf : type.HoldsNoRecord) :
    ¬Site.Part definitions ⟨seen, type⟩ other := by
  intro hp
  cases hp <;> exact hleaf

variable {codec : Codec} {levels : Nat}

theorem gives_mirrored (hs : Site.Steady ⟨seen, type⟩) (hleaf : type.HoldsNoRecord) :
    (readAt codec levels type scope).Gives fun _ value _ =>
      MirrorsOnceGrown codec.definitions type scope value := by
  intro start value stop hrun
  have hn : Site.Everywhere codec.definitions Site.NoSelection ⟨seen, type⟩ := by
    refine .intro ?_ fun other hp => absurd hp (not_part_of_holdsNoRecord hleaf)
    rintro _ ⟨⟩
    exact hleaf
  obtain ⟨deeper, taken, cells, htakes, -, hlies⟩ := readAt_plain_run hn hrun
  exact ⟨taken, htakes, Lies.mirrors hs hleaf hlies⟩

open Decoder in
theorem readsMirrors_of_deeper (levels : Nat) (ctx : ReadContext)
    (hr : ctx.read = readAt codec levels)
    (hc : ctx.codec = codec) (hd : ∀ read ∈ ctx.deeper, ReadsMirrors codec.definitions read) :
    ReadsMirrors codec.definitions ctx.read := by
  intro seen type hs scope
  -- Fields and lazy types are read one level down, where `hd` speaks of them.
  induction type using FieldType.induction generalizing scope with
  | int | float | text | id | reversedId | bytes | bool | flags | packed =>
    rw [hr]
    exact gives_mirrored hs.here trivial
  | const inner expected ih =>
    intro start value stop hrun
    rw [ReadContext.read, readConst_ok_iff] at hrun
    obtain ⟨taken, htakes, hvalue⟩ := ih (hs.part .const) scope _ _ _ hrun.1
    exact ⟨taken, htakes, fun final hgrows => .const (hvalue final hgrows) hrun.2⟩
  | enum repr variants ih =>
    intro start value stop hrun
    rw [ReadContext.read] at hrun
    obtain ⟨raw, hraw, rfl⟩ := map_run.mp hrun
    obtain ⟨taken, htakes, hvalue⟩ := ih (hs.part .enum) scope _ _ _ hraw
    exact ⟨taken, htakes, fun final hgrows => .enum (hvalue final hgrows)⟩
  | record name fields =>
    intro start value stop hrun
    rw [ReadContext.read, ReadContext.descend_run] at hrun
    obtain ⟨read, hread, hrun⟩ := hrun
    obtain ⟨document, hfields, rfl⟩ := map_run.mp hrun
    obtain ⟨taken, htakes, hmirrors⟩ :=
      mirrors_of_readFields hs.here.names (fun field hf document => by
      obtain ⟨_, hfield⟩ := hs.field hf
      exact hd read hread _ _ hfield _) hfields
    exact ⟨taken, htakes, fun final hgrows => .record
      (hmirrors _ fun before hbefore => hgrows.child hbefore)⟩
  | array length element ih =>
    have helement := ih (hs.part .element) scope
    intro start value stop hrun
    obtain ⟨items, rfl, ⟨n, hasks, hitems⟩ | ⟨hasks, hitems⟩⟩ := ReadContext.read_items_run.mp hrun
    · obtain ⟨taken, htakes, rest, rfl, hlie, rfl⟩ := Gives.times helement n 0 [] _ _ _ hitems
      exact ⟨taken, htakes, fun final hgrows => .array
        (.of_growsTo hs.here.counts hgrows (.inl hasks))
        (hlie.forall fun _ _ _ hvalue => hvalue final hgrows)⟩
    · obtain ⟨taken, htakes, rest, hlie, rfl⟩ := Gives.greedy helement _ 0 [] (Nat.le_refl _) hitems
      exact ⟨taken, htakes, fun final hgrows => .array
        (.of_growsTo hs.here.counts hgrows (.inr hasks))
        (hlie.forall fun _ _ _ hvalue => hvalue final hgrows)⟩
  | greedy element ih =>
    intro start value stop hrun
    obtain ⟨items, hitems, rfl⟩ := ReadContext.read_greedy_run.mp hrun
    obtain ⟨taken, htakes, rest, hlie, rfl⟩ :=
      Gives.greedy (ih (hs.part .greedy) scope) _ 0 [] (Nat.le_refl _) hitems
    exact ⟨taken, htakes, fun final hgrows =>
      .greedy (hlie.forall fun _ _ _ hvalue => hvalue final hgrows)⟩
  | sequence types ih =>
    intro start value stop hrun
    rw [ReadContext.read] at hrun
    obtain ⟨items, hitems, rfl⟩ := map_run.mp hrun
    obtain ⟨taken, htakes, hlength, hparts⟩ :=
      ReadContext.gives_sequence (fun type ht => ih type ht (hs.part (.item ht)) scope) hitems
    exact ⟨taken, htakes, fun final hgrows => .sequence hlength fun part hp =>
      hparts part hp final hgrows⟩
  | switch on cases default ihc ihd =>
    intro start value stop hrun
    obtain ⟨discriminant, type, hon, hpick, hrun⟩ := ReadContext.read_switch_run.mp hrun
    obtain ⟨taken, htakes, hvalue⟩ : ∃ taken, start.Takes taken stop ∧
        MirrorsOnceGrown codec.definitions type scope value := by
      rcases mem_of_pick? hpick with ⟨case, hcase, rfl⟩ | htype
      · exact ihc case hcase (hs.part (.case hcase)) scope _ _ _ hrun
      · exact ihd type htype (hs.part (.default htype)) scope _ _ _ hrun
    exact ⟨taken, htakes, fun final hgrows => .switch hon (hgrows.resolve hon) hpick
      (hvalue final hgrows)⟩
  | conditional condition yes no ihy ihn =>
    intro start value stop hrun
    rw [ReadContext.read, bind_run] at hrun
    obtain ⟨truth, middle, hlift, hrun⟩ := hrun
    obtain ⟨htruth, rfl⟩ := lift_run.mp hlift
    rw [answered_ok] at htruth
    obtain ⟨taken, htakes, hvalue⟩ : ∃ taken, middle.Takes taken stop ∧
        MirrorsOnceGrown codec.definitions (if truth then yes else no) scope value := by
      cases truth with
      | true => exact ihy (hs.part .yes) scope _ _ _ hrun
      | false => exact ihn (hs.part .no) scope _ _ _ hrun
    exact ⟨taken, htakes, fun final hgrows => .conditional htruth (hvalue final hgrows)⟩
  | select alternatives ih =>
    intro start value stop hrun
    rw [ReadContext.read] at hrun
    obtain ⟨type, hfirst, hrun⟩ := ReadContext.first_of_readFirst hrun
    obtain ⟨taken, htakes, hvalue⟩ :=
      ih type hfirst.mem (hs.part (.alternative hfirst.mem)) scope _ _ _ hrun
    exact ⟨taken, htakes, fun final hgrows => .select hfirst.mem (hvalue final hgrows)⟩
  | checked relation holds inner ih =>
    intro start value stop hrun
    obtain ⟨hrun, hholds⟩ := ReadContext.read_checked_run.mp hrun
    obtain ⟨taken, htakes, hvalue⟩ := ih (hs.part .checked) scope _ _ _ hrun
    exact ⟨taken, htakes, fun final hgrows => .checked (hvalue final hgrows) hholds⟩
  | padded size inner ih =>
    intro start value stop hrun
    rw [ReadContext.read, readBlock_ok_iff] at hrun
    obtain ⟨hsize, middle, hrun, -, rfl⟩ := hrun
    obtain ⟨content, htakes, hvalue⟩ := ih (hs.part .padded) scope _ _ _ hrun
    refine ⟨start.rest.take size, ?_, fun final hgrows => .padded (hvalue final hgrows)⟩
    refine ⟨(List.take_append_drop size start.rest).symm, ?_, htakes.path⟩
    simp [Place.advance, hsize]
  | lazy slot =>
    intro start value stop hrun
    rw [ReadContext.read, ReadContext.descend_run, hc] at hrun
    obtain ⟨read, hread, hrun⟩ := hrun
    obtain ⟨taken, htakes, hvalue⟩ := hd read hread _ _ (hs.part .lazy) scope _ _ _ hrun
    exact ⟨taken, htakes, fun final hgrows => .lazy (hvalue final hgrows)⟩

theorem readAt_readsMirrors (codec : Codec) (levels : Nat) :
    ReadsMirrors codec.definitions (readAt codec levels) := by
  induction levels with
  | zero => exact readsMirrors_of_deeper 0 ⟨codec, none⟩ rfl rfl nofun
  | succ levels ih =>
    refine readsMirrors_of_deeper (levels + 1) ⟨codec, some _⟩ rfl rfl ?_
    rintro _ ⟨⟩
    exact ih

end FieldType

/-- What a schema says of a document holds of every document that it decodes: at every depth
the names, the kinds of values, the constants and checks, and how many items there are. -/
theorem Schema.mirrors_of_decode {schema : Schema} (hn : (schema.fields.map Prod.fst).Nodup)
    (hs : schema.Everywhere Site.Steady) (h : schema.decode options bytes = .ok document) :
    MirrorsFields schema.definitions (Scope.root · options)
      (.root document options) schema.fields document := by
  obtain ⟨stop, hrun, -⟩ := decode_ok.mp h
  obtain ⟨_, _, hmirrors⟩ := Decoder.mirrors_of_readFields hn (fun field hf document => by
    obtain ⟨_, hfield⟩ := hs.field hf
    exact FieldType.readAt_readsMirrors (schema.codec options) _ _ _ hfield _) hrun
  exact hmirrors _ fun before hbefore => ⟨rfl, hbefore, .nil⟩

/-- As many items as the record around them counts. -/
def tally : Schema where
  name := "Tally"
  fields := [("count", .int .u8 .little), ("body", .record "Body"
    [("items", .array (.computed fun scope => scope.resolveInt ⟨1, ["count"]⟩)
      (.int .u8 .little))])]

theorem tally_steady : tally.Everywhere Site.Steady := by
  have hint (seen : List (List String)) :
      Site.Everywhere tally.definitions Site.Steady ⟨seen, .int .u8 .little⟩ :=
        .intro ⟨trivial, trivial⟩ nofun
  have hcount : (Length.computed fun scope => scope.resolveInt ⟨1, ["count"]⟩).Keeps :=
    fun scope scope' hgrows n hn => Scope.resolveInt_of_resolve
      (fun value hv => ⟨value, hgrows.resolve hv, rfl⟩) hn
  intro before field after heq
  obtain _ | ⟨_, _ | ⟨_, before⟩⟩ := before
  · cases heq
    exact hint _
  · cases heq
    refine .record ⟨List.pairwise_singleton _ _, trivial⟩ fun before field after heq => ?_
    obtain _ | ⟨_, before⟩ := before
    · cases heq
      refine .intro ⟨trivial, hcount⟩ ?_
      rintro _ ⟨⟩
      exact hint _
    · simp at heq
  · simp [tally] at heq

theorem mirrors_of_decode_tally :
    tally.decode {} [2, 7, 8] =
        .ok ⟨[("count", .int 2), ("body", .struct ⟨[("items", .array [.int 7, .int 8])]⟩)]⟩ ∧
      MirrorsFields tally.definitions (Scope.root · {})
        (.root ⟨[("count", .int 2), ("body", .struct ⟨[("items", .array [.int 7, .int 8])]⟩)]⟩ {})
          tally.fields
        ⟨[("count", .int 2), ("body", .struct ⟨[("items", .array [.int 7, .int 8])]⟩)]⟩ := by
  have hd : tally.decode {} [2, 7, 8] =
      .ok ⟨[("count", .int 2), ("body", .struct ⟨[("items", .array [.int 7, .int 8])]⟩)]⟩ := rfl
  exact ⟨hd, Schema.mirrors_of_decode (by decide) tally_steady hd⟩

end Mapsmith
