import Mapsmith.Proofs.Schema.Tasks

/-!
# What encoding and decoding decide

`Schema.decisions_of_encode`: a document that answers as the one does that it is written as is
written by the decisions that decoding makes of the bytes. A document that answers otherwise
need not be: an enumerated value is written by its name, but it counts, and picks the case of a
switch, by its raw value.
-/

namespace Mapsmith

variable {codec : Codec} {sight : Sight}

open Codec

-- ---------------------------------------------------------------------------
-- Tasks of the same part
-- ---------------------------------------------------------------------------

/-- Both tasks are for one part: their types are the same, the value that was read
is what the other one means, and so are the fields in sight as far as they are looked
at. -/
structure Task.Corresponds (codec : Codec) (sight : Sight) (seen : List (List String))
    (writing reading : Task) : Prop where
  type : reading.type = writing.type
  sites : Site.Everywhere codec.definitions (Site.Settled codec sight) ⟨seen, writing.type⟩
  meant : ∃ plain, plain.Same reading.value ∧
    FieldType.Means codec.definitions sight writing.type writing.scope writing.value plain
  scope : writing.scope.Resembles sight (Site.names ⟨seen, writing.type⟩) reading.scope

theorem Side.field?_corresponds (codec : Codec) (seen : List (List String))
    (scope scope' : Document → Scope) {fields : List (String × FieldType)}
    {document plain found : Document}
    (hnames : found.names = fields.map Prod.fst)
    (hdoc : document.Resembles sight (fun _ => True) plain) (hsame : plain.Same found)
    (hheld : ∀ field ∈ fields, (document.held? field).isSome)
    (hm : ∀ field ∈ fields, ∀ value part, document.held? field = some value →
      plain.get? field.1 = some part →
        FieldType.Means codec.definitions sight field.2 (scope document) value part)
    (hs : ∀ before field after, fields = before ++ field :: after →
      Site.Everywhere codec.definitions (Site.Settled codec sight)
        ⟨before.map Prod.fst :: seen, field.2⟩)
    (hscope : ∀ names type part, document.Resembles sight (· ∈ names) part →
      (scope document).Resembles sight (Site.names ⟨names :: seen, type⟩) (scope' part))
    (i : Nat) :
    Option.Rel (fun writing reading => ∃ seen, Task.Corresponds codec sight seen writing reading)
      (encoder.field? fields scope document i) (decoder.field? fields scope' found i) := by
  cases hf : fields[i]? with
  | none =>
    simp only [field?, hf, Option.bind_eq_bind, Option.bind_none]
    exact .none
  | some field =>
    have hmem := List.mem_of_getElem? hf
    obtain ⟨value, hv⟩ := Option.isSome_iff_exists.mp (hheld field hmem)
    obtain ⟨read, hread⟩ := Document.mem_names_iff.mp (hnames ▸ List.mem_map_of_mem hmem)
    have hread' := (Document.held?_of_names hnames hmem).trans hread
    obtain ⟨part, hpart, hpsame⟩ := rel_some_right (hsame.get? field.1) hread
    simp only [field?, hf, hv, hread', Option.bind_eq_bind, Option.bind_some, Option.pure_def]
    obtain ⟨hlt, rfl⟩ := List.getElem?_eq_some_iff.mp hf
    have hsplit : fields = fields.take i ++ fields[i] :: fields.drop (i + 1) := by simp
    refine .some ⟨_, rfl, hs _ _ _ hsplit, ⟨part, hpsame, hm _ hmem value part hv hpart⟩, ?_⟩
    refine hscope _ _ _ fun name value hname hreached hvalue => ?_
    obtain ⟨known, hknown, hres⟩ := hdoc name value trivial hreached hvalue
    obtain ⟨other, hother, hosame⟩ := rel_some (hsame.get? name) hknown
    refine ⟨other, ?_, hres.trans_same hosame⟩
    have hbefore : Document.Before ⟨found.entries.take i⟩ found := List.take_prefix _ _
    have hprefix : name ∈ (⟨found.entries.take i⟩ : Document).names := by
      show name ∈ (found.entries.take i).map Prod.fst
      rw [List.map_take, ← Document.names, hnames, ← List.map_take]
      exact hname
    obtain ⟨early, hearly⟩ := Document.mem_names_iff.mp hprefix
    exact hearly.trans ((hbefore.get? hearly).symm.trans hother)

theorem Value.Same.items {items plains founds : List Value} (hlen : items.length = plains.length)
    (h : List.Forall₂ Value.Same plains founds) (i : Nat) :
    items[i]? = none ∧ founds[i]? = none ∨ ∃ item plain found, items[i]? = some item ∧
      plains[i]? = some plain ∧ founds[i]? = some found ∧ plain.Same found := by
  have hlen' := h.length_eq
  by_cases hi : i < plains.length
  · refine .inr ⟨_, _, _, List.getElem?_eq_getElem (hlen ▸ hi), List.getElem?_eq_getElem hi,
      List.getElem?_eq_getElem (hlen' ▸ hi), h.get hi (hlen' ▸ hi)⟩
  · exact .inl ⟨List.getElem?_eq_none (by omega), List.getElem?_eq_none (by omega)⟩

theorem Task.Corresponds.part {writing reading : Task}
    (h : Corresponds codec sight seen writing reading)
    (hl : reading.Lies codec left cells) (i : Nat) :
    Option.Rel (fun writing reading => ∃ seen, Corresponds codec sight seen writing reading)
      (writing.part? .encoder codec.definitions i)
        (reading.part? .decoder codec.definitions i) := by
  obtain ⟨_, scope, value⟩ := writing
  obtain ⟨type, scope', value'⟩ := reading
  obtain ⟨rfl, hs, ⟨plain, hsame, hm⟩, hscope⟩ := h
  cases hm with
  | const hm _ => exact .some ⟨seen, rfl, hs.part .const, ⟨plain, hsame, hm⟩, hscope⟩
  | @enum repr variants _ _ raw hm =>
    obtain ⟨raw', rfl, hraw⟩ := Value.enum_beq_iff.mp hsame.beq
    exact .some
      ⟨seen, rfl, hs.part .enum, ⟨raw, ⟨hsame.left.of_enum, hsame.right.of_enum, hraw⟩, hm⟩,
      hscope⟩
  | @record _ fields _ document plain hnames hdoc hheld hm =>
    obtain ⟨levels, hl⟩ := hl
    obtain ⟨deeper, hlayout, -⟩ := FieldType.exists_liesAt codec levels
    rw [hlayout] at hl
    obtain ⟨layout, -, found, hfields, rfl⟩ := hl
    obtain ⟨_, ⟨⟩, hdsame⟩ := hsame.asStruct?_some rfl
    refine Side.field?_corresponds codec seen scope.child scope'.child
      (hfields.names_eq hs.here.recovers.names) hdoc hdsame hheld hm ?_ ?_ i
    · rintro before field after rfl
      exact hs.part .field
    · intro names type part hpart
      refine hscope.child (fun name value hn => ?_) fun up name hn => hn
      obtain ⟨_, ⟨⟩, hn⟩ := hn
      exact hpart name value hn
  | @array length element _ items plains hlen hm =>
    obtain ⟨founds, hfounds, hitems⟩ := hsame.asArray?_some rfl
    simp only [part?, Value.asArray?] at hfounds ⊢
    simp only [hfounds, Option.bind_eq_bind, Option.bind_some, Option.pure_def]
    obtain ⟨hi, hf⟩ | ⟨item, plain, found, hi, hp, hf, hisame⟩ := Value.Same.items hlen hitems i
    · simp only [hi, hf, Option.bind_none]
      exact .none
    · simp only [hi, hf, Option.bind_some]
      exact .some ⟨seen, rfl, hs.part .element, ⟨plain, hisame, hm i item plain hi hp⟩, hscope⟩
  | @sequence types _ items plains hlen hplains hm =>
    obtain ⟨founds, hfounds, hitems⟩ := hsame.asArray?_some rfl
    simp only [part?, Value.asArray?] at hfounds ⊢
    simp only [hfounds, Option.bind_eq_bind, Option.bind_some, Option.pure_def]
    cases ht : types[i]? with
    | none => exact .none
    | some type =>
      obtain ⟨hi, hf⟩ | ⟨item, plain, found, hi, hp, hf, hisame⟩ :=
        Value.Same.items (hlen.trans hplains.symm) hitems i
      · simp only [hi, hf, Option.bind_some, Option.bind_none]
        exact .none
      · simp only [hi, hf, Option.bind_some]
        exact .some ⟨seen, rfl, hs.part (.item (List.mem_of_getElem? ht)),
          ⟨plain, hisame, hm i type item plain ht hi hp⟩, hscope⟩
  | switch hdisc hp hm =>
    obtain ⟨discriminant', hdisc', hkeys⟩ :=
      hscope.discriminant hs.here.recovers.looks hs.here.heeds hdisc
    have hp' := (FieldType.pick?_congr _ hkeys).symm.trans hp
    simp only [part?, hdisc, hdisc', hp, hp', Option.map_some]
    rcases FieldType.mem_of_pick? hp with ⟨case, hc, rfl⟩ | ht
    · exact .some ⟨seen, rfl, hs.part (.case hc), ⟨plain, hsame, hm⟩, hscope⟩
    · exact .some ⟨seen, rfl, hs.part (.default ht), ⟨plain, hsame, hm⟩, hscope⟩
  | yes htruth hm =>
    have htruth' := hs.here.heeds _ _ hscope _ htruth
    simp only [part?, htruth, htruth']
    exact .some ⟨seen, rfl, hs.part .yes, ⟨plain, hsame, hm⟩, hscope⟩
  | no htruth hm =>
    have htruth' := hs.here.heeds _ _ hscope _ htruth
    simp only [part?, htruth, htruth']
    exact .some ⟨seen, rfl, hs.part .no, ⟨plain, hsame, hm⟩, hscope⟩
  | checked _ hm => exact .some ⟨seen, rfl, hs.part .checked, ⟨plain, hsame, hm⟩, hscope⟩
  | padded hm => exact .some ⟨seen, rfl, hs.part .padded, ⟨plain, hsame, hm⟩, hscope⟩
  | lazy hm => exact .some ⟨seen, rfl, hs.part .lazy, ⟨plain, hsame, hm⟩, hscope⟩
  | _ => exact .none

/-- Corresponding tasks decide the same, where the one is written. -/
theorem Task.Corresponds.decision {writing reading : Task}
    (h : Corresponds codec sight seen writing reading)
    (hw : writing.Written codec bytes) :
    ∃ decided, writing.decision = .ok decided ∧ reading.decision = .ok decided := by
  obtain ⟨_, scope, value⟩ := writing
  obtain ⟨type, scope', value'⟩ := reading
  obtain ⟨rfl, hs, ⟨plain, hsame, hm⟩, hscope⟩ := h
  obtain ⟨levels, path, written, -, hw⟩ := hw
  obtain ⟨deeper, hctx, -⟩ := FieldType.exists_writeAt codec (FieldType.constantBytes codec) levels
  rw [hctx] at hw
  have hcount {length : Length} {held : Nat} (hh : length.Heeds sight (Site.names ⟨seen, type⟩))
      (hl : length.LooksAt (Site.names ⟨seen, type⟩))
      (hasks : length.Asks scope (some held) ∨ length.Asks scope none) :
      ∃ n, length.count FieldPath.root scope = .ok n ∧
        length.count FieldPath.root scope' = .ok n := by
    obtain hasks | hasks := hasks
    all_goals exact ⟨_, Length.count_ok.mpr hasks, Length.count_ok.mpr (hh.asks hl hscope hasks)⟩
  cases hm with
  | bytes =>
    obtain ⟨-, hasks⟩ := WriteContext.write_bytes_ok.mp hw
    obtain ⟨n, hn, hn'⟩ := hcount hs.here.heeds hs.here.recovers.looks hasks
    exact ⟨some (.count n), by simp [Task.decision, hn], by simp [Task.decision, hn']⟩
  | array =>
    simp only [WriteContext.write, bind_ok, expect_ok, checkCount_ok] at hw
    obtain ⟨items, _, _, hasks, _⟩ := hw
    obtain ⟨n, hn, hn'⟩ := hcount hs.here.heeds hs.here.recovers.looks hasks
    exact ⟨some (.count n), by simp [Task.decision, hn], by simp [Task.decision, hn']⟩
  | @switch on cases default _ discriminant type _ _ hdisc hp hm =>
    obtain ⟨discriminant', hdisc', hkeys⟩ :=
      hscope.discriminant hs.here.recovers.looks hs.here.heeds hdisc
    have hfirst := FieldType.findIdx?_congr hkeys
    refine ⟨some (.case (cases.findIdx? fun case => case.1.matches discriminant)), ?_, ?_⟩
    · simp [Task.decision, answered_ok.mpr hdisc]
    · simp [Task.decision, answered_ok.mpr hdisc', hfirst]
  | yes htruth =>
    have htruth' := hs.here.heeds _ _ hscope _ htruth
    exact ⟨some (.branch true), by simp [Task.decision, answered_ok.mpr htruth],
      by simp [Task.decision, answered_ok.mpr htruth']⟩
  | no htruth =>
    have htruth' := hs.here.heeds _ _ hscope _ htruth
    exact ⟨some (.branch false), by simp [Task.decision, answered_ok.mpr htruth],
      by simp [Task.decision, answered_ok.mpr htruth']⟩
  | _ => exact ⟨none, rfl, rfl⟩

-- ---------------------------------------------------------------------------
-- The way through a document
-- ---------------------------------------------------------------------------

/-- Tasks for one part, on both sides of the bytes. -/
structure Task.Meets (codec : Codec) (sight : Sight) (bytes : Bytes) (writing reading : Task) :
    Prop where
  corresponds : ∃ seen, Corresponds codec sight seen writing reading
  written : writing.Written codec bytes
  lies : reading.LiesIn codec bytes

theorem Task.Meets.part {writing reading : Task}
    (h : Meets codec sight bytes writing reading) (i : Nat) :
    Option.Rel (Meets codec sight bytes) (writing.part? .encoder codec.definitions i)
      (reading.part? .decoder codec.definitions i) := by
  obtain ⟨⟨seen, hc⟩, hwritten, cells, before, taken, after, hbytes, hmatch, hlies⟩ := h
  have hrel := hc.part hlies i
  have hrecovers : Site.Everywhere codec.definitions Site.Recovers ⟨seen, reading.type⟩ :=
    hc.type ▸ hc.sites.mono fun _ h => h.recovers
  generalize hw : writing.part? .encoder codec.definitions i = next,
    hr : reading.part? .decoder codec.definitions i = next' at hrel
  cases hrel with
  | none => exact .none
  | some hnext =>
    exact .some ⟨hnext, hwritten.part hc.sites hw,
      .of_holds before hbytes hmatch (hlies.part hrecovers hr)⟩

theorem Task.Meets.run {writing reading : Task}
    (h : Meets codec sight bytes writing reading) (position : List Nat) :
    Option.Rel (Meets codec sight bytes)
      (position.foldlM (Task.part? .encoder codec.definitions) writing)
      (position.foldlM (Task.part? .decoder codec.definitions) reading) := by
  induction position generalizing writing reading with
  | nil => exact .some h
  | cons i position ih => exact rel_bind (h.part i) fun _ _ hnext => ih hnext

/-- Tasks for one part: each codec carries out its own, and they decide the same. -/
structure Task.Agrees (codec : Codec) (bytes : Bytes) (writing reading : Task) : Prop where
  type : reading.type = writing.type
  written : writing.Written codec bytes
  read : reading.Read codec bytes
  decision : ∃ decided, writing.decision = .ok decided ∧ reading.decision = .ok decided

theorem Task.Meets.agrees {writing reading : Task}
    (h : Meets codec sight bytes writing reading) : writing.Agrees codec bytes reading := by
  obtain ⟨seen, hc⟩ := h.corresponds
  have hnone : Site.Everywhere codec.definitions Site.NoSelection ⟨seen, reading.type⟩ :=
    hc.type ▸ hc.sites.mono fun _ h => h.recovers.noSelection
  exact ⟨hc.type, h.written, h.lies.read hnone, hc.decision h.written⟩

namespace Schema

theorem lies_of_decode {schema : Schema} (hs : schema.Everywhere Site.NoSelection)
    {options : CodecOptions} (h : schema.decode options bytes = .ok document) :
    ∃ (cells : Cells) (taken after : Bytes), bytes = taken ++ after ∧ cells.Match taken ∧
      FieldsLie (FieldType.LiesAt (schema.codec options) options.maxDepth) (Scope.root · options)
        schema.fields .empty after.length document cells := by
  simp only [decode] at h
  split at h
  · cases h
  · rename_i found stop hrun
    obtain ⟨taken, cells, htakes, hmatch, hlies⟩ := (reads_fields hs options _ _ _).mp hrun
    have hfound : found = document := by
      split at h
      · exact Except.ok.inj h
      · split at h
        · exact Except.ok.inj h
        · cases h
    exact ⟨cells, taken, stop.rest, htakes.rest, hmatch, hfound ▸ hlies⟩

section

variable {schema : Schema} {options : CodecOptions} {document plain found : Document}

theorem Means.field_meets (hm : schema.Means sight options document plain) (hs : schema.Recovers)
    (hsites : schema.Everywhere (Site.Settled (schema.codec options) sight))
    (hw : schema.encode options document = .ok bytes)
    (hfound : schema.decode options bytes = .ok found) (heq : found == plain) (i : Nat) :
    Option.Rel (Task.Meets (schema.codec options) sight bytes)
      (Side.encoder.field? schema.fields (Scope.root · options) document i)
      (Side.decoder.field? schema.fields (Scope.root · options) found i) := by
  obtain ⟨cells, taken, after, hbytes, hmatch, hlie⟩ := lies_of_decode
    (fun before field after heq => (hs.sites before field after heq).mono fun _ h => h.noSelection)
    hfound
  have hnames := hlie.names_eq hs.names
  have hwell : found.WellFormed := by
    refine hlie.document_wellFormed hs.names fun field hf scope left value cells hv => ?_
    obtain ⟨_, hfield⟩ := hs.sites.field hf
    have hdistinct := hfield.mono fun _ h => h.names
    exact FieldType.liesAt_wellFormed _ _ _ _ hdistinct _ _ _ _ hv
  have hsame : plain.Same found := Document.Same.symm ⟨hwell, hm.wellFormed hs hsites, heq⟩
  have hrel : Option.Rel
      (fun writing reading => ∃ seen,
        Task.Corresponds (schema.codec options) sight seen writing reading)
      (Side.encoder.field? schema.fields (Scope.root · options) document i)
      (Side.decoder.field? schema.fields (Scope.root · options) found i) := by
    refine Side.field?_corresponds (schema.codec options) [] (Scope.root · options)
      (Scope.root · options) hnames hm.resembles hsame hm.held hm.values hsites ?_ i
    intro names type part hpart
    refine .root (fun name value hn => ?_) options
    obtain ⟨_, ⟨⟩, hn⟩ := hn
    exact hpart name value hn
  cases hf : schema.fields[i]? with
  | none =>
    simp only [Side.field?, hf, Option.bind_eq_bind, Option.bind_none]
    exact .none
  | some field =>
    have hmem := List.mem_of_getElem? hf
    obtain ⟨value, hv⟩ := Option.isSome_iff_exists.mp (hm.held field hmem)
    obtain ⟨read, hread⟩ := Document.mem_names_iff.mp (hnames ▸ List.mem_map_of_mem hmem)
    have hread' := (Document.held?_of_names hnames hmem).trans hread
    simp only [Side.field?, hf, hv, hread', Option.bind_eq_bind, Option.bind_some,
      Option.pure_def] at hrel ⊢
    cases hrel with
    | some hc =>
      have hfields : ∀ field ∈ schema.fields, ∃ seen, Site.Everywhere schema.definitions
          (Site.Settled (schema.codec options) sight) ⟨seen, field.2⟩ := by
        intro field hf
        exact hsites.field hf
      obtain ⟨path, part, hinfix, hwritten⟩ := Codec.writeFields_field hfields hw hf hv
      refine .some ⟨hc, ⟨options.maxDepth, path, part, hinfix, hwritten⟩, ?_⟩
      obtain ⟨first, inner, last, rfl, hlies⟩ := hlie.field .empty hs.names hf hread
      refine .of_holds [] hbytes hmatch ⟨first, inner, last, rfl, options.maxDepth, ?_⟩
      rwa [show Document.empty.size + i = i from Nat.zero_add i] at hlies

/-- A document that is written as a plain one, and answers as that does, is written by
the decisions that decoding makes: what was written decodes as the plain document, and
wherever the one codec comes to a part, so does the other, as the same type, and both
decide the same there. -/
theorem decisions_of_encode (hs : schema.Recovers)
    (hh : schema.Everywhere (Site.Heeds sight))
    (hf : schema.Everywhere (Site.Fits (schema.codec options)))
    (hm : schema.Means sight options document plain)
    (h : schema.encode options document = .ok bytes) :
    ∃ found, schema.decode options bytes = .ok found ∧ found == plain ∧ ∀ position,
      Option.Rel (Task.Agrees (schema.codec options) bytes)
        (schema.task? .encoder options document position)
        (schema.task? .decoder options found position) := by
  have hsites := hs.settled hh hf
  obtain ⟨found, hfound, heq⟩ := hm.decode hs hsites h
  refine ⟨found, hfound, heq, fun position => ?_⟩
  cases position with
  | nil => exact .none
  | cons i position =>
    have hrel : Option.Rel (Task.Meets (schema.codec options) sight bytes)
        (schema.task? .encoder options document (i :: position))
        (schema.task? .decoder options found (i :: position)) :=
      rel_bind (hm.field_meets hs hsites h hfound heq i) fun _ _ hmeets => hmeets.run position
    exact rel_imp hrel fun _ _ hmeets => hmeets.agrees

end

/-- A tag that is named, and a byte that is signed or not by the tag. -/
def tagged : Schema where
  name := "Tagged"
  fields := [("tag", .enum (.int .u8 .little) [("plain", .int 0), ("signed", .int 1)]),
    ("value", .switch ⟨0, ["tag"]⟩
      [(.int 0, .int .u8 .little), (.int 1, .int .i8 .little)] none)]

theorem tagged_everywhere {P : Site → Prop} (hint : ∀ seen kind order, P ⟨seen, .int kind order⟩)
    (henum : P ⟨[[]], .enum (.int .u8 .little) [("plain", .int 0), ("signed", .int 1)]⟩)
    (hswitch : P ⟨[["tag"]], .switch ⟨0, ["tag"]⟩
      [(.int 0, .int .u8 .little), (.int 1, .int .i8 .little)] none⟩) : tagged.Everywhere P := by
  have hleaf (seen : List (List String)) (kind : IntKind) (order : ByteOrder) :
      Site.Everywhere tagged.definitions P ⟨seen, .int kind order⟩ :=
    .intro (hint _ _ _) fun other hp => nomatch hp
  intro before field after heq
  obtain _ | ⟨_, _ | ⟨_, before⟩⟩ := before
  · cases heq
    refine .intro henum ?_
    rintro _ ⟨⟩
    exact hleaf _ _ _
  · cases heq
    refine .intro hswitch ?_
    intro other hp
    cases hp with
    | case hc =>
      obtain _ | ⟨_, _ | ⟨_, ⟨⟩⟩⟩ := hc
      · exact hleaf _ _ _
      · exact hleaf _ _ _
    | default ht => cases ht
  · simp [tagged] at heq

theorem tagged_recovers : tagged.Recovers := by
  refine ⟨by decide, tagged_everywhere ?_ ?_ ?_⟩
  · exact fun _ _ _ => ⟨trivial, trivial, trivial, trivial⟩
  · have hnames : ["plain", "signed"].Nodup := by decide
    refine ⟨hnames, trivial, trivial, ?_⟩
    rintro _ (_ | ⟨_, _ | ⟨_, ⟨⟩⟩⟩) <;> exact .int _
  · refine ⟨trivial, trivial, ?_, trivial⟩
    rintro name ⟨⟩
    exact ⟨["tag"], rfl, List.mem_cons_self⟩

/-- Of the tag, the schema asks whether it is 0 or 1. -/
def taggedSight : Sight where
  reached name := name = "tag"
  asked _ query := query = .case (.int 0) ∨ query = .case (.int 1)

/-- A tag given by its number, and a truth value for a byte. -/
theorem decisions_of_encode_tagged :
    tagged.encode {} ⟨[("tag", .int 1), ("value", .bool true)]⟩ = .ok [1, 1] ∧
      ∃ found, tagged.decode {} [1, 1] = .ok found ∧
        found == ⟨[("tag", .enum (some "signed") (.int 1)), ("value", .int 1)]⟩ ∧ ∀ position,
          Option.Rel (Task.Agrees (tagged.codec {}) [1, 1])
            (tagged.task? .encoder {} ⟨[("tag", .int 1), ("value", .bool true)]⟩ position)
            (tagged.task? .decoder {} found position) := by
  have he : tagged.encode {} ⟨[("tag", .int 1), ("value", .bool true)]⟩ = .ok [1, 1] := rfl
  have hh : tagged.Everywhere (Site.Heeds taggedSight) := by
    refine tagged_everywhere (fun _ _ _ => trivial) trivial ⟨?_, ?_⟩
    · rintro name (_ | ⟨_, ⟨⟩⟩)
      rfl
    · rintro name - query ⟨_, _ | ⟨_, _ | ⟨_, ⟨⟩⟩⟩, rfl⟩
      · exact .inl rfl
      · exact .inr rfl
  have hm : tagged.Means taggedSight {} ⟨[("tag", .int 1), ("value", .bool true)]⟩
      ⟨[("tag", .enum (some "signed") (.int 1)), ("value", .int 1)]⟩ := by
    refine ⟨rfl, ?_, ?_, ?_⟩
    · rintro name value - rfl hv
      cases hv
      refine ⟨_, rfl, .plain rfl ?_⟩
      rintro query (rfl | rfl) <;> rfl
    · rintro field (_ | ⟨_, _ | ⟨_, ⟨⟩⟩⟩) <;> rfl
    · rintro field (_ | ⟨_, _ | ⟨_, ⟨⟩⟩⟩) value part hv hpart
      · cases hv
        cases hpart
        exact @FieldType.Means.enum _ _ _ _ _ _ (.int 1) (.int rfl)
      · cases hv
        cases hpart
        exact .switch rfl rfl (.int rfl)
  have hf : tagged.Everywhere (Site.Fits (tagged.codec {})) :=
    tagged_everywhere (fun _ _ _ _ => trivial) (fun _ => trivial) fun _ => trivial
  exact ⟨he, decisions_of_encode tagged_recovers hh hf hm he⟩

/-- A tag whose name says one thing and whose raw value another: its name is written,
and the case is that of the raw value. -/
def retagged : Document :=
  ⟨[("tag", .enum (some "signed") (.int 0)), ("value", .int 200)]⟩

/-- Such a document is written by the one case and read by the other. -/
theorem decisions_of_encode_retagged :
    tagged.Recovers ∧
      tagged.encode {} retagged = .ok [1, 200] ∧
      (tagged.task? .encoder {} retagged [1]).map Task.decision =
        some (.ok (some (.case (some 0)))) ∧
      ∃ found, tagged.decode {} [1, 200] = .ok found ∧
        (tagged.task? .decoder {} found [1]).map Task.decision =
          some (.ok (some (.case (some 1)))) :=
  ⟨tagged_recovers, rfl, rfl, _, rfl, rfl⟩

end Schema

end Mapsmith
