import Mapsmith.Proofs.Schema.Congruence
import Mapsmith.Proofs.Schema.Growth
import Mapsmith.Proofs.Schema.PackedUnit

/-!
# Encoding writes what lies there

`Schema.encode_of_lies`: a value that lies in some cells, in the scope of the fields before it,
is written as the bytes of these cells in the scope of the whole document, with zeros where
they are left open. The encoder decides as the decoder did, because what the decoder saw is
still there, and where it writes a value of the schema in place of the one it is given, the two
are equal.
-/

namespace Mapsmith

-- ---------------------------------------------------------------------------
-- What lies is well-formed
-- ---------------------------------------------------------------------------

/-- The names of each record and of each packed unit are distinct. -/
def FieldType.NamesDistinct : FieldType → Prop
  | .record _ fields => (fields.map Prod.fst).Nodup
  | .packed unit => (unit.fields.map PackedField.name).Nodup
  | _ => True

def Site.NamesDistinct (site : Site) : Prop := site.type.NamesDistinct

/-- What lies by the layout is well-formed. -/
def LiesWellFormed (definitions : Nat → FieldType) (layout : Layout) : Prop :=
  ∀ seen type, Site.Everywhere definitions Site.NamesDistinct ⟨seen, type⟩ →
    ∀ scope left value cells, layout type scope left value cells → value.WellFormed

/-- A field that is new to a document, before the others. -/
theorem Document.nodup_step {document : Document} {rest : List String} (value : Value)
    (h : (document.names ++ name :: rest).Nodup) :
    name ∉ document.names ∧ ((document.insert name value).names ++ rest).Nodup := by
  have hnew : name ∉ document.names := fun hn =>
    (List.nodup_append.mp h).2.2 _ hn _ List.mem_cons_self rfl
  rw [names_insert hnew]
  exact ⟨hnew, by simpa using h⟩

section

variable {fields : List (String × FieldType)} {layout : Layout} {scope : Document → Scope}
  {before final : Document}

theorem FieldsLie.names (before : Document)
    (h : FieldsLie layout scope fields before left final cells)
    (hn : (before.names ++ fields.map Prod.fst).Nodup) :
    before.Before final ∧ final.names = before.names ++ fields.map Prod.fst := by
  induction h with
  | nil => exact ⟨.refl _, by simp⟩
  | @cons name type fields before left value cells final rest hvalue _ ih =>
    obtain ⟨hnew, hn⟩ := Document.nodup_step value hn
    obtain ⟨hbefore, hnames⟩ := ih hn
    refine ⟨(Document.before_insert hnew value).trans hbefore, ?_⟩
    rw [hnames, Document.names_insert hnew]
    simp

theorem FieldsLie.wellFormed (before : Document)
    (h : FieldsLie layout scope fields before left final cells)
    (hn : (before.names ++ fields.map Prod.fst).Nodup)
    (hb : ∀ entry ∈ before.entries, entry.2.WellFormed)
    (hv : ∀ field ∈ fields, ∀ scope left value cells,
      layout field.2 scope left value cells → value.WellFormed) : final.WellFormed := by
  refine ⟨(FieldsLie.names _ h hn).2 ▸ hn, ?_⟩
  induction h with
  | nil => exact hb
  | @cons name type fields before left value cells final rest hvalue _ ih =>
    obtain ⟨htype, hfields⟩ := List.forall_mem_cons.mp hv
    obtain ⟨hnew, hn⟩ := Document.nodup_step value hn
    refine ih hn ?_ hfields
    rw [Document.insert_of_notMem hnew]
    intro entry he
    rcases List.mem_append.mp he with he | he
    · exact hb entry he
    · cases List.mem_singleton.mp he
      exact htype _ _ _ _ hvalue

theorem FieldsLie.writes {write : Writer} {whole : Scope} (before : Document)
    (h : FieldsLie layout scope fields before left final cells)
    (hn : (before.names ++ fields.map Prod.fst).Nodup) (hcurrent : whole.current = final)
    (hw : ∀ field ∈ fields, ∀ before, before.Before final → ∀ path left value cells,
      layout field.2 (scope before) left value cells →
        write path field.2 value whole = .ok cells.fill) :
    ∃ parts : List Bytes, List.Forall₂ (Codec.WritesField write path whole) fields parts ∧
      cells.fill = parts.flatten := by
  induction h with
  | nil => exact ⟨[], .nil, rfl⟩
  | @cons name type fields before left value cells final rest hvalue hlie ih =>
    obtain ⟨htype, hfields⟩ := List.forall_mem_cons.mp hw
    obtain ⟨hnew, hn⟩ := Document.nodup_step value hn
    obtain ⟨parts, hparts, hrest⟩ := ih hn hcurrent hfields
    have hbefore := (FieldsLie.names _ hlie hn).1
    have hget : final.get? name = some value := by
      refine hbefore.get? ?_
      rw [Document.get?_insert, if_pos rfl]
    refine ⟨cells.fill :: parts, .cons ?_ hparts, by simp [hrest]⟩
    rw [Codec.WritesField, hcurrent]
    simp only [hget]
    exact htype before ((Document.before_insert hnew value).trans hbefore) _ _ _ _ hvalue

end

theorem FieldsLie.names_eq {fields : List (String × FieldType)}
    (h : FieldsLie layout scope fields .empty left final cells) (hn : (fields.map Prod.fst).Nodup) :
    final.names = fields.map Prod.fst :=
  (FieldsLie.names .empty h hn).2

theorem FieldsLie.document_wellFormed {fields : List (String × FieldType)}
    (h : FieldsLie layout scope fields .empty left final cells) (hn : (fields.map Prod.fst).Nodup)
    (hv : ∀ field ∈ fields, ∀ scope left value cells,
      layout field.2 scope left value cells → value.WellFormed) : final.WellFormed :=
  FieldsLie.wellFormed .empty h hn (by simp [Document.empty]) hv

theorem FieldsLie.writes_record {fields : List (String × FieldType)} {write : Writer}
    {whole : Scope}
    (h : FieldsLie layout scope fields .empty left final cells) (hn : (fields.map Prod.fst).Nodup)
    (hcurrent : whole.current = final)
    (hw : ∀ field ∈ fields, ∀ before, before.Before final → ∀ path left value cells,
      layout field.2 (scope before) left value cells →
        write path field.2 value whole = .ok cells.fill) :
    Codec.writeFields write path whole fields = .ok cells.fill := by
  rw [Codec.writeFields_ok]
  refine ⟨fun name hname => ?_, FieldsLie.writes .empty h hn hcurrent hw⟩
  rw [hcurrent, h.names_eq hn] at hname
  exact hname

theorem ItemsLie.forall {P : Value → Prop} (h : ItemsLie item left items cells)
    (hv : ∀ left value cells, item left value cells → P value) : ∀ value ∈ items, P value := by
  induction h with
  | nil => simp
  | cons hvalue _ ih => exact List.forall_mem_cons.mpr ⟨hv _ _ _ hvalue, ih⟩

theorem GreedyLie.forall {P : Value → Prop} (h : GreedyLie item left items cells)
    (hv : ∀ left value cells, item left value cells → P value) : ∀ value ∈ items, P value := by
  induction h with
  | done => simp
  | stuck _ hvalue => simpa using hv _ _ _ hvalue
  | cons _ hvalue _ ih => exact List.forall_mem_cons.mpr ⟨hv _ _ _ hvalue, ih⟩

theorem ItemsLie.writes {item : ValueLayout} {write : FieldPath → Value → Except CodecError Bytes}
    (h : ItemsLie item left items cells)
    (hw : ∀ path left value cells, item left value cells → write path value = .ok cells.fill) :
    Codec.WritesFrom write path index items cells.fill := by
  induction h generalizing index with
  | nil => rfl
  | cons hvalue _ ih => exact ⟨_, _, hw _ _ _ _ hvalue, ih, by simp⟩

theorem GreedyLie.writes {item : ValueLayout} {write : FieldPath → Value → Except CodecError Bytes}
    (h : GreedyLie item left items cells)
    (hw : ∀ path left value cells, item left value cells → write path value = .ok cells.fill) :
    Codec.WritesFrom write path index items cells.fill := by
  induction h generalizing index with
  | done => rfl
  | stuck _ hvalue => exact ⟨_, _, hw _ _ _ _ hvalue, rfl, rfl⟩
  | cons _ hvalue _ ih => exact ⟨_, _, hw _ _ _ _ hvalue, ih, by simp⟩

def PackedUnit.entries (unit : PackedUnit) (words : List UInt64) : List (String × Value) :=
  (unit.fields.zip words).map fun (field, word) => (field.name, Decoder.packedValue field word)

theorem PackedUnit.map_entries {unit : PackedUnit} {words : List UInt64}
    (h : words.length = unit.fields.length) :
    (unit.entries words).map Prod.fst = unit.fields.map PackedField.name := by
  have hname : (Prod.fst ∘ fun (field, word) => (field.name, Decoder.packedValue field word)) =
      PackedField.name ∘ (Prod.fst : PackedField × UInt64 → _) := rfl
  rw [entries, List.map_map, hname, ← List.map_map, List.map_fst_zip (Nat.le_of_eq h.symm)]

theorem PackedUnit.value_eq {unit : PackedUnit} (h : (unit.fields.map PackedField.name).Nodup)
    (bytes : Bytes) : unit.value bytes = .struct ⟨unit.entries (unit.split bytes)⟩ := by
  rw [value, ← entries, Document.ofList_eq]
  rwa [map_entries (unit.length_split bytes)]

theorem PackedUnit.wellFormed_value {unit : PackedUnit}
    (h : (unit.fields.map PackedField.name).Nodup) (bytes : Bytes) :
    (unit.value bytes).WellFormed := by
  rw [value_eq h]
  refine .struct ?_ fun entry he => ?_
  · rw [Document.names, map_entries (unit.length_split bytes)]
    exact h
  · obtain ⟨⟨field, word⟩, -, rfl⟩ := List.mem_map.mp he
    show (Decoder.packedValue field word).WellFormed
    cases hf : field.flags with
    | some set =>
      rw [Decoder.packedValue, hf]
      exact .flags _ _
    | none =>
      rw [Decoder.packedValue, hf]
      exact .int _

namespace FieldType

theorem lies_wellFormed {below : Option Layout} {codec : Codec}
    (hd : ∀ layout ∈ below, LiesWellFormed codec.definitions layout) :
    LiesWellFormed codec.definitions (Lies codec below) := by
  intro seen type hs scope left value cells hlies
  induction type using FieldType.induction generalizing scope left value cells with
  | int kind order =>
    obtain ⟨_, _, _, rfl⟩ := hlies
    exact .int _
  | float order =>
    obtain ⟨_, _, _, rfl⟩ := hlies
    exact .float _
  | text =>
    obtain ⟨_, _, _, rfl⟩ := hlies
    exact .str _
  | id =>
    obtain ⟨_, _, rfl⟩ := hlies
    exact .id _
  | reversedId =>
    obtain ⟨_, _, rfl⟩ := hlies
    exact .id _
  | bytes length =>
    obtain ⟨_, _, rfl, _⟩ := hlies
    exact .bytes _
  | const inner expected ih => exact ih (hs.part .const) _ _ _ _ hlies.1
  | bool kind order no yes =>
    obtain ⟨_, _, _, ⟨_, rfl⟩ | ⟨_, _, rfl⟩⟩ := hlies
    · exact .bool _
    · exact .bool _
  | enum repr variants ih =>
    obtain ⟨raw, hraw, rfl⟩ := hlies
    exact .enum (ih (hs.part .enum) _ _ _ _ hraw)
  | flags set =>
    obtain ⟨_, _, _, rfl⟩ := hlies
    exact .flags _ _
  | record name fields =>
    obtain ⟨layout, hl, document, hfields, rfl⟩ := hlies
    refine (hfields.document_wellFormed hs.here fun field hf scope left value cells hv =>
      ?_).toStruct
    obtain ⟨_, hfield⟩ := hs.field hf
    exact hd layout hl _ _ hfield _ _ _ _ hv
  | array length element ih =>
    obtain ⟨items, rfl, ⟨_, hlie⟩ | ⟨_, hlie⟩⟩ := hlies
    · exact .array (hlie.forall fun left value cells => ih (hs.part .element) _ _ _ _)
    · exact .array (hlie.forall fun left value cells => ih (hs.part .element) _ _ _ _)
  | greedy element ih =>
    obtain ⟨items, rfl, hlie⟩ := hlies
    exact .array (hlie.forall fun left value cells => ih (hs.part .greedy) _ _ _ _)
  | sequence types ih =>
    obtain ⟨items, rfl, hlie⟩ := hlies
    have hpart :
        ∀ type ∈ types, Site.Everywhere codec.definitions Site.NamesDistinct ⟨seen, type⟩ :=
      fun type ht => hs.part (.item ht)
    refine .array ?_
    clear hs
    induction types generalizing left items cells with
    | nil =>
      cases hlie.1
      simp
    | cons type types ihs =>
      obtain ⟨value, rest, first, others, rfl, rfl, hvalue, hrest⟩ := hlie
      simp only [List.forall_mem_cons] at ih hpart ⊢
      exact ⟨ih.1 hpart.1 _ _ _ _ hvalue, ihs ih.2 _ _ _ hrest hpart.2⟩
  | switch on cases default ihc ihd =>
    obtain ⟨discriminant, type, _, hp, hlies⟩ := switch_lies_iff.mp hlies
    rcases mem_of_pick? hp with ⟨case, hc, rfl⟩ | ht
    · exact ihc case hc (hs.part (.case hc)) _ _ _ _ hlies
    · exact ihd type ht (hs.part (.default ht)) _ _ _ _ hlies
  | conditional condition yes no ihy ihn =>
    obtain ⟨_, hlies⟩ | ⟨_, hlies⟩ := hlies
    · exact ihy (hs.part .yes) _ _ _ _ hlies
    · exact ihn (hs.part .no) _ _ _ _ hlies
  | select alternatives => exact hlies.elim
  | checked relation holds inner ih => exact ih (hs.part .checked) _ _ _ _ hlies.1
  | padded size inner ih =>
    obtain ⟨content, _, hlies, _⟩ := hlies
    exact ih (hs.part .padded) _ _ _ _ hlies
  | packed unit =>
    obtain ⟨_, word, _, _, rfl⟩ := hlies
    exact PackedUnit.wellFormed_value hs.here word
  | lazy slot =>
    obtain ⟨layout, hl, hlies⟩ := hlies
    exact hd layout hl _ _ (hs.part .lazy) _ _ _ _ hlies

theorem liesAt_wellFormed (codec : Codec) (levels : Nat) :
    LiesWellFormed codec.definitions (LiesAt codec levels) := by
  induction levels with
  | zero => exact lies_wellFormed nofun
  | succ levels ih =>
    refine lies_wellFormed ?_
    rintro _ ⟨⟩
    exact ih

end FieldType

-- ---------------------------------------------------------------------------
-- Writing it back
-- ---------------------------------------------------------------------------

/-- What must hold of a type so that it is written as it was read. -/
def FieldType.Repeats (definitions : Nat → FieldType) (seen : List (List String)) : FieldType → Prop
  | .const inner _ => Site.Everywhere definitions Site.Alike ⟨seen, inner⟩
  | .enum repr variants => Site.Everywhere definitions Site.Alike ⟨seen, repr⟩ ∧
    (variants.map Prod.fst).Nodup ∧ ∀ variant ∈ variants, variant.2.WellFormed
  | .packed unit => ∀ field ∈ unit.fields, field.flags = none → field.width.toNat < 64
  | _ => True

/-- A site where encoding takes back what decoding did. -/
structure Site.Repeats (definitions : Nat → FieldType) (site : Site) : Prop where
  names : site.NamesDistinct
  keeps : site.type.Keeps
  repeats : site.type.Repeats definitions site.seen

/-- A writer of what lies by the layout, in every scope to which its scope grows. -/
def WritesLayout (definitions : Nat → FieldType) (write : Writer) (layout : Layout) : Prop :=
  ∀ seen type, Site.Everywhere definitions (Site.Repeats definitions) ⟨seen, type⟩ →
    ∀ scope scope' : Scope, scope.GrowsTo scope' → scope'.WellFormed →
      ∀ path left value cells, layout type scope left value cells →
        write path type value scope' = .ok cells.fill

theorem IntKind.toInt_ofInt_decode (kind : IntKind) (order : ByteOrder) {word : Bytes}
    (h : word.length = kind.size) :
    (Int64.ofInt (kind.decode order word)).toInt = kind.decode order word := by
  obtain ⟨hmin, hmax⟩ := kind.decode_bounds order h
  have hlow : -2 ^ 63 ≤ kind.min := by cases kind <;> decide
  have hhigh : kind.max < 2 ^ 63 := by cases kind <;> decide
  exact Int64.toInt_ofInt_of_le (by omega) (by omega)

theorem writeInt_decode (path : FieldPath) (kind : IntKind) (order : ByteOrder) {word : Bytes}
    (h : word.length = kind.size) :
    Codec.writeInt path kind order (kind.decode order word) = .ok word := by
  obtain ⟨hmin, hmax⟩ := kind.decode_bounds order h
  exact Codec.writeInt_ok.mpr ⟨hmin, hmax, (kind.encode_decode order h).symm⟩

theorem writeFlags_decode (path : FieldPath) (set : FlagSet) {word : Bytes}
    (h : word.length = set.kind.size) :
    Codec.writeFlags path set (UInt64.ofNat (set.order.decode word)).toNat = .ok word := by
  have hlt := set.order.decode_lt word
  have hsize : set.kind.size ≤ 4 := by cases set.kind <;> decide
  rw [h, show 256 = 2 ^ 8 from rfl, Nat.pow_eq, ← Nat.pow_mul] at hlt
  have hword : (UInt64.ofNat (set.order.decode word)).toNat = set.order.decode word := by
    rw [UInt64.toNat_ofNat']
    exact Nat.mod_eq_of_lt (Nat.lt_of_lt_of_le hlt (Nat.pow_le_pow_right (by omega) (by omega)))
  rw [Codec.writeFlags_ok, hword]
  exact ⟨hlt, by rw [← h, set.order.encode_decode]⟩

theorem wordOf?_packedValue {field : PackedField} (hw : field.width ≠ 0)
    (hf : PackedUnit.fits field.width word = true)
    (hn : field.flags = none → field.width.toNat < 64) :
    Codec.wordOf? (Decoder.packedValue field word) = some word := by
  cases h : field.flags with
  | some set =>
    rw [Decoder.packedValue, h]
    rfl
  | none =>
    have hlt := PackedUnit.toNat_lt_of_fits hw (hn h) hf
    rw [Decoder.packedValue, h]
    simp [Codec.wordOf?, Value.asInt?, PackedUnit.toInt_toInt64 hlt]

theorem writePacked_value {unit : PackedUnit} (hc : unit.check = .ok ())
    (hn : (unit.fields.map PackedField.name).Nodup)
    (hw : ∀ field ∈ unit.fields, field.flags = none → field.width.toNat < 64)
    (hb : bytes.length = unit.size) :
    Codec.writePacked path unit (unit.value bytes) = .ok bytes := by
  have hwidth := (PackedUnit.check_ok_iff.mp hc).widths
  rw [Codec.writePacked_ok, PackedUnit.value_eq hn]
  refine ⟨hc, _, rfl, unit.split bytes, ?_, (PackedUnit.join_split hc hb).symm⟩
  have hfits := unit.fits_split bytes
  rw [List.forall₂_iff_zip] at hfits ⊢
  refine ⟨hfits.1, fun {field word} hm => ?_⟩
  have hf := hfits.2 hm
  have hmem := (List.of_mem_zip hm).1
  refine ⟨Decoder.packedValue field word, Document.get?_of_mem ?_ ?_,
    wordOf?_packedValue (hwidth field hmem) hf (hw field hmem), hf⟩
  · rw [Document.names, PackedUnit.map_entries (unit.length_split bytes)]
    exact hn
  · exact List.mem_map.mpr ⟨(field, word), hm, rfl⟩

/-- The name of a raw value stands for a raw value equal to it. -/
theorem FieldType.variantRaw?_of_name (hn : (variants.map Prod.fst).Nodup)
    (h : variantName? variants raw = some name) :
    ∃ known, variantRaw? variants name = some known ∧ (name, known) ∈ variants ∧ known == raw := by
  obtain ⟨⟨_, known⟩, hfind, rfl⟩ := Option.map_eq_some_iff.mp h
  have hmem := List.mem_of_find?_eq_some hfind
  refine ⟨known, ?_, hmem, ?_⟩
  · exact Document.get?_of_mem (show (Document.names ⟨variants⟩).Nodup from hn) hmem
  · simpa using List.find?_some hfind

/-- The encoder writes a raw value equal to the one that was read. -/
theorem rawValue_enum_same {variants : List (String × Value)} {raw : Value}
    (hn : (variants.map Prod.fst).Nodup)
    (hv : ∀ variant ∈ variants, variant.2.WellFormed) (hr : raw.WellFormed) :
    raw.Same (Codec.rawValue variants (.enum (FieldType.variantName? variants raw) raw)) := by
  cases hname : FieldType.variantName? variants raw with
  | none => exact .refl hr
  | some name =>
    obtain ⟨known, hknown, hmem, heq⟩ := FieldType.variantRaw?_of_name hn hname
    rw [Codec.rawValue, hknown]
    exact Value.Same.symm ⟨hv _ hmem, hr, heq⟩

namespace WriteContext

open Codec

variable {ctx : WriteContext} {below : Option Layout}

theorem writes_sequence {types : List FieldType} {scope scope' : Scope}
    (h : ∀ type ∈ types, ∀ path left value cells,
      FieldType.Lies ctx.codec below type scope left value cells →
        ctx.write path type value scope' = .ok cells.fill)
    (hl : FieldType.SequenceLies ctx.codec below types scope left items cells) :
    items.length = types.length ∧
      ctx.writeSequence path index types items scope' = .ok cells.fill := by
  induction types generalizing index left items cells with
  | nil =>
    obtain ⟨rfl, rfl⟩ := hl
    exact ⟨rfl, rfl⟩
  | cons type types ih =>
    obtain ⟨htype, htypes⟩ := List.forall_mem_cons.mp h
    obtain ⟨value, rest, first, others, rfl, rfl, hvalue, hrest⟩ := hl
    obtain ⟨hlen, hwritten⟩ := ih htypes hrest
    refine ⟨by simp [hlen], ?_⟩
    simp only [writeSequence, bind_ok, pure_ok]
    exact ⟨_, htype _ _ _ _ hvalue, _, hwritten, by simp⟩

theorem writes_lies (ctx : WriteContext)
    (hl : ∀ layout ∈ below, LiesWellFormed ctx.codec.definitions layout)
    (ha : ∀ write ∈ ctx.deeper, WritesAlike ctx.codec.definitions write)
    (hshow : ShowsAlike ctx.codec.definitions ctx.constantBytes)
    (hd : Option.Rel (WritesLayout ctx.codec.definitions) ctx.deeper below) :
    WritesLayout ctx.codec.definitions ctx.write (FieldType.Lies ctx.codec below) := by
  intro seen type hs scope scope' hgrows hwf path left value cells hlies
  have hwell := FieldType.lies_wellFormed hl _ _ (hs.mono fun _ h => h.names) _ _ _ _ hlies
  induction type using FieldType.induction generalizing path left value cells with
  | int kind order =>
    obtain ⟨word, hlen, rfl, rfl⟩ := hlies
    simp only [write, bind_ok, expect_ok, Cells.fill_of]
    exact ⟨_, by rw [Value.asInt?, kind.toInt_ofInt_decode order hlen],
      writeInt_decode path kind order hlen⟩
  | float order =>
    obtain ⟨word, hlen, rfl, rfl⟩ := hlies
    simp only [write, bind_ok, expect_ok, pure_ok, Cells.fill_of]
    refine ⟨_, rfl, ?_⟩
    have hlt : order.decode word < 2 ^ 32 := by
      have hlt := order.decode_lt word
      rwa [hlen, show Nat.pow 256 4 = 2 ^ 32 from rfl] at hlt
    rw [UInt32.toNat_ofNat', Nat.mod_eq_of_lt hlt, ← hlen, order.encode_decode]
  | text =>
    obtain ⟨text, hzero, rfl, rfl⟩ := hlies
    simp only [write, bind_ok, expect_ok, writeText_ok]
    exact ⟨text, rfl, hzero, Cells.fill_of _⟩
  | id =>
    obtain ⟨code, rfl, rfl⟩ := hlies
    simp only [write, bind_ok, expect_ok, pure_ok]
    exact ⟨code, rfl, Cells.fill_of _⟩
  | reversedId =>
    obtain ⟨code, rfl, rfl⟩ := hlies
    simp only [write, bind_ok, expect_ok, pure_ok]
    exact ⟨code.reverse, rfl, Cells.fill_of _⟩
  | bytes length =>
    obtain ⟨content, rfl, rfl, hasks⟩ := hlies
    rw [write_bytes_ok, Cells.fill_of]
    exact ⟨rfl, hasks.imp (hs.here.keeps.asks hgrows) fun h => hs.here.keeps.asks hgrows h.1⟩
  | const inner expected ih =>
    obtain ⟨hlies, heq⟩ := hlies
    have hfound := ih (hs.part .const) path _ _ _ hlies hwell
    rw [write, if_pos heq]
    exact (write_alike ctx ha hshow _ _ hs.here.repeats _ _ _ _ _
      (.of_beq hwell heq) hwf.agree).result hfound
  | bool kind order no yes =>
    obtain ⟨word, hlen, rfl, ⟨hword, rfl⟩ | ⟨hword, hne, rfl⟩⟩ := hlies
    · rw [write, if_pos rfl, ← hword, Cells.fill_of]
      exact writeInt_decode path kind order hlen
    · rw [write, if_neg Bool.false_ne_true, ← hword, Cells.fill_of]
      exact writeInt_decode path kind order hlen
  | enum repr variants ih =>
    obtain ⟨raw, hraw, rfl⟩ := hlies
    obtain ⟨halike, hn, hv⟩ := hs.here.repeats
    have hfound := ih (hs.part .enum) path _ _ _ hraw hwell.of_enum
    rw [write]
    have hraw := rawValue_enum_same hn hv hwell.of_enum
    exact (write_alike ctx ha hshow _ _ halike _ _ _ _ _ hraw hwf.agree).result hfound
  | flags set =>
    obtain ⟨word, hlen, rfl, rfl⟩ := hlies
    rw [FlagSet.valueOf, write, Cells.fill_of]
    exact writeFlags_decode path set hlen
  | record name fields =>
    obtain ⟨layout, hlayout, document, hfields, rfl⟩ := hlies
    simp only [write, bind_ok, expect_ok, descend_ok]
    obtain ⟨writer, hwriter, hwrites⟩ := rel_some_right hd hlayout
    refine ⟨document, rfl, writer, hwriter, hfields.writes_record hs.here.names rfl ?_⟩
    intro field hf before hbefore path left value cells hv
    obtain ⟨_, hfield⟩ := hs.field hf
    exact hwrites _ _ hfield _ _ (hgrows.child hbefore) (hwf.child hwell.of_struct)
      _ _ _ _ hv
  | array length element ih =>
    obtain ⟨items, rfl, hitems⟩ := hlies
    simp only [write, bind_ok, expect_ok, checkCount_ok, writeItems_ok]
    have hitem (path : FieldPath) (left : Nat) (value : Value) (cells : Cells)
        (hlies : FieldType.Lies ctx.codec below element scope left value cells) :
        ctx.write path element value scope' = .ok cells.fill := by
      have hs := hs.part .element
      refine ih hs _ _ _ _ hlies ?_
      exact FieldType.lies_wellFormed hl _ _ (hs.mono fun _ h => h.names) _ _ _ _ hlies
    obtain ⟨hasks, hlie⟩ | ⟨hasks, hlie⟩ := hitems
    · exact ⟨items, rfl, (), .inl (hs.here.keeps.asks hgrows hasks), hlie.writes hitem⟩
    · exact ⟨items, rfl, (), .inr (hs.here.keeps.asks hgrows hasks), hlie.writes hitem⟩
  | greedy element ih =>
    obtain ⟨items, rfl, hlie⟩ := hlies
    simp only [write, bind_ok, expect_ok, writeItems_ok]
    refine ⟨items, rfl, hlie.writes fun path left value cells hlies => ?_⟩
    have hs := hs.part .greedy
    refine ih hs _ _ _ _ hlies ?_
    exact FieldType.lies_wellFormed hl _ _ (hs.mono fun _ h => h.names) _ _ _ _ hlies
  | sequence types ih =>
    obtain ⟨items, rfl, hlie⟩ := hlies
    rw [write_sequence_ok]
    refine ⟨items, rfl, writes_sequence (fun type ht path left value cells hlies => ?_) hlie⟩
    have hs := hs.part (.item ht)
    refine ih type ht hs _ _ _ _ hlies ?_
    exact FieldType.lies_wellFormed hl _ _ (hs.mono fun _ h => h.names) _ _ _ _ hlies
  | switch on cases default ihc ihd =>
    obtain ⟨discriminant, type, hdisc, hp, hlies⟩ := FieldType.switch_lies_iff.mp hlies
    rw [write_switch_ok]
    refine ⟨discriminant, type, hgrows.resolve hdisc, hp, ?_⟩
    rcases FieldType.mem_of_pick? hp with ⟨case, hc, rfl⟩ | ht
    · exact ihc case hc (hs.part (.case hc)) _ _ _ _ hlies hwell
    · exact ihd type ht (hs.part (.default ht)) _ _ _ _ hlies hwell
  | conditional condition yes no ihy ihn =>
    simp only [write, bind_ok, answered_ok]
    obtain ⟨htruth, hlies⟩ | ⟨htruth, hlies⟩ := hlies
    · exact ⟨true, hs.here.keeps _ _ hgrows _ htruth, ihy (hs.part .yes) _ _ _ _ hlies hwell⟩
    · exact ⟨false, hs.here.keeps _ _ hgrows _ htruth, ihn (hs.part .no) _ _ _ _ hlies hwell⟩
  | select alternatives => exact hlies.elim
  | checked relation holds inner ih =>
    obtain ⟨hlies, hholds⟩ := hlies
    rw [write, if_pos (hs.here.keeps _ _ hgrows _ hholds)]
    exact ih (hs.part .checked) _ _ _ _ hlies hwell
  | padded size inner ih =>
    obtain ⟨content, hle, hlies, rfl⟩ := hlies
    simp only [write, bind_ok, fillBlock_ok]
    refine ⟨content.fill, ih (hs.part .padded) _ _ _ _ hlies hwell, ?_, ?_⟩
    · simpa using hle
    · simp
  | packed unit =>
    obtain ⟨hcheck, word, hlen, rfl, rfl⟩ := hlies
    rw [write, Cells.fill_of]
    exact writePacked_value hcheck hs.here.names hs.here.repeats hlen
  | lazy slot =>
    obtain ⟨layout, hlayout, hlies⟩ := hlies
    obtain ⟨writer, hwriter, hwrites⟩ := rel_some_right hd hlayout
    rw [write, descend_ok]
    exact ⟨writer, hwriter, hwrites _ _ (hs.part .lazy) _ _ hgrows hwf _ _ _ _ hlies⟩

end WriteContext

namespace FieldType

theorem writeAt_writesLayout (codec : Codec) (levels : Nat) : WritesLayout codec.definitions
    (writeAt codec (constantBytes codec) levels) (LiesAt codec levels) := by
  have hshow := constantBytes_alike codec
  induction levels with
  | zero =>
    exact WriteContext.writes_lies ⟨codec, constantBytes codec, none⟩ nofun nofun hshow .none
  | succ levels ih =>
    refine WriteContext.writes_lies ⟨codec, constantBytes codec, some _⟩ ?_ ?_ hshow (.some ih)
    · rintro _ ⟨⟩
      exact liesAt_wellFormed codec levels
    · rintro _ ⟨⟩
      exact writeAt_alike codec hshow levels

end FieldType

namespace Schema

/-- A schema by which encoding takes back what decoding did. -/
structure Repeats (schema : Schema) : Prop where
  names : (schema.fields.map Prod.fst).Nodup
  sites : schema.Everywhere (Site.Repeats schema.definitions)

theorem encode_of_lies {schema : Schema} (hs : schema.Repeats) {options : CodecOptions}
    (h : schema.Lies options document cells) : schema.encode options document = .ok cells.fill := by
  have hwell : document.WellFormed := by
    refine FieldsLie.document_wellFormed h hs.names fun field hf scope left value cells hv => ?_
    obtain ⟨_, hfield⟩ := hs.sites.field hf
    have hsites := hfield.mono fun _ h => h.names
    exact FieldType.liesAt_wellFormed _ _ _ _ hsites _ _ _ _ hv
  have hroot : (Scope.root document options).WellFormed := by
    rintro (_ | up) other ho
    · cases ho
      exact hwell
    · cases ho
  refine FieldsLie.writes_record h hs.names rfl fun field hf before hbefore path left value cells
    hv => ?_
  obtain ⟨_, hfield⟩ := hs.sites.field hf
  have hgrows : (Scope.root before options).GrowsTo (Scope.root document options) :=
    ⟨rfl, hbefore, .nil⟩
  exact FieldType.writeAt_writesLayout _ _ _ _ hfield _ _ hgrows hroot _ _ _ _ hv

end Schema

end Mapsmith
