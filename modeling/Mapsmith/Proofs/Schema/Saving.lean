import Mapsmith.Proofs.Schema.Decoded
import Mapsmith.Proofs.Schema.RoundTrip

/-!
# What is saved lies there

`Schema.decode_of_encode`: a document in decoded form that is written reads back, from the
bytes written, as an equal one. The encoder sees the whole document and the decoder the fields
before the one it reads, so this asks that lengths, switches and the functions of the schema
look only at those.

The document that is read is equal and not always the same: it has the flags of the schema by
their names, and its fields in the order of the schema. So the functions of the schema must
also answer alike for equal values. In `renamedFlag_refused` one does not.
-/

namespace Mapsmith

-- ---------------------------------------------------------------------------
-- A record as far as it is read
-- ---------------------------------------------------------------------------

/-- The document has just these fields of another one, with equal values. -/
structure Document.SameOn (whole : Document) (names : List String) (part : Document) : Prop where
  names_eq : part.names = names
  wellFormed : part.WellFormed
  values : ∀ name ∈ names, Option.Rel Value.Same (whole.get? name) (part.get? name)

namespace Document.SameOn

variable {whole part : Document} {names : List String}

theorem empty (whole : Document) : whole.SameOn [] .empty :=
  ⟨rfl, ⟨by simp [Document.names, Document.empty], by simp [Document.empty]⟩, by simp⟩

theorem insert (h : whole.SameOn names part) (hnew : name ∉ names)
    (hv : whole.get? name = some value) (hsame : value.Same found) :
    whole.SameOn (names ++ [name]) (part.insert name found) := by
  have hnew' : name ∉ part.names := h.names_eq ▸ hnew
  have hnames : (part.insert name found).names = names ++ [name] := by
    rw [Document.names_insert hnew', h.names_eq]
  refine ⟨hnames, ⟨?_, ?_⟩, fun other ho => ?_⟩
  · rw [Document.names_insert hnew']
    simpa [List.nodup_append] using ⟨h.wellFormed.nodup, fun a ha => fun heq => hnew' (heq ▸ ha)⟩
  · rw [Document.insert_of_notMem hnew']
    intro entry he
    rcases List.mem_append.mp he with he | he
    · exact h.wellFormed.values entry he
    · cases List.mem_singleton.mp he
      exact hsame.right
  · rw [Document.get?_insert]
    split
    · rename_i heq
      rw [heq, hv]
      exact .some hsame
    · rename_i hne
      rcases List.mem_append.mp ho with ho | ho
      · exact h.values other ho
      · exact absurd (List.mem_singleton.mp ho) hne

theorem same (h : whole.SameOn whole.names part) (hw : whole.WellFormed) : whole.Same part := by
  refine ⟨hw, h.wellFormed, Document.beq_iff.mpr ⟨?_, fun entry he => ?_⟩⟩
  · rw [← Document.length_names, ← Document.length_names, h.names_eq]
  · have hrel := h.values entry.1 (List.mem_map_of_mem he)
    obtain ⟨value, hv, hsame⟩ := rel_some hrel (Document.get?_of_mem hw.nodup he)
    exact ⟨value, hv, hsame.beq⟩

end Document.SameOn

/-- Below scopes that agree, a record and what has been read of it agree on the
fields that have been read. -/
theorem Scope.Agree.childOn {scope scope' : Scope}
    (h : scope.Agree (Site.names ⟨seen, type⟩) scope')
    {whole part : Document} (hw : whole.WellFormed) (hp : whole.SameOn names part) :
    (scope.child whole).Agree (Site.names ⟨names :: seen, field⟩) (scope'.child part) := by
  refine ⟨h.left.child hw, h.right.child hp.wellFormed,
    h.options, by simp [Scope.child, h.levels], ?_⟩
  rintro (_ | up) document document' hd hd' name ⟨visible, hvisible, hname⟩
  · cases hd
    cases hd'
    cases hvisible
    exact rel_imp (hp.values name hname) fun _ _ hsame => hsame.beq
  · exact h.fields up document document' hd hd' name ⟨visible, hvisible, hname⟩

theorem Scope.root_agreeOn {whole part : Document} (hw : whole.WellFormed)
    (hp : whole.SameOn names part) (options : CodecOptions) :
    (Scope.root whole options).Agree (Site.names ⟨[names], field⟩) (Scope.root part options) := by
  refine ⟨?_, ?_, rfl, rfl, ?_⟩
  · rintro (_ | up) document ⟨⟩
    exact hw
  · rintro (_ | up) document ⟨⟩
    exact hp.wellFormed
  · rintro (_ | up) document document' ⟨⟩ ⟨⟩ name ⟨visible, hvisible, hname⟩
    cases hvisible
    exact rel_imp (hp.values name hname) fun _ _ hsame => hsame.beq

-- ---------------------------------------------------------------------------
-- Fields and items
-- ---------------------------------------------------------------------------

/-- A value equal to the given one lies in cells of the given bytes, whatever
follows them. -/
def Saved (lies : ValueLayout) (value : Value) (written : Bytes) : Prop :=
  ∃ found, ∃ cells : Cells, value.Same found ∧ cells.fill = written ∧ ∀ left, lies left found cells

theorem Saved.of_bytes {lies : ValueLayout} (hsame : value.Same found)
    (hlies : ∀ left, lies left found (.of written)) : Saved lies value written :=
  ⟨found, .of written, hsame, Cells.fill_of written, hlies⟩

theorem Saved.imp {lies lies' : ValueLayout} (h : Saved lies value written)
    (himp : ∀ left found cells, value.Same found → lies left found cells → lies' left found cells) :
    Saved lies' value written := by
  obtain ⟨found, cells, hsame, hfill, hlies⟩ := h
  exact ⟨found, cells, hsame, hfill, fun left => himp left found cells hsame (hlies left)⟩

theorem saved_fields {write : Writer} {layout : Layout} {whole : Scope} {scope : Document → Scope}
    {fields : List (String × FieldType)} {part : Document} {read : List String}
    (hn : (read ++ fields.map Prod.fst).Nodup) (hpart : whole.current.SameOn read part)
    (hhas : ∀ field ∈ fields, field.1 ∈ whole.current.names)
    (hparts : List.Forall₂ (Codec.WritesField write path whole) fields parts)
    (hw : ∀ before field after, fields = before ++ field :: after →
      ∀ part, whole.current.SameOn (read ++ before.map Prod.fst) part → ∀ path value written,
        whole.current.get? field.1 = some value → write path field.2 value whole = .ok written →
          Saved (layout field.2 (scope part)) value written) :
    ∃ final, ∃ cells : Cells, whole.current.SameOn (read ++ fields.map Prod.fst) final ∧
      cells.fill = parts.flatten ∧ ∀ left, FieldsLie layout scope fields part left final cells := by
  induction hparts generalizing read part with
  | nil => exact ⟨part, [], by simpa using hpart, rfl, fun _ => .nil⟩
  | @cons field written fields parts hwritten _ ih =>
    obtain ⟨hfield, hfields⟩ := List.forall_mem_cons.mp hhas
    obtain ⟨value, hv⟩ := Document.mem_names_iff.mp hfield
    rw [Codec.WritesField, hv] at hwritten
    obtain ⟨found, cells, hsame, hfill, hlies⟩ :=
      hw [] field fields rfl part (by simpa using hpart) _ _ _ hv hwritten
    have hnew : field.1 ∉ read := fun hr =>
      (List.nodup_append.mp hn).2.2 _ hr _ List.mem_cons_self rfl
    obtain ⟨final, rest, hfinal, hrest, hlie⟩ := ih
      (by simpa using hn) (hpart.insert hnew hv hsame) hfields
      fun before other after heq part hp => by
        refine hw (field :: before) other after (by rw [heq]; rfl) part ?_
        simpa using hp
    exact ⟨final, cells ++ rest, by simpa using hfinal, by simp [hfill, hrest],
      fun left => .cons (hlies _) (hlie left)⟩

theorem saved_record {write : Writer} {layout : Layout} {whole : Scope} (scope : Document → Scope)
    {fields : List (String × FieldType)} (hnames : whole.current.names = fields.map Prod.fst)
    (hn : (fields.map Prod.fst).Nodup)
    (hparts : List.Forall₂ (Codec.WritesField write path whole) fields parts)
    (hw : ∀ before field after, fields = before ++ field :: after →
      ∀ part, whole.current.SameOn (before.map Prod.fst) part → ∀ path value written,
        whole.current.get? field.1 = some value → write path field.2 value whole = .ok written →
          Saved (layout field.2 (scope part)) value written) :
    ∃ final, ∃ cells : Cells, whole.current.SameOn whole.current.names final ∧
      cells.fill = parts.flatten ∧
        ∀ left, FieldsLie layout scope fields .empty left final cells := by
  rw [hnames]
  refine saved_fields hn (.empty _) (fun field hf => ?_) hparts hw
  exact hnames ▸ List.mem_map_of_mem hf

theorem saved_items {lies : ValueLayout} {write : FieldPath → Value → Except CodecError Bytes}
    (hitems : Codec.WritesFrom write path index items written)
    (hw : ∀ item ∈ items, ∀ path written, write path item = .ok written → Saved lies item written) :
    ∃ found, ∃ cells : Cells, List.Forall₂ Value.Same items found ∧ cells.fill = written ∧
      ∀ left, ItemsLie lies left found cells := by
  induction items generalizing index written with
  | nil =>
    cases hitems
    exact ⟨[], [], .nil, rfl, fun _ => .nil⟩
  | cons item items ih =>
    obtain ⟨hitem, hrest⟩ := List.forall_mem_cons.mp hw
    obtain ⟨first, others, hfirst, hothers, rfl⟩ := hitems
    obtain ⟨found, cells, hsame, rfl, hlies⟩ := hitem _ _ hfirst
    obtain ⟨founds, rest, hsames, rfl, hlie⟩ := ih hothers hrest
    exact ⟨found :: founds, cells ++ rest, .cons hsame hsames, by simp,
      fun left => .cons (hlies _) (hlie left)⟩

theorem saved_sequence {ctx : WriteContext} (below : Option Layout) {types : List FieldType}
    {scope : Scope} (scope' : Scope) (hlen : items.length = types.length)
    (hitems : ctx.writeSequence path index types items scope = .ok written)
    (hw : ∀ pair ∈ types.zip items, ∀ path written,
      ctx.write path pair.1 pair.2 scope = .ok written →
      Saved (FieldType.Lies ctx.codec below pair.1 scope') pair.2 written) :
    ∃ found, ∃ cells : Cells, List.Forall₂ Value.Same items found ∧ cells.fill = written ∧
      ∀ left, FieldType.SequenceLies ctx.codec below types scope' left found cells := by
  induction types generalizing index items written with
  | nil =>
    cases List.length_eq_zero_iff.mp hlen
    cases pure_ok.mp hitems
    exact ⟨[], [], .nil, rfl, fun _ => ⟨rfl, rfl⟩⟩
  | cons type types ih =>
    obtain _ | ⟨item, items⟩ := items
    · cases hlen
    · obtain ⟨hitem, hrest⟩ := List.forall_mem_cons.mp hw
      simp only [WriteContext.writeSequence, bind_ok, pure_ok] at hitems
      obtain ⟨first, hfirst, others, hothers, rfl⟩ := hitems
      obtain ⟨found, cells, hsame, rfl, hlies⟩ := hitem _ _ hfirst
      obtain ⟨founds, rest, hsames, rfl, hlie⟩ := ih (by simpa using hlen) hothers hrest
      exact ⟨found :: founds, cells ++ rest, .cons hsame hsames, by simp,
        fun left => ⟨found, founds, cells, rest, rfl, rfl, hlies _, hlie left⟩⟩

-- ---------------------------------------------------------------------------
-- Packed units
-- ---------------------------------------------------------------------------

theorem PackedField.DecodedPart.same {field : PackedField} (h : field.DecodedPart part)
    (hword : Codec.wordOf? part = some word) : part.Same (Decoder.packedValue field word) := by
  unfold DecodedPart at h
  unfold Decoder.packedValue
  cases hflags : field.flags with
  | some set =>
    rw [hflags] at h
    obtain ⟨bits, names, rfl⟩ := h
    cases hword
    exact ⟨.flags _ _, .flags _ _, Value.flags_beq_iff.mpr ⟨_, rfl⟩⟩
  | none =>
    rw [hflags] at h
    obtain ⟨n, hn, rfl⟩ := h
    have hn' : UInt64.ofNat n.toInt.toNat = word := by
      simpa [Codec.wordOf?, Value.asInt?, hn] using hword
    have hlt := n.toInt_lt
    have hnat : word.toNat = n.toInt.toNat := by
      rw [← hn', UInt64.toNat_ofNat', Nat.mod_eq_of_lt (by omega)]
    have hback : word.toInt64 = n := by
      rw [← Int64.toInt_inj, PackedUnit.toInt_toInt64 (by omega), hnat]
      omega
    show (Value.int n).Same (.int word.toInt64)
    rw [hback]
    exact .refl (.int _)

theorem saved_packed {unit : PackedUnit} {document : Document}
    (hn : (unit.fields.map PackedField.name).Nodup)
    (hnames : document.names = unit.fields.map PackedField.name)
    (hparts : ∀ field ∈ unit.fields, ∀ part, document.get? field.name = some part →
      field.DecodedPart part)
    (hw : Codec.writePacked path unit (.struct document) = .ok written) :
    unit.check = .ok () ∧ written.length = unit.size ∧
      (Value.struct document).Same (unit.value written) := by
  obtain ⟨hcheck, _, ⟨⟩, words, hwords, rfl⟩ := Codec.writePacked_ok.mp hw
  have hsplit : unit.split (unit.join words) = words := by
    refine PackedUnit.split_join hcheck (hwords.imp ?_)
    rintro field word ⟨_, _, _, hfits⟩
    exact hfits
  refine ⟨hcheck, unit.length_join words, ?_⟩
  rw [PackedUnit.value_eq hn, hsplit]
  have hentries : (⟨unit.entries words⟩ : Document).names = document.names := by
    rw [hnames, Document.names, PackedUnit.map_entries hwords.length_eq.symm]
  have hwell : document.WellFormed := by
    refine Document.wellFormed_of_names hnames hn fun name hname value hv => ?_
    obtain ⟨field, hf, rfl⟩ := List.mem_map.mp hname
    exact (hparts field hf value hv).wellFormed
  have hfound : (⟨unit.entries words⟩ : Document).WellFormed := by
    have hvalue := PackedUnit.wellFormed_value hn (unit.join words)
    rw [PackedUnit.value_eq hn, hsplit] at hvalue
    exact hvalue.of_struct
  refine Document.Same.toStruct
    (Document.SameOn.same ⟨hentries, hfound, fun name hname => ?_⟩ hwell)
  rw [hnames] at hname
  obtain ⟨field, hf, rfl⟩ := List.mem_map.mp hname
  obtain ⟨i, hi, rfl⟩ := List.getElem_of_mem hf
  have hi' := hwords.length_eq ▸ hi
  obtain ⟨part, hpart, hword, -⟩ := hwords.get hi hi'
  have hmem : (unit.fields[i].name, Decoder.packedValue unit.fields[i] words[i]) ∈
      unit.entries words := by
    refine List.mem_map.mpr ⟨(unit.fields[i], words[i]), ?_, rfl⟩
    rw [List.mem_iff_getElem]
    exact ⟨i, by simp; omega, by simp⟩
  have hget :=
    Document.get?_of_mem
    (hentries ▸ hnames ▸ hn : (⟨unit.entries words⟩ : Document).names.Nodup) hmem
  rw [hget]
  simp only [List.get_eq_getElem] at hpart hword
  rw [hpart]
  exact .some ((hparts _ hf _ hpart).same hword)

-- ---------------------------------------------------------------------------
-- Types
-- ---------------------------------------------------------------------------

/-- What the type tells apart stays apart when it is written, and it does not take
what is left of the input or the first alternative that goes through. -/
def FieldType.Recoverable : FieldType → Prop
  | .bytes length | .array length _ => length ≠ .remaining
  | .bool _ _ no yes => no ≠ yes
  | .enum _ variants => (variants.map Prod.fst).Nodup
  | .greedy _ | .select _ => False
  | _ => True

/-- A site where decoding takes back what encoding did. -/
structure Site.Recovers (site : Site) : Prop where
  recoverable : site.type.Recoverable
  names : site.NamesDistinct
  looks : site.type.LooksAt site.names
  values : site.type.ValuesWellFormed

theorem Site.Recovers.alike {site : Site} (h : site.Recovers) : site.Alike :=
  ⟨h.looks.mono fun _ _ _ => trivial, h.values⟩

theorem Site.Recovers.noSelection {site : Site} (h : site.Recovers) : site.NoSelection := by
  intro alternatives heq
  have hr := h.recoverable
  rw [heq] at hr
  exact hr

theorem FieldType.variantName?_eq_of_same {raw raw' : Value} (h : raw.Same raw') :
    variantName? variants raw = variantName? variants raw' := by
  have hkey : (fun variant : String × Value => variant.2 == raw) =
      fun variant => variant.2 == raw' := by
    funext variant
    rw [Bool.eq_iff_iff]
    exact ⟨fun heq => Value.beq_trans heq h.beq, fun heq => Value.beq_trans heq h.symm.beq⟩
  rw [variantName?, variantName?, hkey]

theorem Length.not_asks_none {length : Length} (h : length ≠ .remaining) :
    ¬length.Asks scope none := by
  intro hasks
  unfold Asks resolve at hasks
  cases length with
  | remaining => exact h rfl
  | fixed n => cases hasks
  | lookup table key =>
    simp only [bind_ok] at hasks
    obtain ⟨_, _, hn⟩ := hasks
    split at hn <;> cases hn
  | field | product | scaled | computed =>
    simp only [bind_ok, pure_ok, reduceCtorEq, and_false, exists_false] at hasks

/-- A writer after which a value in decoded form lies by the layout. -/
def SavesLayout (definitions : Nat → FieldType) (write : Writer) (layout : Layout) : Prop :=
  ∀ seen type, Site.Everywhere definitions Site.Recovers ⟨seen, type⟩ →
    ∀ scope scope' : Scope, scope.Agree (Site.names ⟨seen, type⟩) scope' →
      ∀ path value written, FieldType.Decoded definitions type scope value →
        write path type value scope = .ok written → Saved (layout type scope') value written

section

open Codec

variable {codec : Codec} {below : Option Layout} {scope : Scope}

theorem saved_int {n : Int64} (hw : writeInt path kind order n.toInt = .ok written) :
    Saved (FieldType.Lies codec below (.int kind order) scope) (.int n) written := by
  obtain ⟨hmin, hmax, rfl⟩ := writeInt_ok.mp hw
  refine .of_bytes (.refl (.int n)) fun left => ⟨_, kind.length_encode order _, rfl, ?_⟩
  rw [kind.decode_encode order hmin hmax, Int64.ofInt_toInt]

theorem saved_float (order : ByteOrder) (bits : UInt32) :
    Saved (FieldType.Lies codec below (.float order) scope) (.float bits)
      (order.encode 4 bits.toNat) := by
  refine .of_bytes (.refl (.float bits)) fun left => ⟨_, order.length_encode 4 _, rfl, ?_⟩
  have hlt : bits.toNat < Nat.pow 256 4 := bits.toNat_lt
  rw [order.decode_encode, Nat.mod_eq_of_lt hlt, UInt32.ofNat_toNat]

/-- Two numbers that are told apart tell the truth values apart. -/
theorem saved_bool {no yes : Int} (hne : no ≠ yes) {b : Bool}
    (hw : writeInt path kind order (if b then yes else no) = .ok written) :
    Saved (FieldType.Lies codec below (.bool kind order no yes) scope) (.bool b) written := by
  obtain ⟨hmin, hmax, rfl⟩ := writeInt_ok.mp hw
  refine .of_bytes (.refl (.bool b)) fun left => ⟨_, kind.length_encode order _, rfl, ?_⟩
  rw [kind.decode_encode order hmin hmax]
  cases b with
  | true => exact .inl ⟨rfl, rfl⟩
  | false => exact .inr ⟨rfl, hne, rfl⟩

theorem saved_flags {set : FlagSet} {bits : UInt64} (names : List String)
    (hw : writeFlags path set bits.toNat = .ok written) :
    Saved (FieldType.Lies codec below (.flags set) scope) (.flags bits names) written := by
  obtain ⟨hlt, rfl⟩ := writeFlags_ok.mp hw
  have hsame : (Value.flags bits names).Same (set.valueOf bits) :=
    ⟨.flags _ _, .flags _ _, Value.flags_beq_iff.mpr ⟨_, rfl⟩⟩
  refine .of_bytes hsame fun left => ⟨_, set.order.length_encode _ _, rfl, ?_⟩
  have hpow : Nat.pow 256 set.kind.size = 2 ^ set.kind.width := by cases set.kind <;> rfl
  rw [set.order.decode_encode, hpow, Nat.mod_eq_of_lt hlt, UInt64.ofNat_toNat]

theorem saved_enum {repr : FieldType} {raw : Value}
    (h : Saved (FieldType.Lies codec below repr scope) raw written) :
    Saved (FieldType.Lies codec below (.enum repr variants) scope)
      (.enum (FieldType.variantName? variants raw) raw) written := by
  obtain ⟨found, cells, hsame, hfill, hlies⟩ := h
  refine ⟨.enum (FieldType.variantName? variants found) found, cells, ?_, hfill,
    fun left => ⟨found, hlies left, rfl⟩⟩
  rw [FieldType.variantName?_eq_of_same hsame]
  exact ⟨.enum hsame.left, .enum hsame.right, Value.enum_beq_iff.mpr ⟨found, rfl, hsame.beq⟩⟩

end

namespace WriteContext

open Codec

theorem saves_lies (ctx : WriteContext) {below : Option Layout}
    (ha : ∀ write ∈ ctx.deeper, WritesAlike ctx.codec.definitions write)
    (hshow : ShowsAlike ctx.codec.definitions ctx.constantBytes)
    (hd : Option.Rel (SavesLayout ctx.codec.definitions) ctx.deeper below) :
    SavesLayout ctx.codec.definitions ctx.write (FieldType.Lies ctx.codec below) := by
  intro seen type hs scope scope' hagree path value written hdec hw
  have hwell := hdec.wellFormed (hs.mono fun _ h => h.names)
  induction type using FieldType.induction generalizing path value written with
  | int kind order =>
    cases hdec with
    | int =>
      simp only [write, bind_ok, expect_ok] at hw
      obtain ⟨_, ⟨⟩, hw⟩ := hw
      exact saved_int hw
  | float order =>
    cases hdec with
    | @float _ _ bits =>
      simp only [write, bind_ok, expect_ok, pure_ok] at hw
      obtain ⟨_, ⟨⟩, rfl⟩ := hw
      exact saved_float order bits
  | text =>
    cases hdec with
    | @text _ text =>
      simp only [write, bind_ok, expect_ok, writeText_ok] at hw
      obtain ⟨_, ⟨⟩, hzero, rfl⟩ := hw
      exact .of_bytes (.refl hwell) fun left => ⟨text, hzero, rfl, rfl⟩
  | id =>
    cases hdec with
    | @id _ code =>
      simp only [write, bind_ok, expect_ok, pure_ok] at hw
      obtain ⟨_, ⟨⟩, rfl⟩ := hw
      exact .of_bytes (.refl hwell) fun left => ⟨code, rfl, rfl⟩
  | reversedId =>
    cases hdec with
    | @reversedId _ code =>
      simp only [write, bind_ok, expect_ok, pure_ok] at hw
      obtain ⟨_, ⟨⟩, rfl⟩ := hw
      refine .of_bytes (.refl hwell) fun left => ⟨code.reverse, rfl, ?_⟩
      rw [FourCC.reverse_reverse]
  | bytes length =>
    cases hdec with
    | bytes =>
      rw [write_bytes_ok] at hw
      obtain ⟨hcontent, hasks⟩ := hw
      cases hcontent
      have hasks := hasks.resolve_right (Length.not_asks_none hs.here.recoverable)
      exact .of_bytes (.refl hwell) fun left =>
        ⟨written, rfl, rfl, .inl (hs.here.looks.asks hagree hasks)⟩
  | const inner expected ih =>
    cases hdec with
    | const hdec =>
      rw [write] at hw
      split at hw
      · rename_i heq
        have hsame : value.Same expected := .of_beq hwell heq
        have hinner := hs.part .const
        have hwritten :=
          (write_alike ctx ha hshow _ _ (hinner.mono fun _ h => h.alike) _ _ _ _ _ hsame.symm
            hagree.left.agree).result hw
        have hsaved := ih hinner hagree _ _ _ hdec hwritten hwell
        exact hsaved.imp fun left found cells hfound hlies =>
          ⟨hlies, (hfound.symm.trans hsame).beq⟩
      · cases hw
  | bool kind order no yes =>
    cases hdec with
    | bool =>
      rw [write] at hw
      exact saved_bool hs.here.recoverable hw
  | enum repr variants ih =>
    cases hdec with
    | enum hdec =>
      rw [write] at hw
      have hinner := hs.part .enum
      have hraw := rawValue_enum_same hs.here.recoverable hs.here.values hwell.of_enum
      have hwritten :=
        (write_alike ctx ha hshow _ _ (hinner.mono fun _ h => h.alike) _ _ _ _ _ hraw.symm
          hagree.left.agree).result hw
      exact saved_enum (ih hinner hagree _ _ _ hdec hwritten hwell.of_enum)
  | flags set =>
    cases hdec with
    | @flags _ _ _ names =>
      rw [write] at hw
      exact saved_flags names hw
  | record name fields =>
    cases hdec with
    | @record _ _ _ document hnames hdec =>
      simp only [write, bind_ok, expect_ok, descend_ok, writeFields_ok] at hw
      obtain ⟨_, ⟨⟩, write, hwrite, -, parts, hparts, rfl⟩ := hw
      obtain ⟨layout, hlayout, hsaves⟩ := rel_some hd hwrite
      obtain ⟨final, cells, hfinal, hfill, hlie⟩ :=
        saved_record scope'.child hnames hs.here.names hparts
          fun before field after heq part hpart path value written hv hw => by
            subst heq
            refine hsaves _ _ (hs.part .field) _ _
              (hagree.childOn hwell.of_struct hpart) _ _ _ (hdec field ?_ value hv) hw
            exact List.mem_append_right _ List.mem_cons_self
      exact ⟨.struct final, cells, (hfinal.same hwell.of_struct).toStruct, hfill, fun left =>
        ⟨layout, hlayout, final, hlie left, rfl⟩⟩
  | array length element ih =>
    cases hdec with
    | @array _ _ _ items hdec =>
      simp only [write, bind_ok, expect_ok, checkCount_ok, writeItems_ok] at hw
      obtain ⟨_, ⟨⟩, _, hasks, hw⟩ := hw
      have hasks := hasks.resolve_right (Length.not_asks_none hs.here.recoverable)
      obtain ⟨found, cells, hsame, hfill, hlie⟩ := saved_items hw fun item hi path written h =>
        ih (hs.part .element) hagree _ _ _ (hdec item hi) h (hwell.of_array item hi)
      refine ⟨.array found, cells, .array hsame, hfill,
        fun left => ⟨found, rfl, .inl ⟨?_, hlie left⟩⟩⟩
      rw [← hsame.length_eq]
      exact hs.here.looks.asks hagree hasks
  | greedy element => exact hs.here.recoverable.elim
  | sequence types ih =>
    cases hdec with
    | @sequence _ _ items hlen hdec =>
      obtain ⟨_, ⟨⟩, -, hw⟩ := write_sequence_ok.mp hw
      obtain ⟨found, cells, hsame, hfill, hlie⟩ :=
        saved_sequence below scope' hlen hw fun pair hp path written h => by
          obtain ⟨ht, hi⟩ := List.of_mem_zip hp
          exact ih _ ht (hs.part (.item ht)) hagree _ _ _ (hdec pair hp) h
            (hwell.of_array _ hi)
      exact ⟨.array found, cells, .array hsame, hfill, fun left => ⟨found, rfl, hlie left⟩⟩
  | switch on cases default ihc ihd =>
    cases hdec with
    | @switch _ _ _ _ discriminant type _ hdisc hp hdec =>
      obtain ⟨_, _, hdisc', hp', hw⟩ := write_switch_ok.mp hw
      cases hdisc.symm.trans hdisc'
      cases hp.symm.trans hp'
      obtain ⟨found, hfound, hsame⟩ := hagree.resolve hs.here.looks hdisc
      have hpick : FieldType.pick? cases default found = some type := by
        rw [← FieldType.pick?_eq_of_beq _ _ hsame.beq, hp]
      have hsaved : Saved (FieldType.Lies ctx.codec below type scope') value written := by
        rcases FieldType.mem_of_pick? hp with ⟨case, hc, rfl⟩ | ht
        · exact ihc case hc (hs.part (.case hc)) hagree _ _ _ hdec hw hwell
        · exact ihd type ht (hs.part (.default ht)) hagree _ _ _ hdec hw hwell
      exact hsaved.imp fun left stored cells _ hlies =>
        FieldType.switch_lies_iff.mpr ⟨found, type, hfound, hpick, hlies⟩
  | conditional condition yes no ihy ihn =>
    simp only [write, bind_ok, answered_ok] at hw
    obtain ⟨truth, htruth, hw⟩ := hw
    have htruth' := hs.here.looks _ _ hagree _ htruth
    cases hdec with
    | yes htrue hdec =>
      cases htrue.symm.trans htruth
      have hsaved := ihy (hs.part .yes) hagree _ _ _ hdec hw hwell
      exact hsaved.imp fun left found cells _ hlies => .inl ⟨htruth', hlies⟩
    | no hfalse hdec =>
      cases hfalse.symm.trans htruth
      have hsaved := ihn (hs.part .no) hagree _ _ _ hdec hw hwell
      exact hsaved.imp fun left found cells _ hlies => .inr ⟨htruth', hlies⟩
  | select alternatives => exact hs.here.recoverable.elim
  | checked relation holds inner ih =>
    cases hdec with
    | checked hdec =>
      rw [write] at hw
      split at hw
      · rename_i hholds
        have hsaved := ih (hs.part .checked) hagree _ _ _ hdec hw hwell
        exact hsaved.imp fun left found cells hfound hlies =>
          ⟨hlies, hs.here.looks _ _ hagree _ _ hfound hholds⟩
      · cases hw
  | padded size inner ih =>
    cases hdec with
    | padded hdec =>
      simp only [write, bind_ok, fillBlock_ok] at hw
      obtain ⟨content, hcontent, hle, rfl⟩ := hw
      obtain ⟨found, cells, hfound, rfl, hlies⟩ :=
        ih (hs.part .padded) hagree _ _ _ hdec hcontent hwell
      rw [Cells.length_fill] at hle
      exact ⟨found, cells ++ .gap (size - cells.length), hfound, by simp, fun left =>
        ⟨cells, hle, hlies _, rfl⟩⟩
  | packed unit =>
    cases hdec with
    | packed hnames hparts =>
      rw [write] at hw
      obtain ⟨hcheck, hlen, hsame⟩ := saved_packed hs.here.names hnames hparts hw
      exact .of_bytes hsame fun left => ⟨hcheck, written, hlen, rfl, rfl⟩
  | lazy slot =>
    cases hdec with
    | lazy hdec =>
      rw [write, descend_ok] at hw
      obtain ⟨write, hwrite, hw⟩ := hw
      obtain ⟨layout, hlayout, hsaves⟩ := rel_some hd hwrite
      have hsaved := hsaves _ _ (hs.part .lazy) _ _ hagree _ _ _ hdec hw
      exact hsaved.imp fun left found cells _ hlies => ⟨layout, hlayout, hlies⟩

end WriteContext

theorem FieldType.writeAt_savesLayout (codec : Codec) (levels : Nat) : SavesLayout codec.definitions
    (writeAt codec (constantBytes codec) levels) (LiesAt codec levels) := by
  have hshow := constantBytes_alike codec
  induction levels with
  | zero => exact WriteContext.saves_lies ⟨codec, constantBytes codec, none⟩ nofun hshow .none
  | succ levels ih =>
    refine WriteContext.saves_lies ⟨codec, constantBytes codec, some _⟩ ?_ hshow (.some ih)
    rintro _ ⟨⟩
    exact writeAt_alike codec hshow levels

namespace Schema

/-- A schema by which decoding takes back what encoding did. -/
structure Recovers (schema : Schema) : Prop where
  names : (schema.fields.map Prod.fst).Nodup
  sites : schema.Everywhere Site.Recovers

/-- What is saved reads back as the same document, up to the names of flags and the order of
fields, which do not count for its equality. The functions of the schema look only at fields
before their own, and answer alike for equal values in them. -/
theorem decode_of_encode {schema : Schema} (hs : schema.Recovers) {options : CodecOptions}
    (hd : schema.Decoded options document) (h : schema.encode options document = .ok bytes) :
    ∃ found, schema.decode options bytes = .ok found ∧ found == document := by
  obtain ⟨-, parts, hparts, rfl⟩ := Codec.writeFields_ok.mp h
  have hwell : document.WellFormed := by
    refine Document.wellFormed_of_names hd.names hs.names fun name hn value hv => ?_
    obtain ⟨field, hf, rfl⟩ := List.mem_map.mp hn
    obtain ⟨_, hfield⟩ := hs.sites.field hf
    exact (hd.values field hf value hv).wellFormed (hfield.mono fun _ h => h.names)
  obtain ⟨found, cells, hfound, hfill, hlie⟩ :=
    saved_record (Scope.root · options) hd.names hs.names hparts
      fun before field after heq part hpart path value written hv hw => by
        have hf : field ∈ schema.fields := heq ▸ List.mem_append_right _ List.mem_cons_self
        exact FieldType.writeAt_savesLayout _ _ _ _ (hs.sites _ _ _ heq) _ _
          (Scope.root_agreeOn hwell hpart options) _ _ _ (hd.values field hf value hv) hw
  have hselection : schema.Everywhere Site.NoSelection := fun before field after heq =>
    (hs.sites before field after heq).mono fun _ h => h.noSelection
  refine ⟨found, decode_of_lies hselection (hlie 0) (hfill ▸ cells.match_fill), ?_⟩
  exact (hfound.same hwell).symm.beq

/-- A document whose block was edited, and its count with it. -/
theorem decode_of_encode_countedBlock :
    countedBlock.encode {} ⟨[("count", .int 3), ("block", .array [.int 1, .int 2, .int 3])]⟩ =
        .ok [3, 1, 2, 3, 0] ∧
      ∃ found, countedBlock.decode {} [3, 1, 2, 3, 0] = .ok found ∧
        found == ⟨[("count", .int 3), ("block", .array [.int 1, .int 2, .int 3])]⟩ := by
  have he :
      countedBlock.encode {} ⟨[("count", .int 3), ("block", .array [.int 1, .int 2, .int 3])]⟩ =
      .ok [3, 1, 2, 3, 0] := rfl
  have hs : countedBlock.Recovers := by
    refine ⟨by decide, countedBlock_everywhere ?_ ?_ ?_⟩
    · exact fun _ _ _ => ⟨trivial, trivial, trivial, trivial⟩
    · refine ⟨nofun, trivial, ⟨?_, nofun⟩, trivial⟩
      rintro _ (_ | ⟨_, ⟨⟩⟩) _ ⟨⟩
      exact ⟨["count"], rfl, List.mem_cons_self⟩
    · exact fun _ _ _ => ⟨trivial, trivial, trivial, trivial⟩
  have hd : countedBlock.Decoded {}
      ⟨[("count", .int 3), ("block", .array [.int 1, .int 2, .int 3])]⟩ := by
    refine ⟨rfl, ?_⟩
    rintro _ (_ | ⟨_, _ | ⟨_, ⟨⟩⟩⟩) value hv
    · cases hv
      exact .int
    · cases hv
      refine .padded (.array ?_)
      rintro _ (_ | ⟨_, _ | ⟨_, _ | ⟨_, ⟨⟩⟩⟩⟩) <;> exact .int
  exact ⟨he, decode_of_encode hs hd he⟩

/-- Whether the flags before a value go by their old name. -/
def goByOldName (_ : Value) (scope : Scope) : Bool :=
  match scope.current.get? "mark" with
  | some (.flags _ names) => names == ["old"]
  | _ => false

/-- A flag, and a number that is refused unless that flag goes by its old name. -/
def renamedFlag : Schema where
  name := "RenamedFlag"
  fields := [("mark", .flags ⟨.u8, .little, [("a", 1)]⟩),
    ("number", .checked "old" goByOldName (.int .u8 .little))]

/-- The names of flags are not written, so a check that asks for others than those of the bits
passes when the document is written, and not when it is read. -/
theorem renamedFlag_refused :
    (renamedFlag.fields.map Prod.fst).Nodup ∧
      (renamedFlag.Everywhere fun site =>
        site.type.Recoverable ∧ site.NamesDistinct ∧ site.type.ValuesWellFormed) ∧
      (∀ value (scope scope' : Scope), scope.current.get? "mark" = scope'.current.get? "mark" →
        goByOldName value scope = goByOldName value scope') ∧
      renamedFlag.Decoded {} ⟨[("mark", .flags 1 ["old"]), ("number", .int 5)]⟩ ∧
      renamedFlag.encode {} ⟨[("mark", .flags 1 ["old"]), ("number", .int 5)]⟩ = .ok [1, 5] ∧
      renamedFlag.decode {} [1, 5] = .error (.validation "number" (.check "old")) := by
  refine ⟨by decide, ?_, ?_, ⟨rfl, ?_⟩, rfl, rfl⟩
  · rintro (_ | ⟨_, _ | ⟨_, before⟩⟩) field after heq
    · cases heq
      exact .intro ⟨trivial, trivial, trivial⟩ nofun
    · cases heq
      refine .intro ⟨trivial, trivial, trivial⟩ ?_
      rintro _ ⟨⟩
      exact .intro ⟨trivial, trivial, trivial⟩ nofun
    · simp [renamedFlag] at heq
  · intro value scope scope' heq
    simp only [goByOldName, heq]
  · rintro _ (_ | ⟨_, _ | ⟨_, ⟨⟩⟩⟩) value hv
    · cases hv
      exact .flags
    · cases hv
      exact .checked .int

end Schema

end Mapsmith
