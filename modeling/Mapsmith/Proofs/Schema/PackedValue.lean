import Mapsmith.Proofs.Schema.Running

/-!
# The value of a packed unit

`FieldType.writeAt_of_readAt_packed`: a unit that passes its check is read from any bytes, and
what was read is written as these bytes again, whatever the widths and the order of the bits.
The one exception is a field without flags that takes the highest bit of a 64-bit word: the
word is then read as an integer below zero, and such an integer is not written.
-/

namespace Mapsmith

/-- The field reads the word as an integer below zero. -/
def PackedField.isNegative (field : PackedField) (word : UInt64) : Bool :=
  field.flags.isNone && decide (2 ^ 63 ≤ word.toNat)

/-- The first field of a unit that reads its bits as an integer below zero, and the word of
these bits. -/
def PackedUnit.negative? (unit : PackedUnit) (bytes : Bytes) : Option (PackedField × UInt64) :=
  (unit.fields.zip (unit.split bytes)).find? fun (field, word) => field.isNegative word

/-- A field of fewer than 64 bits leaves the highest bit of its word clear. -/
theorem PackedUnit.negative?_of_narrow {unit : PackedUnit}
    (hw : ∀ field ∈ unit.fields, field.flags = none → field.width.toNat < 64)
    (hc : unit.check = .ok ()) (bytes : Bytes) : unit.negative? bytes = none := by
  have hwidth := (check_ok_iff.mp hc).widths
  rw [negative?, List.find?_eq_none]
  rintro ⟨field, word⟩ hm hneg
  simp only [PackedField.isNegative, Bool.and_eq_true, Option.isNone_iff_eq_none,
    decide_eq_true_eq] at hneg
  obtain ⟨hflags, hhigh⟩ := hneg
  have hf := (List.of_mem_zip hm).1
  have hfits := (List.forall₂_iff_zip.mp (unit.fits_split bytes)).2 hm
  have hlow := toNat_lt_of_fits (hwidth field hf) (hw field hf hflags) hfits
  omega

theorem toInt_toInt64_neg {word : UInt64} (h : 2 ^ 63 ≤ word.toNat) : word.toInt64.toInt < 0 := by
  show word.toBitVec.toInt < 0
  rw [BitVec.toInt_neg_iff, UInt64.toNat_toBitVec]
  omega

namespace Codec

theorem packedWord_packedValue {field : PackedField}
    (hf : PackedUnit.fits field.width word = true) :
    packedWord path field (Decoder.packedValue field word) =
      if field.isNegative word then
        .error (.roundTrip path.toText (.negative word.toInt64.toInt))
      else .ok word := by
  cases hflags : field.flags with
  | some set =>
    have hword : wordOf? (Decoder.packedValue field word) = some word := by
      rw [Decoder.packedValue, hflags]
      rfl
    rw [PackedField.isNegative, hflags]
    exact packedWord_ok.mpr ⟨hword, hf⟩
  | none =>
    rw [PackedField.isNegative, hflags, Decoder.packedValue, hflags]
    by_cases hhigh : 2 ^ 63 ≤ word.toNat
    · have hneg := toInt_toInt64_neg hhigh
      simp only [Option.isNone_none, hhigh, decide_true, Bool.and_self, if_true, packedWord,
        Value.asInt?, expect, pure_bind, hneg]
      rfl
    · have hpos : word.toInt64.toInt = word.toNat := PackedUnit.toInt_toInt64 (by omega)
      have hword : wordOf? (.int word.toInt64) = some word := by
        simp [wordOf?, Value.asInt?, hpos]
      simp only [hhigh, decide_false, Bool.and_false, Bool.false_eq_true, if_false]
      exact packedWord_ok.mpr ⟨hword, hf⟩

/-- Where each field gives its word or refuses it, the words are collected up to the first
that is refused. -/
theorem mapM_words {collect : PackedField → Except CodecError UInt64} {fields : List PackedField}
    {refusal : PackedField → UInt64 → CodecError} {words : List UInt64}
    (hlen : fields.length = words.length)
    (h : ∀ field word, (field, word) ∈ fields.zip words →
      collect field = if field.isNegative word then .error (refusal field word) else .ok word) :
    fields.mapM collect =
      match (fields.zip words).find? fun (field, word) => field.isNegative word with
      | none => .ok words
      | some (field, word) => .error (refusal field word) := by
  induction fields generalizing words with
  | nil =>
    cases List.length_eq_zero_iff.mp hlen.symm
    rfl
  | cons field fields ih =>
    obtain ⟨word, words, rfl⟩ := List.exists_cons_of_length_eq_add_one hlen.symm
    rw [List.mapM_cons, h field word List.mem_cons_self,
      ih (by simpa using hlen) fun field word hm => h field word (List.mem_cons_of_mem _ hm)]
    simp only [List.zip_cons_cons, List.find?_cons]
    cases field.isNegative word with
    | true => rfl
    | false =>
      dsimp only [Bool.false_eq_true, if_false]
      cases (fields.zip words).find? fun (field, word) => field.isNegative word <;> rfl

theorem writePacked_value_eq {unit : PackedUnit} (hc : unit.check = .ok ())
    (hn : (unit.fields.map PackedField.name).Nodup) (hb : bytes.length = unit.size) :
    writePacked path unit (unit.value bytes) =
      match unit.negative? bytes with
      | none => .ok bytes
      | some (field, word) =>
        .error (.roundTrip (path.push (.name field.name)).toText
          (.negative word.toInt64.toInt)) := by
  have hentries (field : PackedField) (word : UInt64)
      (hm : (field, word) ∈ unit.fields.zip (unit.split bytes)) :
      Document.get? ⟨unit.entries (unit.split bytes)⟩ field.name =
        some (Decoder.packedValue field word) := by
    refine Document.get?_of_mem ?_ (List.mem_map.mpr ⟨(field, word), hm, rfl⟩)
    rw [Document.names, PackedUnit.map_entries (unit.length_split bytes)]
    exact hn
  rw [writePacked, hc, PackedUnit.value_eq hn, PackedUnit.negative?]
  show (List.mapM _ unit.fields >>=
      fun words => (pure (unit.join words) : Except CodecError Bytes)) = _
  rw [mapM_words (unit.length_split bytes).symm fun field word hm => by
    simp only [hentries field word hm]
    exact packedWord_packedValue ((List.forall₂_iff_zip.mp (unit.fits_split bytes)).2 hm)]
  split
  · exact congrArg Except.ok (PackedUnit.join_split hc hb)
  · rfl

end Codec

/-- A unit that passes its check is read from any bytes, and what was read is written as these
bytes, or refused for the first field that was read as an integer below zero. There is none
where the fields without flags are narrower than 64 bits. -/
theorem FieldType.writeAt_of_readAt_packed {unit : PackedUnit} {bytes : Bytes}
    (hc : unit.check = .ok ())
    (hn : (unit.fields.map PackedField.name).Nodup) (hb : bytes.length = unit.size)
    (codec : Codec) (constantBytes : FieldType → Value → Option Bytes) (levels : Nat)
    (scope : Scope) :
    ∃ document, (∀ offset rest path, readAt codec levels (.packed unit) scope
        ⟨offset, bytes ++ rest, path⟩ = .ok (.struct document) ⟨offset + unit.size, rest, path⟩) ∧
      (∀ path, writeAt codec constantBytes levels path (.packed unit) (.struct document) scope =
        match unit.negative? bytes with
        | none => .ok bytes
        | some (field, word) =>
          .error (.roundTrip (path.push (.name field.name)).toText
            (.negative word.toInt64.toInt))) ∧
      ((∀ field ∈ unit.fields, field.flags = none → field.width.toNat < 64) →
        unit.negative? bytes = none) := by
  obtain ⟨document, hdocument⟩ : ∃ document, unit.value bytes = .struct document := ⟨_, rfl⟩
  obtain ⟨ctx, hctx, -⟩ := exists_readContext codec levels
  obtain ⟨ctx', hctx', -⟩ := exists_writeContext codec constantBytes levels
  refine ⟨document, fun offset rest path => ?_, fun path => ?_,
    fun hw => PackedUnit.negative?_of_narrow hw hc bytes⟩
  · have htake : Decoder.take unit.size ⟨offset, bytes ++ rest, path⟩ =
        .ok bytes ⟨offset + unit.size, rest, path⟩ := by
      rw [← hb]
      simp [Decoder.take, Place.advance]
    rw [hctx, ReadContext.read, Decoder.readPacked, hc, ← hdocument]
    exact Decoder.map_run.mpr ⟨bytes, htake, rfl⟩
  · rw [hctx', WriteContext.write, ← hdocument]
    exact Codec.writePacked_value_eq hc hn hb

/-- Two bytes that hold numbers and a set of flags. -/
def mixedUnit : PackedUnit :=
  ⟨2, .highFirst, [⟨"kind", 3, none⟩, ⟨"marks", 5, some ⟨.u8, .little, [("on", 1), ("seen", 16)]⟩⟩,
    ⟨"count", 8, none⟩]⟩

theorem mixedUnit_written :
    mixedUnit.check = .ok () ∧ (mixedUnit.fields.map PackedField.name).Nodup ∧
      ([0xB1, 0x80] : Bytes).length = mixedUnit.size ∧
      ∃ document, (∀ offset rest path,
          FieldType.readAt ⟨{}, fun _ => .text⟩ 1 (.packed mixedUnit) (.root .empty {})
              ⟨offset, [0xB1, 0x80] ++ rest, path⟩ =
            .ok (.struct document) ⟨offset + mixedUnit.size, rest, path⟩) ∧
        ∀ path, FieldType.writeAt ⟨{}, fun _ => .text⟩ (fun _ _ => some []) 1 path
          (.packed mixedUnit) (.struct document) (.root .empty {}) = .ok [0xB1, 0x80] := by
  have hcheck : mixedUnit.check = .ok () := rfl
  have hnames : (mixedUnit.fields.map PackedField.name).Nodup := by decide
  have hbytes : ([0xB1, 0x80] : Bytes).length = mixedUnit.size := rfl
  obtain ⟨document, hread, hwrite, hnarrow⟩ := FieldType.writeAt_of_readAt_packed
    hcheck hnames hbytes ⟨{}, fun _ => .text⟩ (fun _ _ => some []) 1 (.root .empty {})
  refine ⟨hcheck, hnames, hbytes, document, hread, fun path => ?_⟩
  rw [hwrite, hnarrow (by decide)]

/-- A unit of one field that takes all of a 64-bit word. -/
def wholeWord : Schema where
  name := "Whole"
  fields := [("unit", .packed ⟨8, .lowFirst, [⟨"all", 64, none⟩]⟩)]

/-- What is read from a word with its highest bit set is not written. -/
theorem wholeWord_refused :
    wholeWord.decode {} (List.replicate 8 255) =
        .ok ⟨[("unit", .struct ⟨[("all", .int (-1))]⟩)]⟩ ∧
      wholeWord.encode {} ⟨[("unit", .struct ⟨[("all", .int (-1))]⟩)]⟩ =
        .error (.roundTrip "unit.all" (.negative (-1))) :=
  ⟨rfl, rfl⟩

end Mapsmith
