import Mathlib.Algebra.GroupWithZero.Nat
import Mapsmith.Proofs.Schema.Layout

/-!
# When the parts of the encoder go through

`Codec.writeFields_ok`, `WriteContext.write_switch_ok` and others: one lemma for each part of
the encoder: that it gives bytes says what it was given and which bytes they are.

That a part fails is not described here, nor with which error.
-/

namespace Mapsmith

-- ---------------------------------------------------------------------------
-- The null character
-- ---------------------------------------------------------------------------

theorem Bytes.ofText_eq (text : String) :
    Bytes.ofText text = text.toList.flatMap String.utf8EncodeChar := by
  rw [ofText, ← String.utf8Encode_toList, List.utf8Encode]
  simp

/-- Every byte of a character but the null character has a bit set. -/
theorem zero_mem_utf8EncodeChar (c : Char) : 0 ∈ String.utf8EncodeChar c ↔ c = '\x00' := by
  have hzero (n : Nat) : (0 : UInt8) = UInt8.ofNat n ↔ n % 256 = 0 := by
    rw [← UInt8.toNat_inj, UInt8.toNat_ofNat', eq_comm]
    rfl
  have hnull : c = '\x00' ↔ c.val.toNat = 0 := by
    rw [← Char.toNat_inj]
    rfl
  unfold String.utf8EncodeChar
  simp only [hnull]
  split
  · simp only [List.mem_singleton, hzero]
    omega
  · split
    · simp only [List.mem_cons, hzero, List.not_mem_nil, or_false]
      omega
    · split
      · simp only [List.mem_cons, hzero, List.not_mem_nil, or_false]
        omega
      · simp only [List.mem_cons, hzero, List.not_mem_nil, or_false]
        omega

theorem Bytes.zero_mem_ofText (text : String) : 0 ∈ Bytes.ofText text ↔ '\x00' ∈ text.toList := by
  simp [ofText_eq, zero_mem_utf8EncodeChar]

-- ---------------------------------------------------------------------------
-- Words, texts and blocks
-- ---------------------------------------------------------------------------

namespace Codec

theorem expect_ok : expect path expected value view = .ok a ↔ view = some a := by
  cases view with
  | none => exact iff_of_false nofun nofun
  | some b => rw [expect, pure_ok, Option.some.injEq, eq_comm]

theorem writeInt_ok : writeInt path kind order n = .ok written ↔
    kind.min ≤ n ∧ n ≤ kind.max ∧ written = kind.encode order n := by
  unfold writeInt
  split
  · exact iff_of_false nofun fun ⟨hmin, hmax, _⟩ => by omega
  · rw [pure_ok]
    exact ⟨fun h => ⟨by omega, by omega, h⟩, fun h => h.2.2⟩

theorem writeFlags_ok {set : FlagSet} : writeFlags path set bits = .ok written ↔
    bits < 2 ^ set.kind.width ∧ written = set.order.encode set.kind.size bits := by
  rw [writeFlags, Nat.pow_eq]
  split
  · exact iff_of_false nofun fun ⟨hlt, _⟩ => by omega
  · rw [pure_ok]
    exact ⟨fun h => ⟨by omega, h⟩, fun h => h.2⟩

theorem writeText_ok : writeText path text = .ok written ↔
    0 ∉ Bytes.ofText text ∧ written = Bytes.ofText text ++ [0] := by
  rw [Bytes.zero_mem_ofText]
  unfold writeText
  split
  · simp [*]
  · simp [*, pure_ok]

theorem checkCount_ok : checkCount path length scope held unit = .ok u ↔
    length.Asks scope (some held) ∨ length.Asks scope none := by
  simp only [checkCount, bind_ok, Length.count_ok]
  constructor
  · rintro ⟨_ | expected, hasks, hn⟩
    · exact .inr hasks
    · simp only at hn
      split at hn
      · rename_i heq
        exact .inl (heq ▸ hasks)
      · simp at hn
  · rintro (hasks | hasks)
    · exact ⟨some held, hasks, by simp [pure_ok]⟩
    · exact ⟨none, hasks, rfl⟩

theorem fillBlock_ok : fillBlock path size content = .ok written ↔
    content.length ≤ size ∧ written = content ++ List.replicate (size - content.length) 0 := by
  simp only [fillBlock]
  split
  · exact iff_of_false nofun fun ⟨hle, _⟩ => by omega
  · rw [pure_ok]
    exact ⟨fun h => ⟨by omega, h⟩, fun h => h.2⟩

/-- The word that a value puts into a packed unit: the bits of flags, or an
integer that is not negative. -/
def wordOf? : Value → Option UInt64
  | .flags bits _ => some bits
  | other => (other.asInt?.filter (0 ≤ ·)).map fun n => UInt64.ofNat n.toNat

theorem packedWord_ok : packedWord path field value = .ok word ↔
    wordOf? value = some word ∧ PackedUnit.fits field.width word = true := by
  have hfits (found : UInt64) : (if PackedUnit.fits field.width found then return found
      else throw (.roundTrip path.toText (.tooWide found.toNat field.width.toNat)) :
        Except CodecError UInt64) = .ok word ↔
      found = word ∧ PackedUnit.fits field.width word = true := by
    split
    · rw [pure_ok]
      grind
    · rw [throw_ok]
      grind
  have hint (n? : Option Int) : (do
      let n ← expect path "an integer" value n?
      if n < 0 then do
        let word ← throw (.roundTrip path.toText (.negative n))
        if PackedUnit.fits field.width word then return word
        else throw (.roundTrip path.toText (.tooWide word.toNat field.width.toNat))
      else do
        let word ← pure (UInt64.ofNat n.toNat)
        if PackedUnit.fits field.width word then return word
        else throw (.roundTrip path.toText (.tooWide word.toNat field.width.toNat)) :
          Except CodecError UInt64) = .ok word ↔
      ((n?.filter (0 ≤ ·)).map fun n => UInt64.ofNat n.toNat) = some word ∧
        PackedUnit.fits field.width word = true := by
    simp only [bind_ok, expect_ok]
    constructor
    · rintro ⟨n, rfl, h⟩
      split at h
      · cases h
      · rw [bind_ok] at h
        obtain ⟨found, hfound, h⟩ := h
        cases pure_ok.mp hfound
        obtain ⟨hword, hf⟩ := (hfits _).mp h
        exact ⟨by simp [hword]; omega, hf⟩
    · rintro ⟨h, hf⟩
      simp only [Option.map_eq_some_iff, Option.filter_eq_some_iff, decide_eq_true_eq] at h
      obtain ⟨n, ⟨rfl, hpos⟩, rfl⟩ := h
      refine ⟨n, rfl, ?_⟩
      rw [if_neg (by omega), bind_ok]
      exact ⟨_, rfl, (hfits _).mpr ⟨rfl, hf⟩⟩
  cases value with
  | flags bits names =>
    rw [packedWord, wordOf?, Option.some.injEq]
    exact hfits bits
  | _ => exact hint _

theorem writePacked_ok {unit : PackedUnit} : writePacked path unit value = .ok written ↔
    unit.check = .ok () ∧ ∃ document, value.asStruct? = some document ∧ ∃ words,
      List.Forall₂ (fun field word => ∃ part, document.get? field.name = some part ∧
        wordOf? part = some word ∧ PackedUnit.fits field.width word = true) unit.fields words ∧
      written = unit.join words := by
  simp only [writePacked, bind_ok, expect_ok, mapM_ok, pure_ok]
  constructor
  · rintro ⟨_, hcheck, document, hd, words, hwords, rfl⟩
    refine ⟨hcheck, document, hd, words, hwords.imp fun field word h => ?_, rfl⟩
    split at h
    · rename_i part hpart
      exact ⟨part, hpart, packedWord_ok.mp h⟩
    · cases h
  · rintro ⟨hcheck, document, hd, words, hwords, rfl⟩
    refine ⟨(), hcheck, document, hd, words, hwords.imp fun field word ⟨part, hpart, h⟩ => ?_, rfl⟩
    simp only [hpart]
    exact packedWord_ok.mpr h

-- ---------------------------------------------------------------------------
-- Items and fields
-- ---------------------------------------------------------------------------

def WritesFrom (write : FieldPath → Value → Except CodecError Bytes) (path : FieldPath) :
    Nat → List Value → Bytes → Prop
  | _, [], written => written = []
  | index, item :: items, written => ∃ part rest,
    write (path.push (.index index)) item = .ok part ∧
      WritesFrom write path (index + 1) items rest ∧ written = part ++ rest

theorem writesFrom_iff {write : FieldPath → Value → Except CodecError Bytes} :
    WritesFrom write path index items written ↔ ∃ parts : List Bytes,
      List.Forall₂ (fun item part => write (path.push (.index item.2)) item.1 = .ok part)
        (items.zipIdx index) parts ∧ written = parts.flatten := by
  induction items generalizing index written with
  | nil => simp [WritesFrom]
  | cons item items ih =>
    simp only [WritesFrom, ih, List.zipIdx_cons, List.forall₂_cons_left_iff]
    constructor
    · rintro ⟨part, _, hpart, ⟨parts, hparts, rfl⟩, rfl⟩
      exact ⟨_, ⟨part, parts, hpart, hparts, rfl⟩, rfl⟩
    · rintro ⟨_, ⟨part, parts, hpart, hparts, rfl⟩, rfl⟩
      exact ⟨part, _, hpart, ⟨parts, hparts, rfl⟩, rfl⟩

theorem writeItems_ok {write : FieldPath → Value → Except CodecError Bytes} :
    writeItems path write items = .ok written ↔ WritesFrom write path 0 items written := by
  rw [writesFrom_iff, writeItems]
  simp only [bind_ok, pure_ok, mapM_ok]

theorem WritesFrom.imp {write write' : FieldPath → Value → Except CodecError Bytes}
    (h : List.Forall₂ (fun item item' => ∀ path written, write path item = .ok written →
      write' path item' = .ok written) items items')
        (hw : WritesFrom write path index items written) :
    WritesFrom write' path index items' written := by
  induction h generalizing index written with
  | nil => exact hw
  | cons hitem _ ih =>
    obtain ⟨part, rest, hpart, hrest, rfl⟩ := hw
    exact ⟨part, rest, hitem _ _ hpart, ih hrest, rfl⟩

def WritesField (write : Writer) (path : FieldPath) (scope : Scope) (field : String × FieldType)
    (written : Bytes) : Prop :=
  (match scope.current.get? field.1 with
    | some value => write (path.push (.name field.1)) field.2 value scope
    | none => writeMissing write (path.push (.name field.1)) scope field.2) = .ok written

theorem writeFields_ok : writeFields write path scope fields = .ok written ↔
    (∀ name ∈ scope.current.names, name ∈ fields.map Prod.fst) ∧ ∃ parts : List Bytes,
      List.Forall₂ (WritesField write path scope) fields parts ∧ written = parts.flatten := by
  have hknown : (scope.current.names.find? fun name => !(fields.any fun field => field.1 == name)) =
      none ↔ ∀ name ∈ scope.current.names, name ∈ fields.map Prod.fst := by
    simp
  rw [writeFields, ← hknown]
  split
  · simp [*]
  · simp only [*, bind_ok, pure_ok, mapM_ok, true_and]
    rfl

/-- The bytes that a value holds: its content, or those of an identifier. -/
def contentOf? : Value → Option Bytes
  | .bytes content => some content
  | .id code => some code.bytes
  | _ => none

end Codec

-- ---------------------------------------------------------------------------
-- Types
-- ---------------------------------------------------------------------------

namespace WriteContext

open Codec

variable {ctx : WriteContext}

theorem descend_ok {f : Writer → Except CodecError α} :
    ctx.descend path f = .ok a ↔ ∃ write ∈ ctx.deeper, f write = .ok a := by
  unfold descend
  cases ctx.deeper <;> simp

theorem write_bytes : ctx.write path (.bytes length) value scope = (do
    let content ← expect path "bytes" value (contentOf? value)
    checkCount path length scope content.length "bytes"
    return content) := by
  cases value <;> rfl

theorem write_bytes_ok : ctx.write path (.bytes length) value scope = .ok written ↔
    contentOf? value = some written ∧
      (length.Asks scope (some written.length) ∨ length.Asks scope none) := by
  rw [write_bytes]
  simp only [bind_ok, expect_ok, checkCount_ok, pure_ok]
  constructor
  · rintro ⟨content, hcontent, _, hasks, rfl⟩
    exact ⟨hcontent, hasks⟩
  · rintro ⟨hcontent, hasks⟩
    exact ⟨written, hcontent, (), hasks, rfl⟩

theorem write_switch_ok {default : Option FieldType} :
    ctx.write path (.switch on cases default) value scope = .ok written ↔
      ∃ discriminant type, scope.resolve on = .ok discriminant ∧
        FieldType.pick? cases default discriminant = some type ∧
        ctx.write path type value scope = .ok written := by
  rw [write, bind_ok]
  simp only [exists_and_left, answered_ok]
  refine exists_congr fun discriminant => and_congr_right' ?_
  induction cases with
  | nil => cases default <;> simp [writeCase, writeDefault, FieldType.pick?]
  | cons case cases ih =>
    obtain ⟨key, type⟩ := case
    by_cases hk : key.matches discriminant
    · simp [writeCase, FieldType.pick?, hk]
    · simpa [writeCase, FieldType.pick?, hk] using ih

theorem write_sequence_ok : ctx.write path (.sequence types) value scope = .ok written ↔
    ∃ items, value.asArray? = some items ∧ items.length = types.length ∧
      ctx.writeSequence path 0 types items scope = .ok written := by
  rw [write]
  simp only [bind_ok, expect_ok]
  refine exists_congr fun items => and_congr_right' ?_
  split
  · exact iff_of_false nofun fun h => absurd h.1 ‹_›
  · simp_all

end WriteContext

end Mapsmith
