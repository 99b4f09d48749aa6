import Mapsmith.Format.Registry
import Mapsmith.Proofs.Schema.Comparison

/-!
# Magics

`decode_of_take_ne_magic`: some files start with four bytes that tell what they are. Those
stand in the first field, or in the first field of a header, so nothing that is read before
them can go wrong but a header of a fixed size that is not there in full. A file with another
start is refused for it, and the error shows what was found in place of the magic.
-/

namespace Mapsmith

/-- The path with a step to each of the named fields. -/
def FieldPath.pushNames (path : FieldPath) (names : List String) : FieldPath :=
  names.foldl (fun path name => path.push (.name name)) path

namespace Decoder

variable {decoder : Decoder α} {start stop : Place} {error : CodecError}

-- ---------------------------------------------------------------------------
-- Failures that are passed on
-- ---------------------------------------------------------------------------

theorem bind_of_error {next : α → Decoder β} (h : decoder start = .error error stop) :
    (decoder >>= next) start = .error error stop := by
  show EStateM.bind decoder next start = _
  rw [EStateM.bind, h]

theorem within_of_error {segment : Segment}
    (h : decoder { start with path := start.path.push segment } = .error error stop) :
    within segment decoder start = .error error stop := by
  show EStateM.bind _ _ _ = _
  rw [EStateM.bind]
  exact bind_of_error h

theorem readFields_of_error {read : ValueReader} {scope : Document → Scope}
    (h : read type (scope document) { start with path := start.path.push (.name name) } =
      .error error stop) :
    readFields read scope ((name, type) :: fields) document start = .error error stop :=
  bind_of_error (within_of_error h)

theorem take_of_le (h : n ≤ start.rest.length) :
    take n start = .ok (start.rest.take n) (start.advance n) := by
  simp only [take, List.length_take]
  rw [if_neg (by omega)]

theorem take_of_lt (h : start.rest.length < n) :
    take n start = .error (.endOfInput start.path.toText start.offset) start := by
  simp only [take, List.length_take]
  rw [if_pos (by omega)]
  rfl

theorem ensure_of_le (h : n ≤ start.rest.length) : ensure n start = .ok () start := by
  simp only [ensure, List.length_take]
  rw [if_neg (by omega)]

theorem ensure_of_lt (h : start.rest.length < n) :
    ensure n start = .error (.endOfInput start.path.toText start.offset) start := by
  simp only [ensure, List.length_take]
  rw [if_pos (by omega)]
  rfl

theorem readBlock_of_error {read : Decoder Value} (hsize : size ≤ start.rest.length)
    (h : read start = .error error stop) : readBlock size read start = .error error stop := by
  rw [readBlock, ensure_of_le hsize]
  simp only [h]

end Decoder

namespace FieldType

variable {codec : Codec} {levels : Nat} {start stop : Place} {scope : Scope}

-- ---------------------------------------------------------------------------
-- A magic where it stands
-- ---------------------------------------------------------------------------

theorem readAt_bytes_fixed (h : n ≤ scope.options.maxElements) :
    readAt codec levels (.bytes (.fixed n)) scope start =
      (do return .bytes (← Decoder.take n) : Decoder Value) start := by
  have hcount : Length.count (.fixed n) start.path scope = .ok (some n) := by
    show (if _ then _ else _) = _
    rw [if_neg (by omega)]
    rfl
  obtain ⟨ctx, hctx, -⟩ := exists_readContext codec levels
  rw [hctx, ReadContext.read]
  show EStateM.bind _ _ start = _
  rw [EStateM.bind, Decoder.count, hcount]
  rfl

@[simp] theorem constantBytes_bytes (codec : Codec) (type : FieldType) (content : Bytes) :
    constantBytes codec type (.bytes content) = some content := rfl

/-- In place of a magic the error shows the bytes that it would take, or all that there are. -/
theorem readAt_magic_of_ne (hlimit : content.length ≤ scope.options.maxElements)
    (hne : start.rest.take content.length ≠ content) :
    ∃ stop, readAt codec levels (.magic content) scope start =
      .error (.formatMismatch start.path.toText content (start.rest.take content.length)) stop := by
  have hread : readAt codec levels (.bytes (.fixed content.length)) scope start =
      (do return .bytes (← Decoder.take content.length) : Decoder Value) start :=
        readAt_bytes_fixed hlimit
  obtain ⟨ctx, hctx, -⟩ := exists_readContext codec levels
  rw [hctx] at hread ⊢
  rw [magic, ReadContext.read, Decoder.readConst, hread]
  by_cases hlength : content.length ≤ start.rest.length
  · have htake : (do return .bytes (← Decoder.take content.length) : Decoder Value) start =
        .ok (.bytes (start.rest.take content.length)) (start.advance content.length) := by
      show EStateM.bind _ _ start = _
      rw [EStateM.bind, Decoder.take_of_le hlength]
      rfl
    have hbeq : ((.bytes (start.rest.take content.length) : Value) == .bytes content) = false :=
      Bool.eq_false_iff.mpr fun heq => hne (Value.bytes.inj (Value.bytes_beq_iff.mp heq)).symm
    have hpos : start.offset < (start.advance content.length).offset := by
      have : content ≠ [] := fun hnil => hne (by simp [hnil])
      have := List.length_pos_iff.mpr this
      simp only [Place.advance]
      omega
    simp only [htake, hbeq, hpos, ↓reduceIte]
    refine ⟨start.advance content.length, ?_⟩
    simp [Place.advance, Decoder.fail, Codec.otherConstant]
  · rw [Decoder.bind_of_error (Decoder.take_of_lt (by omega))]
    refine ⟨start, ?_⟩
    rw [List.take_of_length_le (by omega)]
    simp [Decoder.fail, Codec.otherConstant]

theorem readAt_padded_of_lt (h : start.rest.length < size) :
    readAt codec levels (.padded size type) scope start =
      .error (.endOfInput start.path.toText start.offset) start := by
  obtain ⟨ctx, hctx, -⟩ := exists_readContext codec levels
  rw [hctx, ReadContext.read, Decoder.readBlock, Decoder.ensure_of_lt h]

/-- A value of the type has the bytes, in the field that the names lead to, before anything
else. They are asked for together with `room` bytes at most. -/
inductive StartsWith (content : Bytes) (room : Nat) : List String → FieldType → Prop
  | magic : StartsWith content room [] (.magic content)
  | record {title name : String} {fields} : StartsWith content room names type →
      StartsWith content room (name :: names) (.record title ((name, type) :: fields))
  | padded : size ≤ room → StartsWith content room names type →
      StartsWith content room names (.padded size type)

theorem readAt_of_startsWith (h : StartsWith content room names type)
    (hlevels : names.length ≤ levels)
    (hroom : room ≤ start.rest.length) (hlimit : content.length ≤ scope.options.maxElements)
    (hne : start.rest.take content.length ≠ content) :
    ∃ stop, readAt codec levels type scope start = .error (.formatMismatch
      (start.path.pushNames names).toText content (start.rest.take content.length)) stop := by
  induction h generalizing levels start scope with
  | magic => exact readAt_magic_of_ne hlimit hne
  | @record names type _ name _ _ ih =>
    cases levels with
    | zero => cases hlevels
    | succ levels =>
      let first : Place := { start with path := start.path.push (.name name) }
      let child : Scope := scope.child .empty
      obtain ⟨stop, hread⟩ : ∃ stop, readAt codec levels type child first = .error (.formatMismatch
          (first.path.pushNames names).toText content (start.rest.take content.length)) stop :=
        ih (Nat.le_of_succ_le_succ hlevels) hroom hlimit hne
      exact ⟨stop, Decoder.bind_of_error (Decoder.readFields_of_error hread)⟩
  | padded hsize _ ih =>
    obtain ⟨stop, hread⟩ := ih hlevels hroom hlimit hne
    obtain ⟨ctx, hctx, -⟩ := exists_readContext codec levels
    rw [hctx] at hread ⊢
    rw [ReadContext.read]
    exact ⟨stop, Decoder.readBlock_of_error (by omega) hread⟩

end FieldType

namespace Schema

/-- A file with another start than its schema has is refused for it. -/
theorem decode_of_startsWith {schema : Schema} {options : CodecOptions} {name : String}
    {type : FieldType} {fields : List (String × FieldType)}
    (hfields : schema.fields = (name, type) :: fields) (h : type.StartsWith content room names)
    (hlevels : names.length ≤ options.maxDepth) (hroom : room ≤ bytes.length)
    (hlimit : content.length ≤ options.maxElements) (hne : bytes.take content.length ≠ content) :
    schema.decode options bytes = .error (.formatMismatch
      (FieldPath.root.pushNames (name :: names)).toText content (bytes.take content.length)) := by
  let first : Place := { Place.start bytes with path := FieldPath.root.push (.name name) }
  obtain ⟨stop, hread⟩ : ∃ stop, FieldType.readAt (schema.codec options) options.maxDepth type
      (Scope.root .empty options) first = .error (.formatMismatch
        (first.path.pushNames names).toText content (bytes.take content.length)) stop :=
    FieldType.readAt_of_startsWith h hlevels hroom hlimit hne
  have hdecoder : schema.decoder options (.start bytes) = .error (.formatMismatch
      (first.path.pushNames names).toText content (bytes.take content.length)) stop := by
    rw [decoder, hfields]
    exact Decoder.readFields_of_error hread
  exact decode_of_error hdecoder

end Schema

namespace Format

-- ---------------------------------------------------------------------------
-- The formats that have one
-- ---------------------------------------------------------------------------

/-- The field that the magic of a format stands in, and the magic. -/
def magic? : Format → Option (String × Bytes)
  | .doodads | .unitDoodads => some ("file_id", Placement.placementMagic)
  | .tileMap => some ("file_id", Terrain.tileMapMagic)
  | .triggers => some ("file_id", Triggers.magic)
  | .pathMap => some ("header.file_id", Terrain.pathMapMagic)
  | .map => some ("header.file_id", Container.magic)
  | .mapFooter => some ("sign_id", Container.footerMagic)
  | _ => none

theorem length_of_magic? {format : Format} (h : format.magic? = some (field, magic)) :
    magic.length = 4 := by
  cases format <;> cases h <;> rfl

/-- The first bytes that a format asks for at once, up to its magic: the header of a map. -/
def headSize : Format → Nat
  | .map => 512
  | _ => 0

open FieldType.StartsWith in
theorem schema_startsWith {format : Format} (h : format.magic? = some (field, content)) :
    ∃ name type fields names, format.schema.fields = (name, type) :: fields ∧
      type.StartsWith content format.headSize names ∧ names.length ≤ 1 ∧
      (FieldPath.root.pushNames (name :: names)).toText = field := by
  cases format <;> cases h
  case pathMap => exact ⟨_, _, _, ["file_id"], rfl, .record .magic, by decide, rfl⟩
  case map => exact ⟨_, _, _, ["file_id"], rfl,
    .padded (Nat.le_refl _) (.record .magic), by decide, rfl⟩
  all_goals exact ⟨_, _, _, [], rfl, .magic, by decide, rfl⟩

theorem decode_map_of_lt (h : bytes.length < 512) :
    Format.map.decode {} bytes = .error (.endOfInput "header" 0) :=
  Schema.decode_of_error (Decoder.readFields_of_error (FieldType.readAt_padded_of_lt h))

/-- A file with another start than its magic is refused for it, unless a map is not even
as long as its header. -/
theorem decode_of_take_ne_magic {format : Format} (hmagic : format.magic? = some (field, magic))
    (hne : bytes.take 4 ≠ magic) : format.decode {} bytes =
      if format = .map ∧ bytes.length < 512 then .error (.endOfInput "header" 0)
      else .error (.formatMismatch field magic (bytes.take 4)) := by
  split
  · rename_i hshort
    rw [hshort.1, decode_map_of_lt hshort.2]
  · rename_i hlong
    obtain ⟨name, type, fields, names, hfields, hstarts, hlevels, rfl⟩ := schema_startsWith hmagic
    have hroom : format.headSize ≤ bytes.length := by
      cases format <;> simp_all [headSize]
    rw [← length_of_magic? hmagic] at hne ⊢
    refine Schema.decode_of_startsWith hfields hstarts
      (Nat.le_trans hlevels (by decide)) hroom ?_ hne
    rw [length_of_magic? hmagic]
    decide

/-- The bytes of the path map's magic in another order. -/
theorem decode_of_take_ne_magic_pathMap :
    Format.pathMap.magic? = some ("header.file_id", Terrain.pathMapMagic) ∧
      [0x57, 0x33, 0x50, 0x4D, 0, 0].take 4 ≠ Terrain.pathMapMagic ∧
      Format.pathMap.decode {} [0x57, 0x33, 0x50, 0x4D, 0, 0] =
        .error (.formatMismatch "header.file_id" [0x4D, 0x50, 0x33, 0x57]
          [0x57, 0x33, 0x50, 0x4D]) :=
  ⟨rfl, by decide, decode_of_take_ne_magic rfl (by decide)⟩

/-- The first bytes of an archive by itself are too few for the header of a map, and it is
that which they are refused for. -/
theorem not_decode_eq_formatMismatch : ¬∀ (format : Format) (field : String) (magic bytes : Bytes),
    format.magic? = some (field, magic) → bytes.take 4 ≠ magic →
      ∃ field, format.decode {} bytes = .error (.formatMismatch field magic (bytes.take 4)) := by
  intro h
  obtain ⟨field, hmismatch⟩ := h .map _ _ [0x4D, 0x50, 0x51, 0x1A] rfl (by decide)
  rw [decode_map_of_lt (by decide)] at hmismatch
  cases hmismatch

end Format

end Mapsmith
