/-!
# Byte strings and their texts

Byte strings are lists of octets. A text has one byte form, its UTF-8 encoding,
and a byte string is the form of at most one text (`utf8?_ofText`,
`ofText_of_utf8?`). Where a text must be shown whatever the bytes are, `lossy`
puts one replacement character for each maximal ill-formed part.
-/

namespace Mapsmith

/-- A string of octets. -/
abbrev Bytes := List UInt8

namespace Bytes

def ofText (text : String) : Bytes := text.toByteArray.data.toList

/-- The text whose UTF-8 form the bytes are, if there is one. -/
def utf8? (bytes : Bytes) : Option String := String.fromUTF8? ⟨bytes.toArray⟩

theorem utf8?_ofText (text : String) : utf8? (ofText text) = some text := by
  have h : (⟨(text.toByteArray.data.toList).toArray⟩ : ByteArray) = text.toByteArray := by simp
  simp only [utf8?, ofText, h, String.fromUTF8?, text.isValidUTF8, ↓reduceDIte]
  rfl

theorem ofText_of_utf8? {bytes : Bytes} {text : String} (h : utf8? bytes = some text) :
    ofText text = bytes := by
  unfold utf8? String.fromUTF8? at h
  split at h
  · cases h
    simp [ofText, String.fromUTF8]
  · contradiction

def hexDigit (n : Nat) : Char :=
  if n < 10 then Char.ofNat (48 + n) else Char.ofNat (87 + n)

def hex (bytes : Bytes) : String :=
  bytes.foldl (fun text b => (text.push (hexDigit (b.toNat / 16))).push
    (hexDigit (b.toNat % 16))) ""

/-- A list of two-digit upper-case numbers, such as `[57, 33, 0A]`. -/
def listing (bytes : Bytes) : String :=
  "[" ++ ", ".intercalate
    (bytes.map fun b => String.ofList [(hexDigit (b.toNat / 16)).toUpper,
      (hexDigit (b.toNat % 16)).toUpper]) ++ "]"

/-- The ranges of the bytes that follow `lead` in a well-formed sequence, or
`none` when no sequence starts with it. -/
def followers? (lead : UInt8) : Option (List (UInt8 × UInt8)) :=
  if lead < 0x80 then some []
  else if lead < 0xC2 then none
  else if lead < 0xE0 then some [(0x80, 0xBF)]
  else if lead = 0xE0 then some [(0xA0, 0xBF), (0x80, 0xBF)]
  else if lead = 0xED then some [(0x80, 0x9F), (0x80, 0xBF)]
  else if lead < 0xF0 then some [(0x80, 0xBF), (0x80, 0xBF)]
  else if lead = 0xF0 then some [(0x90, 0xBF), (0x80, 0xBF), (0x80, 0xBF)]
  else if lead < 0xF4 then some [(0x80, 0xBF), (0x80, 0xBF), (0x80, 0xBF)]
  else if lead = 0xF4 then some [(0x80, 0x8F), (0x80, 0xBF), (0x80, 0xBF)]
  else none

/-- How many bytes at the front fall into the ranges, one byte to a range. -/
def countFollowers : List (UInt8 × UInt8) → Bytes → Nat
  | (low, high) :: ranges, b :: rest =>
    if low ≤ b && b ≤ high then countFollowers ranges rest + 1 else 0
  | _, _ => 0

/-- The character that a lead byte and its followers encode. -/
def character (lead : UInt8) (followers : Bytes) : Char :=
  let bits := match followers.length with
    | 0 => lead.toNat
    | 1 => lead.toNat % 32
    | 2 => lead.toNat % 16
    | _ => lead.toNat % 8
  Char.ofNat (followers.foldl (fun n b => n * 64 + b.toNat % 64) bits)

/-- The characters of the bytes, with U+FFFD in place of each maximal part that
starts a sequence and does not finish it, and of each byte that starts none. -/
def lossyChars : Bytes → List Char
  | [] => []
  | lead :: rest =>
    match followers? lead with
    | none => '\uFFFD' :: lossyChars rest
    | some ranges =>
      let n := countFollowers ranges rest
      let shown := if n = ranges.length then character lead (rest.take n) else '\uFFFD'
      shown :: lossyChars (rest.drop n)
  termination_by bytes => bytes.length
  decreasing_by
    · simp
    · simp only [List.length_drop, List.length_cons]; omega

/-- A text for any bytes; see `lossyChars`. -/
def lossy (bytes : Bytes) : String := String.ofList (lossyChars bytes)

end Bytes

end Mapsmith
