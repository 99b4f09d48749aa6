import Mapsmith.Schema.Word
import Mapsmith.Schema.Path
import Mapsmith.Text.Quoted

/-!
# Errors of the codec

Why decoding, encoding or checking a schema failed. `CodecError.message` is the
one place that words them.
-/

namespace Mapsmith

/-- A rule about a field that its content breaks. -/
inductive BrokenRule where
  /-- An integer that stands for neither truth value. -/
  | notBoolean (no yes found : Int)
  /-- A number of items other than the one the length field says. -/
  | miscounted (held : Nat) (unit : String) (expected : Nat)
  /-- A number of values other than the one the sequence has types for. -/
  | wrongArity (held expected : Nat)
  /-- A block whose content needs more than its size. -/
  | overrun (used size : Nat)
  /-- A check of the schema, by its name. -/
  | check (relation : String)

/-- What keeps a value from being written so that it reads back. -/
inductive Unfaithful where
  | outOfRange (n : Int) (kind : IntKind)
  | flagsTooWide (bits width : Nat)
  | embeddedNull
  | blockTooSmall (needed size : Nat)
  | negative (n : Int)
  | tooWide (n width : Nat)

inductive SchemaFault where
  | unitSize (bytes : Nat)
  | noWidth (field : String)
  | notCovered (covered unit : Nat)
  | emptySelection
  | noAlternatives (field : String)
  | noLayouts
  /-- A fault in a field of a record. -/
  | within (schema field : String) (fault : SchemaFault)

inductive CodecError where
  /-- A constant did not hold its bytes. -/
  | formatMismatch (field : String) (expected actual : Bytes)
  /-- A discriminant picks no case. -/
  | unknownVariant (field discriminant : String)
  | validation (field : String) (rule : BrokenRule)
  /-- A value cannot be written back faithfully. -/
  | roundTrip (field : String) (reason : Unfaithful)
  /-- A count or a depth beyond its limit, or a negative count. -/
  | overflow (field : String) (requested : Int) (limit : Nat)
  | endOfInput (field : String) (offset : Nat)
  | invalidText (field : String)
  /-- Bytes are left after the root record. -/
  | trailingData (offset remaining : Nat)
  | missingField (field : String)
  /-- The document has a field that its schema has not. -/
  | unknownField (field : String)
  | typeMismatch (field expected found : String)
  | missingLookup (table key : String)
  | invalidSchema (fault : SchemaFault)
  /-- A sum leaves its word, or constants show each other without end. That ends the whole run: no
  selection goes on from it. -/
  | halted

/-- Whether nothing goes on from the error. -/
def CodecError.halts : CodecError → Bool
  | .halted => true
  | _ => false

@[simp] theorem CodecError.halts_iff {error : CodecError} : error.halts = true ↔
    error = .halted := by
  cases error <;> simp [halts]

/-- Why a function of a schema gives no answer. It does not end the run. -/
abbrev Refusal := { error : CodecError // error ≠ .halted }

/-- What a function of a schema answers, as a step of a run. -/
def answered {α : Type} (x : Except Refusal α) : Except CodecError α := x.mapError Subtype.val

@[simp] theorem answered_ok {x : Except Refusal α} : answered x = .ok a ↔ x = .ok a := by
  cases x with
  | ok => exact ⟨fun h => congrArg _ (Except.ok.inj h), fun h => congrArg _ (Except.ok.inj h)⟩
  | error => exact ⟨nofun, nofun⟩

theorem answered_ne_halted (x : Except Refusal α) : answered x ≠ .error .halted := by
  cases x with
  | ok => nofun
  | error refusal => exact fun h => refusal.property (Except.error.inj h)

/-- A number in hexadecimal digits with their mark; a negative one by its
64-bit complement. -/
def markedHex (n : Int) : String := "0x" ++ Text.hexNat (n % 0x10000000000000000).toNat

def BrokenRule.message : BrokenRule → String
  | .notBoolean no yes found =>
    "a boolean must be " ++ markedHex no ++ " or " ++ markedHex yes ++ ", found " ++ markedHex found
  | .miscounted held unit expected =>
    "holds " ++ toString held ++ " " ++ unit ++ ", its length field says " ++ toString expected
  | .wrongArity held expected =>
    "holds " ++ toString held ++ " values, expected " ++ toString expected
  | .overrun used size =>
    "content of " ++ toString used ++ " bytes overruns a " ++ toString size ++ " byte block"
  | .check relation => relation

def Unfaithful.message : Unfaithful → String
  | .outOfRange n kind => toString n ++ " does not fit in " ++ kind.name
  | .flagsTooWide bits width => markedHex bits ++ " does not fit in " ++ toString width ++ " bits"
  | .embeddedNull => "strings cannot contain a null character"
  | .blockTooSmall needed size =>
    "needs " ++ toString needed ++ " bytes, the block holds " ++ toString size
  | .negative n => toString n ++ " is negative"
  | .tooWide n width => toString n ++ " does not fit in " ++ toString width ++ " bits"

def accented (name : String) : String := "\x60" ++ name ++ "\x60"

def SchemaFault.message : SchemaFault → String
  | .unitSize bytes => "a packed unit must be 1 to 8 bytes, not " ++ toString bytes
  | .noWidth field => "packed field " ++ accented field ++ " has no width"
  | .notCovered covered unit =>
    "packed fields cover " ++ toString covered ++ " bits of a " ++ toString unit ++ " bit unit"
  | .emptySelection => "a selection needs at least one alternative"
  | .noAlternatives field => accented field ++ " has no alternatives"
  | .noLayouts => "no layouts to select from"
  | .within schema field fault => schema ++ "." ++ field ++ ": " ++ fault.message

def CodecError.message : CodecError → String
  | .formatMismatch field expected actual =>
    accented field ++ " does not match: expected " ++ expected.listing ++ ", found " ++
      actual.listing
  | .unknownVariant field discriminant =>
    accented field ++ " has no variant for discriminant " ++ discriminant
  | .validation field rule => accented field ++ " failed validation: " ++ rule.message
  | .roundTrip field reason =>
    accented field ++ " cannot be encoded faithfully: " ++ reason.message
  | .overflow field requested limit =>
    accented field ++ " requests " ++ toString requested ++ ", the limit is " ++ toString limit
  | .endOfInput field offset =>
    "unexpected end of data in " ++ accented field ++ " at offset " ++ markedHex offset
  | .invalidText field => accented field ++ " is not valid utf-8"
  | .trailingData offset remaining =>
    toString remaining ++ " trailing bytes after offset " ++ markedHex offset
  | .missingField field => accented field ++ " is missing"
  | .unknownField field => accented field ++ " is not described by the schema"
  | .typeMismatch field expected found =>
    accented field ++ " expected " ++ expected ++ ", found " ++ found
  | .missingLookup table key =>
    "lookup table " ++ accented table ++ " has no entry for " ++ accented key
  | .invalidSchema fault => "invalid schema: " ++ fault.message
  | .halted => "attempt to add with overflow"

end Mapsmith
