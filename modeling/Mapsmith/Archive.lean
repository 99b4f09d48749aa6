import Mapsmith.Format.Registry

/-!
# Archives

The named entries of a map. The entries of the known formats are found by their
exact names (`mem_presentFormats_iff`), and an entry holds what was last put under
its name (`find?_insert`).
-/

namespace Mapsmith

inductive ArchiveError where
  | codec (error : CodecError)
  | entryNotFound (name : String)
  | unknownFormat (name : String)

def ArchiveError.message : ArchiveError → String
  | .codec error => error.message
  | .entryNotFound name => "entry " ++ accented name ++ " not found in the map"
  | .unknownFormat name => accented name ++ " is not a known map format"

structure Archive where
  entries : List (String × Bytes)

namespace Archive

def empty : Archive := ⟨[]⟩

def find? (archive : Archive) (name : String) : Option Bytes := archive.entries.lookup name

def names (archive : Archive) : List String := archive.entries.map Prod.fst

def contains (archive : Archive) (name : String) : Bool := (archive.find? name).isSome

/-- Puts an entry under its name, in the place of one that is there. -/
def insert (archive : Archive) (name : String) (content : Bytes) : Archive :=
  ⟨go archive.entries⟩
where
  go : List (String × Bytes) → List (String × Bytes)
    | [] => [(name, content)]
    | (n, c) :: rest =>
      if name = n then (n, content) :: rest
      else if name < n then (name, content) :: (n, c) :: rest
      else (n, c) :: go rest

def read (archive : Archive) (name : String) : Except ArchiveError Bytes :=
  match archive.find? name with
  | some content => .ok content
  | none => .error (.entryNotFound name)

def presentFormats (archive : Archive) : List Format :=
  Format.all.filter fun format => format.entry?.any archive.contains

def readDocument (archive : Archive) (format : Format) (options : CodecOptions) :
    Except ArchiveError Document := do
  match format.entry? with
  | none => throw (.unknownFormat format.name)
  | some name =>
    let content ← archive.read name
    (format.decode options content).mapError ArchiveError.codec

theorem find?_insert (archive : Archive) (name : String) (content : Bytes) (other : String) :
    (archive.insert name content).find? other =
      if other = name then some content else archive.find? other := by
  obtain ⟨entries⟩ := archive
  simp only [find?, insert]
  induction entries with
  | nil => simp [insert.go, lookup_entry]
  | cons entry rest ih =>
    obtain ⟨n, c⟩ := entry
    by_cases hn : name = n
    · subst hn
      by_cases h : other = name <;> simp [insert.go, lookup_entry, h]
    · by_cases hlt : name < n
      · simp [insert.go, lookup_entry, hn, hlt]
      · by_cases h : other = n
        · have : ¬n = name := fun e => hn e.symm
          simp [insert.go, h, hn, hlt, this]
        · simp [insert.go, lookup_entry, h, hn, hlt, ih]

theorem mem_presentFormats_iff {archive : Archive} {format : Format} :
    format ∈ archive.presentFormats ↔
      ∃ name, format.entry? = some name ∧ archive.contains name := by
  simp only [presentFormats, List.mem_filter, Format.mem_all, true_and]
  cases format.entry? <;> simp

end Archive

end Mapsmith
