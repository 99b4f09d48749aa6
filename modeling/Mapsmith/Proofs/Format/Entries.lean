import Mathlib.Data.List.Induction
import Mapsmith.Archive

/-!
# The entries of formats

`listed_and_read`: the registry finds a format by its entry in whatever case, and an archive
tells names apart by their case. What an archive holds is what was inserted last, so a format
is listed and read by what was inserted under its entry as that is spelled. Where the last name
that the format is found by is spelled so, this is also what the registry finds; an entry in
another case is neither listed nor read.
-/

namespace Mapsmith

variable {format : Format} {name : String} {insertions : List (String × Bytes)}

-- ---------------------------------------------------------------------------
-- The registry
-- ---------------------------------------------------------------------------

namespace Format

theorem sameIgnoringCase_iff :
    sameIgnoringCase a b = true ↔ a.toList.map Char.toLower = b.toList.map Char.toLower := by
  simp [sameIgnoringCase]

theorem entry_unique {first second : Format} (ha : first.entry? = some a)
    (hb : second.entry? = some b) (h : sameIgnoringCase a b = true) : first = second := by
  have hall : ∀ first ∈ all, ∀ second ∈ all, ∀ a ∈ first.entry?, ∀ b ∈ second.entry?,
      sameIgnoringCase a b = true → first = second := by decide +kernel
  exact hall first (mem_all first) second (mem_all second) a ha b hb h

theorem ofEntry?_eq_some_iff : ofEntry? name = some format ↔
    ∃ entry, format.entry? = some entry ∧ sameIgnoringCase entry name = true := by
  constructor
  · intro h
    simpa [Option.any_eq_true] using List.find?_some h
  · rintro ⟨entry, hentry, hname⟩
    obtain ⟨found, hfound⟩ : ∃ found, ofEntry? name = some found := by
      refine Option.isSome_iff_exists.mp (List.find?_isSome.mpr ?_)
      exact ⟨format, mem_all format, by simp [hentry, hname]⟩
    obtain ⟨other, hother, hsame⟩ :
        ∃ other, found.entry? = some other ∧ sameIgnoringCase other name = true := by
      simpa [Option.any_eq_true] using List.find?_some hfound
    rw [sameIgnoringCase_iff] at hname hsame
    rw [hfound, entry_unique hother hentry (sameIgnoringCase_iff.mpr (hsame.trans hname.symm))]

theorem ofEntry?_entry (h : format.entry? = some name) : ofEntry? name = some format :=
  ofEntry?_eq_some_iff.mpr ⟨name, h, sameIgnoringCase_iff.mpr rfl⟩

end Format

-- ---------------------------------------------------------------------------
-- Insertions
-- ---------------------------------------------------------------------------

namespace Archive

/-- The archive that insertions lead to, one after the other. -/
def ofInsertions (insertions : List (String × Bytes)) : Archive :=
  insertions.foldl (fun archive insertion => archive.insert insertion.1 insertion.2) empty

/-- The last of the insertions under a name of a kind. -/
def last? (named : String → Bool) (insertions : List (String × Bytes)) : Option (String × Bytes) :=
  insertions.findRev? fun insertion => named insertion.1

theorem ofInsertions_concat (insertions : List (String × Bytes)) (insertion : String × Bytes) :
    ofInsertions (insertions ++ [insertion]) =
      (ofInsertions insertions).insert insertion.1 insertion.2 := by
  simp [ofInsertions]

theorem last?_concat (named : String → Bool) (insertions : List (String × Bytes))
    (insertion : String × Bytes) :
    last? named (insertions ++ [insertion]) =
      if named insertion.1 then some insertion else last? named insertions := by
  simp only [last?, List.findRev?_eq_find?_reverse, List.reverse_append, List.reverse_cons,
    List.reverse_nil, List.nil_append, List.singleton_append, List.find?_cons]
  cases named insertion.1 <;> rfl

theorem isSome_last?_iff : (last? named insertions).isSome ↔
    ∃ insertion ∈ insertions, named insertion.1 = true := by
  simp [last?, List.findRev?_eq_find?_reverse]

theorem last?_eq_of_narrower {named narrower : String → Bool}
    (hnarrower : ∀ name, narrower name = true → named name = true)
    (hlast : ∀ insertion, last? named insertions = some insertion → narrower insertion.1 = true) :
    last? narrower insertions = last? named insertions := by
  induction insertions using List.reverseRecOn with
  | nil => rfl
  | append_singleton insertions insertion ih =>
    simp only [last?_concat] at hlast ⊢
    cases hn : named insertion.1 with
    | true => simp [hlast insertion (by simp [hn])]
    | false =>
      have hnot : narrower insertion.1 = false := by
        rw [Bool.eq_false_iff]
        exact fun h => by simp [hnarrower _ h] at hn
      simpa [hn, hnot] using ih (by simpa [hn] using hlast)

theorem find?_ofInsertions (insertions : List (String × Bytes)) (name : String) :
    (ofInsertions insertions).find? name = (last? (name = ·) insertions).map Prod.snd := by
  induction insertions using List.reverseRecOn with
  | nil => rfl
  | append_singleton insertions insertion ih =>
    rw [ofInsertions_concat, find?_insert, last?_concat, ih]
    by_cases h : name = insertion.1 <;> simp [h]

theorem contains_ofInsertions : (ofInsertions insertions).contains name = true ↔
    ∃ insertion ∈ insertions, insertion.1 = name := by
  rw [contains, find?_ofInsertions, Option.isSome_map, isSome_last?_iff]
  simp [eq_comm]

theorem mem_names_iff {archive : Archive} : name ∈ archive.names ↔
    archive.contains name = true := by
  rw [contains, find?, List.lookup_isSome_iff]
  simp only [names, List.mem_map, beq_iff_eq]
  exact exists_congr fun _ => and_congr_right fun _ => eq_comm

theorem exists_mem_names_iff {named : String → Prop} [DecidablePred named] :
    (∃ name ∈ (ofInsertions insertions).names, named name) ↔
      (last? (named ·) insertions).isSome := by
  simp only [mem_names_iff, contains_ofInsertions, isSome_last?_iff, decide_eq_true_eq]
  constructor
  · rintro ⟨_, ⟨insertion, hm, rfl⟩, hnamed⟩
    exact ⟨insertion, hm, hnamed⟩
  · rintro ⟨insertion, hm, hnamed⟩
    exact ⟨insertion.1, ⟨insertion, hm, rfl⟩, hnamed⟩

-- ---------------------------------------------------------------------------
-- Listing and reading
-- ---------------------------------------------------------------------------

/-- A format is listed if one of the names that are there is its entry, as that is spelled. -/
theorem mem_presentFormats_iff_names {archive : Archive} :
    format ∈ archive.presentFormats ↔ ∃ name ∈ archive.names, format.entry? = some name := by
  simp only [mem_presentFormats_iff, mem_names_iff]
  exact exists_congr fun _ => and_comm

/-- What comes of reading a format is what comes of decoding what was last inserted under a
name of a kind, and never that there is no such entry. -/
def ReadsLast (named : String → Bool) (insertions : List (String × Bytes)) (format : Format)
    (options : CodecOptions) : Prop :=
  (∀ name, (ofInsertions insertions).readDocument format options ≠ .error (.entryNotFound name)) ∧
    ∃ insertion, last? named insertions = some insertion ∧
      (ofInsertions insertions).readDocument format options =
        (format.decode options insertion.2).mapError .codec

theorem readDocument_of_find? {archive : Archive} (he : format.entry? = some name)
    (hf : archive.find? name = some content) (options : CodecOptions) :
    archive.readDocument format options = (format.decode options content).mapError .codec := by
  simp only [readDocument, he, read, hf]
  rfl

theorem readsLast_of_mem (h : format ∈ (ofInsertions insertions).presentFormats)
    (options : CodecOptions) :
    ReadsLast (fun name => format.entry? = some name) insertions format options := by
  obtain ⟨name, he, hc⟩ := mem_presentFormats_iff.mp h
  have hnamed : (fun other => decide (format.entry? = some other)) =
      fun other => decide (name = other) := by
    simp [he]
  rw [contains, find?_ofInsertions, Option.isSome_map, Option.isSome_iff_exists] at hc
  obtain ⟨insertion, hlast⟩ := hc
  have hfind : (ofInsertions insertions).find? name = some insertion.2 := by
    rw [find?_ofInsertions, hlast, Option.map_some]
  have hread := readDocument_of_find? he hfind options
  refine ⟨fun other => ?_, insertion, hnamed ▸ hlast, hread⟩
  rw [hread]
  cases format.decode options insertion.2 with
  | ok => nofun
  | error => nofun

/-- The last name by which the format is found is its entry, as that is spelled. -/
def SpelledLast (insertions : List (String × Bytes)) (format : Format) : Prop :=
  ∀ insertion, last? (fun name => Format.ofEntry? name = some format) insertions = some insertion →
    format.entry? = some insertion.1

theorem SpelledLast.last?_eq (h : SpelledLast insertions format) :
    last? (fun name => format.entry? = some name) insertions =
      last? (fun name => Format.ofEntry? name = some format) insertions :=
  last?_eq_of_narrower (fun _ he => by simpa using Format.ofEntry?_entry (by simpa using he))
    fun insertion hlast => by simpa using h insertion hlast

/-- A format is listed exactly if something was inserted under its entry as that is spelled, and
then reading it decodes what was last inserted so. If the last name by which it is found is spelled
so, then it is listed exactly if it is found by one of the names, and what is decoded is what was
last inserted under any name by which it is found. -/
theorem listed_and_read (insertions : List (String × Bytes)) (format : Format)
    (options : CodecOptions) :
    (format ∈ (ofInsertions insertions).presentFormats ↔
        ∃ name ∈ (ofInsertions insertions).names, format.entry? = some name) ∧
      (format ∈ (ofInsertions insertions).presentFormats →
        ReadsLast (fun name => format.entry? = some name) insertions format options) ∧
      (SpelledLast insertions format →
        (format ∈ (ofInsertions insertions).presentFormats ↔
            ∃ name ∈ (ofInsertions insertions).names, Format.ofEntry? name = some format) ∧
          (format ∈ (ofInsertions insertions).presentFormats →
            ReadsLast (fun name => Format.ofEntry? name =
              some format) insertions format options)) := by
  refine ⟨mem_presentFormats_iff_names, fun h => readsLast_of_mem h options,
    fun hs => ⟨?_, fun h => ?_⟩⟩
  · rw [mem_presentFormats_iff_names, exists_mem_names_iff, exists_mem_names_iff, hs.last?_eq]
  · have hread := readsLast_of_mem h options
    rwa [ReadsLast, hs.last?_eq] at hread

/-- The shadows of a map are put in twice, first under a name in capitals. -/
def shadows : List (String × Bytes) :=
  [("WAR3MAP.SHD", [0]), ("notes.txt", [1]), ("war3map.shd", [255])]

theorem listed_and_read_shadows : SpelledLast shadows .shadowMap ∧
    .shadowMap ∈ (ofInsertions shadows).presentFormats ∧
    ReadsLast (fun name => Format.ofEntry? name = some .shadowMap) shadows .shadowMap {} := by
  have hlast : last? (fun name => Format.ofEntry? name = some .shadowMap) shadows =
      some ("war3map.shd", [255]) := by decide +kernel
  have hs : SpelledLast shadows .shadowMap := by
    intro insertion h
    rw [hlast, Option.some.injEq] at h
    exact h ▸ rfl
  obtain ⟨hlisted, hread⟩ := (listed_and_read shadows .shadowMap {}).2.2 hs
  have hmem := hlisted.mpr ⟨"WAR3MAP.SHD", by decide +kernel, by decide +kernel⟩
  exact ⟨hs, hmem, hread hmem⟩

/-- A format is found by its entry in capitals, but the archive does not list it for one, and
where its entry is there as well, one in capitals that was inserted later is not what is read. -/
theorem capitals_passed_over : Format.ofEntry? "WAR3MAP.SHD" = some .shadowMap ∧
    "WAR3MAP.SHD" ∈ (ofInsertions [("WAR3MAP.SHD", [0])]).names ∧
    .shadowMap ∉ (ofInsertions [("WAR3MAP.SHD", [0])]).presentFormats ∧
    ¬ReadsLast (fun name => Format.ofEntry? name = some .shadowMap)
      [("war3map.shd", [255]), ("WAR3MAP.SHD", [7])] .shadowMap {} := by
  refine ⟨by decide +kernel, by decide +kernel, by decide +kernel, ?_⟩
  rintro ⟨-, insertion, hlast, hread⟩
  have hcapitals : insertion = ("WAR3MAP.SHD", [7]) := by
    rw [show last? _ _ = some ("WAR3MAP.SHD", [7]) by decide +kernel] at hlast
    exact (Option.some.inj hlast).symm
  -- The entry has a shadow in it, and 7 is none.
  rw [hcapitals] at hread
  exact absurd (congrArg Except.toBool hread) (by decide +kernel)

end Archive

end Mapsmith
