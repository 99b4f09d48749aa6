import Mapsmith.Proofs.Schema.Comparison
import Mapsmith.Proofs.Schema.RoundTrip

/-!
# Where a document ends

`Schema.decode_extent`: if no type takes what is left of the input, a document ends where its
last field does. A shorter input is cut off within a field or a constant, and bytes behind the
document are left over, whatever they are.

Two things are assumed besides, and `closed_and_sighted_undetected` has a schema for each of them
without which this fails: a shorter input ends within a constant that an error can show, and
where bytes behind the document are ignored, no function of the schema answers otherwise for
that.
-/

namespace Mapsmith

theorem Length.indifferent_self (length : Length) (options : CodecOptions) :
    length.Indifferent options options := by
  cases length with
  | computed count =>
    rintro scope rfl
    rfl
  | _ => trivial

theorem FieldType.indifferent_self (type : FieldType) (options : CodecOptions) :
    type.Indifferent options options := by
  cases type with
  | bytes length | array length => exact length.indifferent_self options
  | conditional =>
    rintro scope rfl
    rfl
  | checked =>
    rintro value scope rfl
    rfl
  | _ => trivial

/-- The same options twice, on an input and on a longer one. -/
def Comparison.longer (options : CodecOptions) (more : Bytes) (mayHalt : Prop) : Comparison where
  options := options
  looser := options
  loosens := .refl options
  more := more
  mayHalt := mayHalt

/-- The options by which bytes behind a document are ignored. -/
def CodecOptions.ignoringTrailing (options : CodecOptions) : CodecOptions :=
  { options with allowTrailing := true }

theorem CodecOptions.loosensTo_ignoringTrailing (options : CodecOptions) :
    options.LoosensTo options.ignoringTrailing :=
  ⟨Nat.le_refl _, Nat.le_refl _, fun _ => rfl, fun _ _ _ => id⟩

namespace Schema

variable {schema : Schema} {options : CodecOptions} {document : Document} {bytes more : Bytes}
    {stop : Place}

theorem covers_longer (hn : schema.Everywhere Site.NoSelection)
    (hd : schema.Everywhere fun site => site.type.Delimited) (mayHalt : Prop) {codec : Codec}
    (hshows : schema.Everywhere fun site => mayHalt ∨ site.Showable codec) (options : CodecOptions)
    (more : Bytes) :
    schema.Everywhere ((Comparison.longer options more mayHalt).Covers codec) :=
  fun before field after heq part hpart =>
    ⟨hn before field after heq part hpart, part.type.indifferent_self options,
      fun _ => hd before field after heq part hpart,
        fun _ => hshows before field after heq part hpart⟩

theorem decoder_append (hn : schema.Everywhere Site.NoSelection)
    (hd : schema.Everywhere fun site => site.type.Delimited)
    (h : schema.decoder options (.start bytes) = .ok document stop) (more : Bytes) :
    schema.decoder options (.start (bytes ++ more)) = .ok document (stop.withMore more) :=
  (follows_decoder (covers_longer hn hd True (fun _ _ _ _ _ _ => .inl trivial) options more)).ok h

theorem decoder_short (hn : schema.Everywhere Site.NoSelection)
    (hd : schema.Everywhere fun site => site.type.Delimited)
    (hshows : schema.Everywhere (Site.Showable (schema.codec options))) (hmore : more ≠ [])
    (h : schema.decoder options (.start (bytes ++ more)) = .ok document stop)
    (hrest : stop.rest = []) :
    ∃ error stop', schema.decoder options (.start bytes) = .error error stop' ∧ error.IsEnd := by
  have hfollows := follows_decoder (covers_longer hn hd False
    (fun before field after heq part hpart => .inr (hshows before field after heq part hpart))
    options more)
  have h : schema.decoder options ((Place.start bytes).withMore more) = .ok document stop := h
  obtain ⟨stop', -, rfl⟩ | ⟨error, stop', hrun, he⟩ := hfollows.ok_or_excused h
  · exact absurd (List.append_eq_nil_iff.mp hrest).2 hmore
  · obtain ⟨hne, -⟩ | ⟨-, he | ⟨⟨⟩, -⟩⟩ := he
    · exact absurd rfl hne
    · exact ⟨error, stop', hrun, he⟩

theorem offset_of_decoder (hn : schema.Everywhere Site.NoSelection)
    (h : schema.decoder options (.start bytes) = .ok document stop) (hrest : stop.rest = []) :
    stop.offset = bytes.length := by
  obtain ⟨taken, cells, htakes, -, -⟩ := (reads_fields hn options _ _ _).mp h
  have htaken : bytes = taken ++ stop.rest := htakes.rest
  rw [htakes.offset, htaken, hrest, List.append_nil]
  exact Nat.zero_add _

/-- If nothing takes what is left of the input, a document takes all of it or none of it
is one: each shorter input ends too early, and bytes behind the document are left over. If
these are ignored, and no function of the schema answers otherwise for that, the document is
the same. For the shorter inputs the constants must be ones that an error can show. -/
theorem decode_extent (hn : schema.Everywhere Site.NoSelection)
    (hd : schema.Everywhere fun site => site.type.Delimited) (ht : options.allowTrailing = false)
    (h : schema.decode options bytes = .ok document) :
    (schema.Everywhere (Site.Showable (schema.codec options)) →
      ∀ short more, bytes = short ++ more → more ≠ [] →
      ∃ error, schema.decode options short = .error error ∧ error.IsEnd) ∧
    (∀ more, more ≠ [] →
      schema.decode options (bytes ++ more) = .error (.trailingData bytes.length more.length)) ∧
    ((schema.Everywhere fun site => site.type.Indifferent options options.ignoringTrailing) →
      (schema.Everywhere (Site.Showable (schema.codec options.ignoringTrailing)) →
        ∀ short more, bytes = short ++ more → more ≠ [] →
          ∃ error, schema.decode options.ignoringTrailing short = .error error ∧ error.IsEnd) ∧
      ∀ more, schema.decode options.ignoringTrailing (bytes ++ more) = .ok document) := by
  obtain ⟨stop, hrun, hrest | htrue⟩ := decode_ok.mp h
  · have hrun' (hi : schema.Everywhere fun site =>
        site.type.Indifferent options options.ignoringTrailing) :=
      decoder_of_loosens hn hi options.loosensTo_ignoringTrailing hrun
    refine ⟨?_, fun more hmore => ?_, fun hi => ⟨?_, fun more => ?_⟩⟩
    · rintro hshows short more rfl hmore
      obtain ⟨error, _, hshort, he⟩ := decoder_short hn hd hshows hmore hrun hrest
      exact ⟨error, decode_of_error hshort, he⟩
    · have hstop : (stop.withMore more).rest = more := by simp [Place.withMore, hrest]
      rw [decode_of_trailing (decoder_append hn hd hrun more) (by rwa [hstop]) ht, hstop,
        ← offset_of_decoder hn hrun hrest]
      rfl
    · rintro hshows short more rfl hmore
      obtain ⟨error, _, hshort, he⟩ := decoder_short hn hd hshows hmore (hrun' hi) hrest
      exact ⟨error, decode_of_error hshort, he⟩
    · exact decode_ok.mpr ⟨_, decoder_append hn hd (hrun' hi) more, .inr rfl⟩
  · rw [ht] at htrue
    cases htrue

theorem decode_extent_countedBlock :
    countedBlock.decode {} [2, 7, 8, 9, 9] =
        .ok ⟨[("count", .int 2), ("block", .array [.int 7, .int 8])]⟩ ∧
      countedBlock.Everywhere (Site.Showable (countedBlock.codec {})) ∧
      (∃ error, countedBlock.decode {} [2, 7, 8] = .error error ∧ error.IsEnd) ∧
      countedBlock.decode {} [2, 7, 8, 9, 9, 1] = .error (.trailingData 5 1) ∧
      countedBlock.decode (CodecOptions.ignoringTrailing {}) [2, 7, 8, 9, 9, 1] =
        .ok ⟨[("count", .int 2), ("block", .array [.int 7, .int 8])]⟩ := by
  have h : countedBlock.decode {} [2, 7, 8, 9, 9] =
      .ok ⟨[("count", .int 2), ("block", .array [.int 7, .int 8])]⟩ := rfl
  have hn : countedBlock.Everywhere Site.NoSelection := countedBlock_everywhere nofun nofun nofun
  have hd : countedBlock.Everywhere fun site => site.type.Delimited :=
    countedBlock_everywhere (fun _ _ _ => trivial) nofun fun _ _ _ => trivial
  have hshows : countedBlock.Everywhere (Site.Showable (countedBlock.codec {})) :=
    countedBlock_everywhere nofun nofun nofun
  obtain ⟨hshort, hlong, hignored⟩ := decode_extent hn hd rfl h
  have hi := countedBlock_everywhere
    (P := fun site => site.type.Indifferent {} (CodecOptions.ignoringTrailing {}))
    (fun _ _ _ => trivial) trivial fun _ _ _ => trivial
  exact ⟨h, hshows, hshort hshows [2, 7, 8] [9, 9] rfl nofun, hlong [1] nofun, (hignored hi).2 [1]⟩

/-- Two numbers, of which the first is refused where bytes behind a document are ignored. -/
def closed : Schema where
  name := "Closed"
  fields :=
  [("first", .checked "closed" (fun _ scope => !scope.options.allowTrailing) (.int .u8 .little)),
    ("second", .int .u8 .little)]

/-- A number, and a constant that is a unit of too many bits where the number is out of sight. -/
def sighted : Schema where
  name := "Sighted"
  fields := [("first", .int .u8 .little),
    ("second", .const (.conditional (fun scope => .ok (scope.current.get? "first").isSome)
      (.int .u8 .little)
      (.packed ⟨1, .lowFirst, [⟨"wide", 4294967295, none⟩, ⟨"narrow", 9, none⟩]⟩))
      (.int 1))]

theorem closed_everywhere {P : Site → Prop} (hint : ∀ seen kind order, P ⟨seen, .int kind order⟩)
    (hchecked : ∀ seen relation holds inner, P ⟨seen, .checked relation holds inner⟩) :
    closed.Everywhere P := by
  have hleaf (seen : List (List String)) (kind : IntKind) (order : ByteOrder) :
      Site.Everywhere closed.definitions P ⟨seen, .int kind order⟩ :=
    .intro (hint _ _ _) nofun
  rintro (_ | ⟨_, _ | ⟨_, before⟩⟩) field after heq
  · cases heq
    refine .intro (hchecked _ _ _ _) ?_
    rintro _ ⟨⟩
    exact hleaf _ _ _
  · cases heq
    exact hleaf _ _ _
  · simp [closed] at heq

theorem sighted_everywhere {P : Site → Prop} (hint : ∀ seen kind order, P ⟨seen, .int kind order⟩)
    (hconst : ∀ seen inner expected, P ⟨seen, .const inner expected⟩)
    (hconditional : ∀ seen condition yes no, P ⟨seen, .conditional condition yes no⟩)
    (hpacked : ∀ seen unit, P ⟨seen, .packed unit⟩) : sighted.Everywhere P := by
  have hleaf (seen : List (List String)) (kind : IntKind) (order : ByteOrder) :
      Site.Everywhere sighted.definitions P ⟨seen, .int kind order⟩ :=
    .intro (hint _ _ _) nofun
  rintro (_ | ⟨_, _ | ⟨_, before⟩⟩) field after heq
  · cases heq
    exact hleaf _ _ _
  · cases heq
    refine .intro (hconst _ _ _) ?_
    rintro _ ⟨⟩
    refine .intro (hconditional _ _ _ _) fun other hpart => ?_
    cases hpart with
    | yes => exact hleaf _ _ _
    | no => exact .intro (hpacked _ _) nofun
  · simp [sighted] at heq

/-- A check that asks whether bytes behind the document are ignored fails for an input that is cut
off, and for one that goes on. The sum of the widths of a constant that is to be shown may halt
the run instead. -/
theorem closed_and_sighted_undetected :
    (closed.Everywhere Site.NoSelection ∧ closed.Everywhere fun site => site.type.Delimited) ∧
      closed.decode {} [1, 2] = .ok ⟨[("first", .int 1), ("second", .int 2)]⟩ ∧
      closed.decode (CodecOptions.ignoringTrailing {}) [1] =
        .error (.validation "first" (.check "closed")) ∧
      closed.decode (CodecOptions.ignoringTrailing {}) [1, 2, 3] =
        .error (.validation "first" (.check "closed")) ∧
      (sighted.Everywhere Site.NoSelection ∧ sighted.Everywhere fun site => site.type.Delimited) ∧
      sighted.decode {} [0, 1] = .ok ⟨[("first", .int 0), ("second", .int 1)]⟩ ∧
      sighted.decode {} [0] = .error .halted := by
  have hclosed : closed.Everywhere fun site => site.NoSelection ∧ site.type.Delimited :=
    closed_everywhere (fun _ _ _ => ⟨nofun, trivial⟩) fun _ _ _ _ => ⟨nofun, trivial⟩
  have hsighted : sighted.Everywhere fun site => site.NoSelection ∧ site.type.Delimited :=
    sighted_everywhere (fun _ _ _ => ⟨nofun, trivial⟩) (fun _ _ _ => ⟨nofun, trivial⟩)
      (fun _ _ _ _ => ⟨nofun, trivial⟩) fun _ _ => ⟨nofun, trivial⟩
  have hparts {schema : Schema} (h : schema.Everywhere fun site => site.NoSelection ∧
      site.type.Delimited) :
      schema.Everywhere Site.NoSelection ∧ schema.Everywhere fun site => site.type.Delimited :=
    ⟨fun before field after heq => (h before field after heq).mono fun _ h => h.1,
      fun before field after heq => (h before field after heq).mono fun _ h => h.2⟩
  exact ⟨hparts hclosed, rfl, rfl, rfl, hparts hsighted, rfl, rfl⟩

end Schema

end Mapsmith
