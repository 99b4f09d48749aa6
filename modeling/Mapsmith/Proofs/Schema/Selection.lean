import Mapsmith.Proofs.Schema.Running

/-!
# Encoding takes back selections

`Schema.Retakes.encode`: decoding and encoding again is exact for schemas with selections
as well. The encoder does not know which alternative a value was read as and tries them in
order too. It comes to the same one if no alternative before it takes the value, or halts
over it. What it does where one takes the value is the subject of `writeAt_of_readAt_select`.
-/

namespace Mapsmith

/-- What an alternative reads, none before it writes. -/
def FieldType.Settled (codec : Codec) : FieldType → Prop
  | .select alternatives => alternatives.Pairwise fun other type =>
    ∀ levels scope start value stop, readAt codec levels type scope start = .ok value stop →
      ∀ constantBytes path scope' written,
        writeAt codec constantBytes levels path other value scope' ≠ .ok written
  | _ => True

/-- A site where encoding takes back what decoding did, with selections or without. -/
structure Site.Retakes (codec : Codec) (site : Site) : Prop where
  repeats : site.Repeats codec.definitions
  noBlock : site.NoBlock
  settled : site.type.Settled codec
  returns : site.Avoids .halt (FieldType.constantBytes codec)

/-- The value is written as its cells in every scope to which its scope grows. -/
def Writer.Rewrites (write : Writer) : Layout := fun type scope _ value cells =>
  value.WellFormed ∧ ∀ scope' : Scope, scope.GrowsTo scope' → scope'.WellFormed →
    ∀ path, write path type value scope' = .ok cells.fill

/-- A writer that takes back what the reader did. -/
def Retakes (codec : Codec) (read : ValueReader) (write : Writer) : Prop :=
  ∀ seen type, Site.Everywhere codec.definitions (Site.Retakes codec) ⟨seen, type⟩ →
    ∀ scope, (read type scope).Gives (write.Rewrites type scope)

namespace FieldType

variable {codec : Codec} {levels : Nat}

/-- What a type without parts reads lies by its layout, which has no open cells. -/
theorem retakes_leaf (hleaf : ∀ other, ¬Site.Part codec.definitions ⟨seen, type⟩ other)
    (hn : Site.NoSelection ⟨seen, type⟩) (hr : Site.Retakes codec ⟨seen, type⟩) (scope : Scope) :
    (readAt codec levels type scope).Gives
    ((writeAt codec (constantBytes codec) levels).Rewrites type scope) := by
  intro start value stop hrun
  have hs {P : Site → Prop} (h : P ⟨seen, type⟩) :
      Site.Everywhere codec.definitions P ⟨seen, type⟩ :=
    .intro h fun other hp => absurd hp (hleaf other)
  obtain ⟨taken, cells, htakes, hmatch, hlies⟩ :=
    (readAt_readsLayout codec levels _ _ scope (hs hn) _ _ _).mp hrun
  have hclosed := liesAt_closed codec levels _ _ (hs hr.noBlock) _ _ _ _ hlies
  refine ⟨taken, htakes, ?_, fun scope' hgrows hwf path => ?_⟩
  · exact liesAt_wellFormed codec levels _ _ (hs hr.repeats.names) _ _ _ _ hlies
  · rw [Cells.fill_of, hmatch.eq_fill hclosed]
    exact writeAt_writesLayout codec levels _ _ (hs hr.repeats) _ _ hgrows hwf _ _ _ _ hlies

end FieldType

open Decoder in
theorem Decoder.Gives.record {read : ValueReader} (write : Writer)
    {fields : List (String × FieldType)}
    {scope : Document → Scope} (hn : (fields.map Prod.fst).Nodup)
    (h : ∀ field ∈ fields, ∀ document,
      (read field.2 (scope document)).Gives (write.Rewrites field.2 (scope document)))
    (hrun : readFields read scope fields .empty start = .ok document stop) :
    ∃ taken, start.Takes taken stop ∧ document.WellFormed ∧
      ∀ whole : Scope, whole.current = document →
      whole.WellFormed → (∀ before, before.Before document → (scope before).GrowsTo whole) → ∀ path,
        Codec.writeFields write path whole fields = .ok taken := by
  obtain ⟨taken, htakes, hlie⟩ := Gives.fields h .empty _ _ _ hrun
  have hwell : document.WellFormed :=
    hlie.document_wellFormed hn fun field _ scope left value cells hv => hv.1
  refine ⟨taken, htakes, hwell, fun whole hcurrent hwf hgrows path => ?_⟩
  rw [← Cells.fill_of taken]
  refine hlie.writes_record hn hcurrent fun field _ before hbefore path left value cells hv => ?_
  exact hv.2 _ (hgrows before hbefore) hwf path

section

open Decoder WriteContext

variable {codec : Codec}

theorem Decoder.Gives.sequence {ctx : ReadContext} {ctx' : WriteContext}
    (h : ∀ type ∈ types, (ctx.read type scope).Gives (Writer.Rewrites ctx'.write type scope))
    (hrun : ctx.readSequence index types scope start = .ok items stop) :
    ∃ taken, start.Takes taken stop ∧ items.length = types.length ∧
      (∀ item ∈ items, item.WellFormed) ∧
      ∀ scope' : Scope, scope.GrowsTo scope' → scope'.WellFormed → ∀ path index,
        ctx'.writeSequence path index types items scope' = .ok taken := by
  induction types generalizing index start items with
  | nil =>
    rw [ReadContext.readSequence] at hrun
    obtain ⟨rfl, rfl⟩ := pure_run.mp hrun
    exact ⟨[], .refl _, rfl, by simp, fun _ _ _ _ _ => rfl⟩
  | cons type types ih =>
    obtain ⟨htype, htypes⟩ := List.forall_mem_cons.mp h
    rw [ReadContext.readSequence] at hrun
    obtain ⟨item, middle, hitem, hrun⟩ := bind_run.mp hrun
    obtain ⟨rest, hrest, rfl⟩ := map_run.mp hrun
    obtain ⟨first, htakes, hwell, hwritten⟩ := htype.within _ _ _ _ hitem
    obtain ⟨second, htakes', hlength, hwell', hwritten'⟩ := ih htypes hrest
    refine ⟨first ++ second, htakes.trans htakes', by simp [hlength],
      List.forall_mem_cons.mpr ⟨hwell, hwell'⟩, fun scope' hgrows hwf path index => ?_⟩
    simp only [WriteContext.writeSequence, bind_ok, pure_ok]
    exact ⟨first, by simpa using hwritten scope' hgrows hwf _, second,
      hwritten' scope' hgrows hwf path _, rfl⟩

theorem retakes_of_deeper (levels : Nat) (ctx : ReadContext) (ctx' : WriteContext)
    (hr : ctx.read = FieldType.readAt codec levels)
    (hw : ctx'.write = FieldType.writeAt codec (FieldType.constantBytes codec) levels)
    (hc : ctx.codec = codec)
    (hc' : ctx'.codec = codec) (hd : Option.Rel (Retakes codec) ctx.deeper ctx'.deeper) :
    Retakes codec ctx.read ctx'.write := by
  intro seen type hs scope
  have halike : WritesAlike codec.definitions ctx'.write :=
    hw ▸ FieldType.writeAt_alike codec (FieldType.constantBytes_alike codec) levels
  -- Fields and lazy types are read one level down, where `hd` speaks of them; the induction is
  -- for what stays on this level.
  induction type using FieldType.induction generalizing scope with
  | const inner expected ih =>
    intro start value stop hrun
    rw [ReadContext.read, readConst_ok_iff] at hrun
    obtain ⟨hrun, heq⟩ := hrun
    obtain ⟨taken, htakes, hwell, hwritten⟩ := ih (hs.part .const) scope _ _ _ hrun
    refine ⟨taken, htakes, hwell, fun scope' hgrows hwf path => ?_⟩
    rw [WriteContext.write, if_pos heq]
    exact (halike _ _ hs.here.repeats.repeats _ _ _ _ _ (.of_beq hwell heq) hwf.agree).result
      (hwritten scope' hgrows hwf path)
  | enum repr variants ih =>
    intro start value stop hrun
    rw [ReadContext.read] at hrun
    obtain ⟨raw, hraw, rfl⟩ := map_run.mp hrun
    obtain ⟨taken, htakes, hwell, hwritten⟩ := ih (hs.part .enum) scope _ _ _ hraw
    obtain ⟨hsites, hn, hv⟩ := hs.here.repeats.repeats
    refine ⟨taken, htakes, .enum hwell, fun scope' hgrows hwf path => ?_⟩
    rw [WriteContext.write]
    exact (halike _ _ hsites _ _ _ _ _ (rawValue_enum_same hn hv hwell) hwf.agree).result
      (hwritten scope' hgrows hwf path)
  | record name fields =>
    intro start value stop hrun
    rw [ReadContext.read, ReadContext.descend_run] at hrun
    obtain ⟨read, hread, hrun⟩ := hrun
    obtain ⟨document, hfields, rfl⟩ := map_run.mp hrun
    obtain ⟨write, hwrite, hretakes⟩ := rel_some hd hread
    obtain ⟨taken, htakes, hwell, hwritten⟩ := Gives.record write hs.here.repeats.names
      (fun field hf document => by
        obtain ⟨_, hfield⟩ := hs.field hf
        exact hretakes _ _ hfield _) hfields
    refine ⟨taken, htakes, hwell.toStruct, fun scope' hgrows hwf path => ?_⟩
    simp only [WriteContext.write, bind_ok, Codec.expect_ok, descend_ok, Cells.fill_of]
    exact ⟨document, rfl, write, hwrite, hwritten _ rfl (hwf.child hwell)
      (fun before hbefore => hgrows.child hbefore) path⟩
  | array length element ih =>
    have ih := ih (hs.part .element) scope
    intro start value stop hrun
    obtain ⟨items, rfl, ⟨n, hasks, hitems⟩ | ⟨hasks, hitems⟩⟩ := ReadContext.read_items_run.mp hrun
    · obtain ⟨taken, htakes, rest, rfl, hlie, rfl⟩ := Gives.times ih n 0 [] _ _ _ hitems
      refine ⟨taken, htakes, .array (hlie.forall fun _ _ _ hv => hv.1),
        fun scope' hgrows hwf path => ?_⟩
      simp only [WriteContext.write, bind_ok, Codec.expect_ok, Codec.checkCount_ok,
        Codec.writeItems_ok]
      exact ⟨_, rfl, (), .inl (hs.here.repeats.keeps.asks hgrows hasks),
        hlie.writes fun path left value cells hv => hv.2 scope' hgrows hwf path⟩
    · obtain ⟨taken, htakes, rest, hlie, rfl⟩ := Gives.greedy ih _ 0 [] (Nat.le_refl _) hitems
      refine ⟨taken, htakes, .array (hlie.forall fun _ _ _ hv => hv.1),
        fun scope' hgrows hwf path => ?_⟩
      simp only [WriteContext.write, bind_ok, Codec.expect_ok, Codec.checkCount_ok,
        Codec.writeItems_ok]
      exact ⟨_, rfl, (), .inr (hs.here.repeats.keeps.asks hgrows hasks),
        hlie.writes fun path left value cells hv => hv.2 scope' hgrows hwf path⟩
  | greedy element ih =>
    intro start value stop hrun
    obtain ⟨items, hitems, rfl⟩ := ReadContext.read_greedy_run.mp hrun
    obtain ⟨taken, htakes, rest, hlie, rfl⟩ :=
      Gives.greedy (ih (hs.part .greedy) scope) _ 0 [] (Nat.le_refl _) hitems
    refine ⟨taken, htakes, .array (hlie.forall fun _ _ _ hv => hv.1),
      fun scope' hgrows hwf path => ?_⟩
    simp only [WriteContext.write, bind_ok, Codec.expect_ok, Codec.writeItems_ok]
    exact ⟨_, rfl, hlie.writes fun path left value cells hv => hv.2 scope' hgrows hwf path⟩
  | sequence types ih =>
    intro start value stop hrun
    rw [ReadContext.read] at hrun
    obtain ⟨items, hitems, rfl⟩ := map_run.mp hrun
    obtain ⟨taken, htakes, hlength, hwell, hwritten⟩ :=
      Gives.sequence (fun type ht => ih type ht (hs.part (.item ht)) scope) hitems
    refine ⟨taken, htakes, .array hwell, fun scope' hgrows hwf path => ?_⟩
    rw [write_sequence_ok, Cells.fill_of]
    exact ⟨items, rfl, hlength, hwritten scope' hgrows hwf path 0⟩
  | switch on cases default ihc ihd =>
    intro start value stop hrun
    obtain ⟨discriminant, type, hdisc, hpick, hrun⟩ := ReadContext.read_switch_run.mp hrun
    obtain ⟨taken, htakes, hwell, hwritten⟩ : ∃ taken, start.Takes taken stop ∧
        Writer.Rewrites ctx'.write type scope stop.rest.length value (.of taken) := by
      rcases FieldType.mem_of_pick? hpick with ⟨case, hcase, rfl⟩ | htype
      · exact ihc case hcase (hs.part (.case hcase)) scope _ _ _ hrun
      · exact ihd type htype (hs.part (.default htype)) scope _ _ _ hrun
    exact ⟨taken, htakes, hwell, fun scope' hgrows hwf path =>
      write_switch_ok.mpr ⟨discriminant, type, hgrows.resolve hdisc, hpick,
        hwritten scope' hgrows hwf path⟩⟩
  | conditional condition yes no ihy ihn =>
    intro start value stop hrun
    rw [ReadContext.read, bind_run] at hrun
    obtain ⟨truth, middle, hlift, hrun⟩ := hrun
    obtain ⟨htruth, hmiddle⟩ := lift_run.mp hlift
    rw [answered_ok] at htruth
    rw [hmiddle] at hrun
    obtain ⟨taken, htakes, hwell, hwritten⟩ : ∃ taken, start.Takes taken stop ∧
        Writer.Rewrites ctx'.write (if truth then yes else no) scope stop.rest.length value
          (.of taken) := by
      cases truth with
      | true => exact ihy (hs.part .yes) scope _ _ _ hrun
      | false => exact ihn (hs.part .no) scope _ _ _ hrun
    refine ⟨taken, htakes, hwell, fun scope' hgrows hwf path => ?_⟩
    simp only [WriteContext.write, bind_ok, answered_ok]
    refine ⟨truth, hs.here.repeats.keeps _ _ hgrows _ htruth, ?_⟩
    have hwritten := hwritten scope' hgrows hwf path
    cases truth with
    | true => exact hwritten
    | false => exact hwritten
  | select alternatives ih =>
    intro start value stop hrun
    rw [ReadContext.read] at hrun
    obtain ⟨type, hfirst, hrun⟩ := ReadContext.first_of_readFirst hrun
    obtain ⟨taken, htakes, hwell, hwritten⟩ :=
      ih type hfirst.mem (hs.part (.alternative hfirst.mem)) scope _ _ _ hrun
    refine ⟨taken, htakes, hwell, fun scope' hgrows hwf path => ?_⟩
    rw [WriteContext.write]
    -- The encoder comes to the same alternative: no earlier one writes what this one read.
    refine writeFirst_of_first (hfirst.of_pairwise hs.here.settled ?_) (fun other hother => ?_)
      (hwritten scope' hgrows hwf path)
    · rintro other hsettled ⟨found, hfound⟩
      rw [hr] at hrun
      rw [hw] at hfound
      exact hsettled _ _ _ _ _ hrun _ _ _ _ hfound
    · have hreturns := (hs.part (.alternative hother)).mono fun _ h => h.returns
      rw [hw]
      exact FieldType.avoids_writeAt codec _ levels _ _ _ _ _ hreturns
  | checked relation holds inner ih =>
    intro start value stop hrun
    obtain ⟨hrun, hholds⟩ := ReadContext.read_checked_run.mp hrun
    obtain ⟨taken, htakes, hwell, hwritten⟩ := ih (hs.part .checked) scope _ _ _ hrun
    refine ⟨taken, htakes, hwell, fun scope' hgrows hwf path => ?_⟩
    rw [WriteContext.write, if_pos (hs.here.repeats.keeps _ _ hgrows _ hholds)]
    exact hwritten scope' hgrows hwf path
  | padded size inner => exact absurd rfl (hs.here.noBlock size inner)
  | lazy slot =>
    intro start value stop hrun
    rw [ReadContext.read, ReadContext.descend_run, hc] at hrun
    obtain ⟨read, hread, hrun⟩ := hrun
    obtain ⟨write, hwrite, hretakes⟩ := rel_some hd hread
    obtain ⟨taken, htakes, hwell, hwritten⟩ := hretakes _ _ (hs.part .lazy) _ _ _ _ hrun
    refine ⟨taken, htakes, hwell, fun scope' hgrows hwf path => ?_⟩
    rw [WriteContext.write, descend_ok, hc']
    exact ⟨write, hwrite, hwritten scope' hgrows hwf path⟩
  | _ =>
    rw [hr, hw]
    refine FieldType.retakes_leaf ?_ ?_ hs.here scope
    · rintro _ ⟨⟩
    · rintro _ ⟨⟩

theorem FieldType.readAt_retakes (codec : Codec) (levels : Nat) :
    Retakes codec (readAt codec levels) (writeAt codec (constantBytes codec) levels) := by
  induction levels with
  | zero =>
    exact retakes_of_deeper 0 ⟨codec, none⟩ ⟨codec, constantBytes codec, none⟩ rfl rfl rfl rfl .none
  | succ levels ih =>
    exact retakes_of_deeper (levels + 1) ⟨codec, some _⟩ ⟨codec, constantBytes codec, some _⟩
      rfl rfl rfl rfl (.some ih)

end

namespace Schema

/-- A schema by which encoding takes back what decoding did, byte for byte. -/
structure Retakes (schema : Schema) (options : CodecOptions) : Prop where
  names : (schema.fields.map Prod.fst).Nodup
  sites : schema.Everywhere (Site.Retakes (schema.codec options))

/-- The bytes that the document takes up are encoded again. They are all the bytes that there
are, unless others may follow. -/
theorem Retakes.encode_taken {schema : Schema} {options : CodecOptions}
    (hs : schema.Retakes options)
    (h : schema.decode options bytes = .ok document) : ∃ taken rest, bytes = taken ++ rest ∧
      (options.allowTrailing = false → rest = []) ∧ schema.encode options document = .ok taken := by
  obtain ⟨stop, hrun, hrest⟩ := decode_ok.mp h
  obtain ⟨taken, htakes, hwell, hwritten⟩ := Decoder.Gives.record
    (FieldType.writeAt (schema.codec options) (FieldType.constantBytes (schema.codec options))
      options.maxDepth) hs.names (fun field hf document => by
        obtain ⟨_, hfield⟩ := hs.sites.field hf
        exact FieldType.readAt_retakes _ _ _ _ hfield _) hrun
  refine ⟨taken, stop.rest, htakes.rest, fun ht => hrest.resolve_right (by simp [ht]), ?_⟩
  refine hwritten (Scope.root document options) rfl ?_ (fun before hb => ⟨rfl, hb, .nil⟩) _
  rintro (_ | up) other ⟨⟩
  exact hwell

theorem Retakes.encode {schema : Schema} {options : CodecOptions} (hs : schema.Retakes options)
    (ht : options.allowTrailing = false) (h : schema.decode options bytes = .ok document) :
    schema.encode options document = .ok bytes := by
  obtain ⟨taken, rest, rfl, hrest, hencode⟩ := hs.encode_taken h
  rwa [hrest ht, List.append_nil]

end Schema

end Mapsmith
