import Mapsmith.Proofs.Schema.Selection

/-!
# Choices made twice

`FieldType.writeAt_of_readAt_select`: reading keeps the first alternative that reads the bytes,
writing the first that writes the value, and nothing ties the two together. What was read is
always written, and as the bytes it was read from, unless an alternative that did not read
these bytes takes the value.
-/

namespace Mapsmith

namespace FieldType

/-- A selection writes every value that it read, with the alternative that read it or with
one that did not read the bytes there. Only the other one may write other bytes.

Inside the constants and enums of the alternatives, the functions of the schema answer alike for
equal values, and no type anywhere in them halts by itself. -/
theorem writeAt_of_readAt_select {codec : Codec} {alternatives : List FieldType} {scope : Scope}
    (hs : ∀ type ∈ alternatives, Site.Everywhere codec.definitions (Site.Retakes codec)
      ⟨seen, type⟩) (hwf : scope.WellFormed)
    (hrun : readAt codec levels (.select alternatives) scope start = .ok value stop) :
    ∃ taken, start.Takes taken stop ∧ ∀ path, ∃ written,
      writeAt codec (constantBytes codec) levels path (.select alternatives) value scope =
        .ok written ∧
        (written = taken ∨ ∃ other ∈ alternatives,
          (∀ found place, readAt codec levels other scope start ≠ .ok found place) ∧
            writeAt codec (constantBytes codec) levels path other value scope = .ok written) := by
  obtain ⟨ctx, hctx, -⟩ := exists_readContext codec levels
  obtain ⟨ctx', hctx', -⟩ := exists_writeContext codec (constantBytes codec) levels
  rw [hctx, ReadContext.read] at hrun
  obtain ⟨type, hfirst, hread⟩ := ReadContext.first_of_readFirst hrun
  have hretakes := readAt_retakes codec levels _ _ (hs type hfirst.mem) scope
  rw [hctx, hctx'] at hretakes
  obtain ⟨taken, htakes, -, hwritten⟩ := hretakes _ _ _ hread
  refine ⟨taken, htakes, fun path => ?_⟩
  have hself := hwritten scope (.refl scope) hwf path
  rw [Cells.fill_of] at hself
  obtain ⟨other, hother, ⟨written, hw⟩, hcase⟩ :=
    hfirst.exists_first (fun other => ∃ found, ctx'.write path other value scope = .ok found)
      ⟨taken, hself⟩
  have hreturns (type : FieldType) (ht : type ∈ alternatives) :
      Avoids .halt (ctx'.write path type value scope) := by
    rw [← hctx']
    exact avoids_writeAt codec _ levels _ _ _ _ _ ((hs type ht).mono fun _ h => h.returns)
  rw [hctx, hctx', WriteContext.write]
  refine ⟨written, WriteContext.writeFirst_of_first hother hreturns hw, ?_⟩
  obtain rfl | ⟨hmem, hnot⟩ := hcase
  · exact .inl (Except.ok.inj (hw.symm.trans hself))
  · exact .inr ⟨other, hmem, fun found place hfound => hnot ⟨found, place, hfound⟩, hw⟩

/-- A word that begins with a tag, or any other word of two bytes. -/
def tagOrWord : List FieldType := [.const (.int .u8 .little) (.int 1), .int .u16 .little]

theorem writeAt_of_readAt_tagOrWord :
    let codec : Codec := ⟨{}, fun _ => .sequence []⟩
    let scope := Scope.root .empty {}
    readAt codec 0 (.select tagOrWord) scope ⟨0, [2, 3, 4], .root⟩ =
      .ok (.int 770) ⟨2, [4], .root⟩ ∧
      writeAt codec (constantBytes codec) 0 .root (.select tagOrWord) (.int 770) scope =
        .ok [2, 3] := by
  intro codec scope
  have hrun : readAt codec 0 (.select tagOrWord) scope ⟨0, [2, 3, 4], .root⟩ =
    .ok (.int 770) ⟨2, [4], .root⟩ := rfl
  have hint (kind : IntKind) (order : ByteOrder) :
      Site.Everywhere codec.definitions (Site.Retakes codec) ⟨[], .int kind order⟩ :=
    .intro ⟨⟨trivial, trivial, trivial⟩, nofun, trivial, Site.avoids_halt nofun nofun⟩ nofun
  have hconst : Site.Everywhere codec.definitions (Site.Retakes codec)
      ⟨[], .const (.int .u8 .little) (.int 1)⟩ := by
    refine .intro ⟨⟨trivial, trivial, ?_⟩, nofun, trivial, Site.avoids_halt nofun ?_⟩ ?_
    · exact .intro ⟨trivial, trivial⟩ nofun
    · rintro _ _ ⟨⟩
      exact constantBytes_ne_none [] (.intro ⟨nofun, nofun⟩ nofun)
    · rintro _ ⟨⟩
      exact hint _ _
  have hs : ∀ type ∈ tagOrWord, Site.Everywhere codec.definitions (Site.Retakes codec) ⟨[], type⟩ :=
    List.forall_mem_cons.mpr ⟨hconst, List.forall_mem_cons.mpr ⟨hint _ _, nofun⟩⟩
  have hwf : scope.WellFormed := by
    rintro (_ | up) document ⟨⟩
    exact ⟨List.nodup_nil, nofun⟩
  obtain ⟨taken, htakes, hwritten⟩ := writeAt_of_readAt_select hs hwf hrun
  obtain ⟨written, hw, rfl | ⟨other, hother, hrefuses, hwrites⟩⟩ := hwritten .root
  · have htaken : written = [2, 3] := List.append_cancel_right htakes.rest.symm
    exact ⟨hrun, htaken ▸ hw⟩
  · -- The tag is not the value, and the other alternative reads the bytes.
    obtain _ | ⟨_, _ | ⟨_, ⟨⟩⟩⟩ := hother
    · cases hwrites
    · exact absurd rfl (hrefuses _ _)

end FieldType

/-- A number of four bytes, or of one where there are no four. -/
def wideOrNarrow : Schema where
  name := "Choice"
  fields := [("value", .select [.int .i32 .little, .int .i8 .little])]

/-- One byte is read as a number that is then written as four. -/
theorem wideOrNarrow_widens :
    wideOrNarrow.decode {} [5] = .ok ⟨[("value", .int 5)]⟩ ∧
      wideOrNarrow.encode {} ⟨[("value", .int 5)]⟩ = .ok [5, 0, 0, 0] := ⟨rfl, rfl⟩

end Mapsmith
