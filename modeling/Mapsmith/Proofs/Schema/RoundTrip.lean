import Mapsmith.Proofs.Schema.Reading
import Mapsmith.Proofs.Schema.Writing

/-!
# Decoding and encoding again

`Schema.encode_of_decode`: what decodes is encoded as the bytes it came from, but for the
bytes after the content of a block, which become zero and were of no account: any bytes
there decode to the same document.

A constant is written as the value that the schema has for it, which is only equal to the one
that was read. So a function of the schema in a constant must not tell equal values apart, as
the one in `namedFlag_refused` does.
-/

namespace Mapsmith

-- ---------------------------------------------------------------------------
-- Cells by position
-- ---------------------------------------------------------------------------

namespace Cells

/-- Bytes that match where given ones do are those that differ from them only
where the cells are left open. -/
theorem Match.iff_of {cells : Cells} (h : cells.Match bytes) {other : Bytes} :
    cells.Match other ↔ other.length = bytes.length ∧
      ∀ i : Nat, cells[i]? ≠ some none → other[i]? = bytes[i]? := by
  induction cells generalizing bytes other with
  | nil =>
    cases match_nil.mp h
    rw [match_nil]
    constructor
    · rintro rfl
      exact ⟨rfl, fun _ _ => rfl⟩
    · exact fun hother => List.length_eq_zero_iff.mp hother.1
  | cons cell cells ih =>
    obtain ⟨b, rest, hb, hrest, rfl⟩ := match_cons.mp h
    rw [match_cons]
    constructor
    · rintro ⟨c, others, hc, hothers, rfl⟩
      obtain ⟨hlen, hsame⟩ := (ih hrest).mp hothers
      refine ⟨by simp [hlen], fun i hi => ?_⟩
      cases i with
      | zero =>
        obtain rfl | rfl := hb
        · exact absurd rfl hi
        · obtain ⟨⟨⟩⟩ | ⟨⟨⟩⟩ := hc
          rfl
      | succ i => simpa using hsame i (by simpa using hi)
    · rintro ⟨hlen, hsame⟩
      cases other with
      | nil => cases hlen
      | cons c others =>
        refine ⟨c, others, ?_, (ih hrest).mpr ⟨by simpa using hlen, fun i hi => ?_⟩, rfl⟩
        · cases cell with
          | none => exact .inl rfl
          | some d =>
            obtain ⟨⟨⟩⟩ | ⟨⟨⟩⟩ := hb
            have := hsame 0 (by simp)
            simp only [List.getElem?_cons_zero, Option.some.injEq] at this
            exact .inr (this ▸ rfl)
        · simpa using hsame (i + 1) (by simpa using hi)

theorem fill_of_open {cells : Cells} {i : Nat} (h : cells[i]? = some none) :
    cells.fill[i]? = some 0 := by
  simp [fill, h]

theorem Match.eq_fill {cells : Cells} (h : cells.Match bytes) (hc : none ∉ cells) :
    bytes = cells.fill := by
  induction h with
  | nil => rfl
  | @cons cell b cells bytes hcell _ ih =>
    simp only [List.mem_cons, not_or] at hc
    obtain rfl | rfl := hcell
    · exact absurd rfl hc.1
    · rw [ih hc.2]
      rfl

end Cells

-- ---------------------------------------------------------------------------
-- Schemas without blocks
-- ---------------------------------------------------------------------------

def Site.NoBlock (site : Site) : Prop := ∀ size inner, site.type ≠ .padded size inner

/-- Every byte is that of some value. -/
def LiesClosed (definitions : Nat → FieldType) (layout : Layout) : Prop :=
  ∀ seen type, Site.Everywhere definitions Site.NoBlock ⟨seen, type⟩ →
    ∀ scope left value cells, layout type scope left value cells → none ∉ cells

theorem notMem_of (bytes : Bytes) : none ∉ Cells.of bytes := by simp [Cells.of]

theorem ItemsLie.closed (h : ItemsLie item left items cells)
    (hv : ∀ left value cells, item left value cells → none ∉ cells) : none ∉ cells := by
  induction h with
  | nil => simp
  | cons hvalue _ ih => simpa using ⟨hv _ _ _ hvalue, ih⟩

theorem GreedyLie.closed (h : GreedyLie item left items cells)
    (hv : ∀ left value cells, item left value cells → none ∉ cells) : none ∉ cells := by
  induction h with
  | done => simp
  | stuck => simp
  | cons _ hvalue _ ih => simpa using ⟨hv _ _ _ hvalue, ih⟩

theorem FieldsLie.closed {fields : List (String × FieldType)}
    (h : FieldsLie layout scope fields before left final cells)
    (hv : ∀ field ∈ fields, ∀ scope left value cells,
      layout field.2 scope left value cells → none ∉ cells) : none ∉ cells := by
  induction h with
  | nil => simp
  | cons hvalue _ ih =>
    obtain ⟨htype, hfields⟩ := List.forall_mem_cons.mp hv
    simpa using ⟨htype _ _ _ _ hvalue, ih hfields⟩

namespace FieldType

theorem lies_closed {below : Option Layout} {codec : Codec}
    (hd : ∀ layout ∈ below, LiesClosed codec.definitions layout) :
    LiesClosed codec.definitions (Lies codec below) := by
  intro seen type hs scope left value cells hlies
  induction type using FieldType.induction generalizing scope left value cells with
  | int | float | text | bool | flags =>
    obtain ⟨_, _, rfl, _⟩ := hlies
    exact notMem_of _
  | id | reversedId =>
    obtain ⟨_, rfl, _⟩ := hlies
    exact notMem_of _
  | bytes =>
    obtain ⟨_, rfl, _⟩ := hlies
    exact notMem_of _
  | packed =>
    obtain ⟨_, _, _, rfl, _⟩ := hlies
    exact notMem_of _
  | const inner expected ih => exact ih (hs.part .const) _ _ _ _ hlies.1
  | enum repr variants ih =>
    obtain ⟨raw, hraw, rfl⟩ := hlies
    exact ih (hs.part .enum) _ _ _ _ hraw
  | record name fields =>
    obtain ⟨layout, hl, document, hfields, rfl⟩ := hlies
    refine hfields.closed fun field hf scope left value cells hv => ?_
    obtain ⟨_, hfield⟩ := hs.field hf
    exact hd layout hl _ _ hfield _ _ _ _ hv
  | array length element ih =>
    obtain ⟨items, rfl, ⟨_, hlie⟩ | ⟨_, hlie⟩⟩ := hlies
    · exact hlie.closed fun left value cells => ih (hs.part .element) _ _ _ _
    · exact hlie.closed fun left value cells => ih (hs.part .element) _ _ _ _
  | greedy element ih =>
    obtain ⟨items, rfl, hlie⟩ := hlies
    exact hlie.closed fun left value cells => ih (hs.part .greedy) _ _ _ _
  | sequence types ih =>
    obtain ⟨items, rfl, hlie⟩ := hlies
    have hpart : ∀ type ∈ types, Site.Everywhere codec.definitions Site.NoBlock ⟨seen, type⟩ :=
      fun type ht => hs.part (.item ht)
    clear hs
    induction types generalizing left items cells with
    | nil =>
      cases hlie.2
      simp
    | cons type types ihs =>
      obtain ⟨value, rest, first, others, rfl, rfl, hvalue, hrest⟩ := hlie
      simp only [List.forall_mem_cons] at ih hpart
      simpa using ⟨ih.1 hpart.1 _ _ _ _ hvalue, ihs ih.2 _ _ _ hrest hpart.2⟩
  | switch on cases default ihc ihd =>
    obtain ⟨discriminant, type, _, hp, hlies⟩ := switch_lies_iff.mp hlies
    rcases mem_of_pick? hp with ⟨case, hc, rfl⟩ | ht
    · exact ihc case hc (hs.part (.case hc)) _ _ _ _ hlies
    · exact ihd type ht (hs.part (.default ht)) _ _ _ _ hlies
  | conditional condition yes no ihy ihn =>
    obtain ⟨_, hlies⟩ | ⟨_, hlies⟩ := hlies
    · exact ihy (hs.part .yes) _ _ _ _ hlies
    · exact ihn (hs.part .no) _ _ _ _ hlies
  | select alternatives => exact hlies.elim
  | checked relation holds inner ih => exact ih (hs.part .checked) _ _ _ _ hlies.1
  | padded size inner => exact absurd rfl (hs.here size inner)
  | lazy slot =>
    obtain ⟨layout, hl, hlies⟩ := hlies
    exact hd layout hl _ _ (hs.part .lazy) _ _ _ _ hlies

theorem liesAt_closed (codec : Codec) (levels : Nat) :
    LiesClosed codec.definitions (LiesAt codec levels) := by
  induction levels with
  | zero => exact lies_closed nofun
  | succ levels ih =>
    refine lies_closed ?_
    rintro _ ⟨⟩
    exact ih

end FieldType

namespace Schema

theorem closed_of_lies {schema : Schema} (hs : schema.Everywhere Site.NoBlock)
    (h : schema.Lies options document cells) : none ∉ cells := by
  refine FieldsLie.closed h fun field hf scope left value cells hv => ?_
  obtain ⟨_, hfield⟩ := hs.field hf
  exact FieldType.liesAt_closed _ _ _ _ hfield _ _ _ _ hv

/-- Decoding and encoding again is exact but for the tails of blocks. The cells in
which the document lies are left open in these tails and nowhere else: there the
bytes written are zero, and any bytes decode to the document.

The functions of the schema keep their answers when fields are added to their scope. Those in
a constant, and those in what an enum is stored as, also answer alike for equal values. -/
theorem encode_of_decode {schema : Schema} (hn : schema.Everywhere Site.NoSelection)
    (hs : schema.Repeats) {options : CodecOptions} (ht : options.allowTrailing = false)
    (h : schema.decode options bytes = .ok document) :
    ∃ (cells : Cells) (written : Bytes), schema.Lies options document cells ∧
      cells.length = bytes.length ∧ schema.encode options document = .ok written ∧
      written.length = bytes.length ∧
      (∀ i : Nat, cells[i]? ≠ some none → written[i]? = bytes[i]?) ∧
      (∀ i : Nat, cells[i]? = some none → written[i]? = some 0) ∧
      (∀ other : Bytes, other.length = bytes.length →
        (∀ i : Nat, cells[i]? ≠ some none → other[i]? = bytes[i]?) →
          schema.decode options other = .ok document) ∧
      (schema.Everywhere Site.NoBlock → written = bytes) := by
  obtain ⟨cells, hlies, hmatch⟩ := (decode_ok_iff hn ht).mp h
  obtain ⟨hlen, hsame⟩ := hmatch.iff_of.mp cells.match_fill
  refine ⟨cells, cells.fill, hlies, hmatch.length, encode_of_lies hs hlies, hlen, hsame,
    fun i hi => Cells.fill_of_open hi, fun other hl ho => ?_, fun hb => ?_⟩
  · exact (decode_ok_iff hn ht).mpr ⟨cells, hlies, hmatch.iff_of.mpr ⟨hl, ho⟩⟩
  · exact (hmatch.eq_fill (closed_of_lies hb hlies)).symm

/-- A number of bytes and a block that they begin. -/
def countedBlock : Schema where
  name := "CountedBlock"
  fields := [("count", .int .u8 .little),
    ("block", .padded 4 (.array (.field ⟨0, ["count"]⟩) (.int .u8 .little)))]

theorem countedBlock_everywhere {P : Site → Prop}
    (hint : ∀ seen kind order, P ⟨seen, .int kind order⟩)
    (harray : P ⟨[["count"]], .array (.field ⟨0, ["count"]⟩) (.int .u8 .little)⟩)
    (hpadded : ∀ seen size inner, P ⟨seen, .padded size inner⟩) : countedBlock.Everywhere P := by
  have hleaf (seen : List (List String)) (kind : IntKind) (order : ByteOrder) :
      Site.Everywhere countedBlock.definitions P ⟨seen, .int kind order⟩ :=
    .intro (hint _ _ _) fun other hp => nomatch hp
  intro before field after heq
  obtain _ | ⟨_, _ | ⟨_, before⟩⟩ := before
  · cases heq
    exact hleaf _ _ _
  · cases heq
    refine .intro (hpadded _ _ _) ?_
    rintro _ ⟨⟩
    refine .intro harray ?_
    rintro _ ⟨⟩
    exact hleaf _ _ _
  · simp [countedBlock] at heq

theorem encode_of_decode_countedBlock :
    countedBlock.decode {} [2, 7, 8, 9, 9] =
        .ok ⟨[("count", .int 2), ("block", .array [.int 7, .int 8])]⟩ ∧
      ∃ written, countedBlock.encode {} ⟨[("count", .int 2), ("block", .array [.int 7, .int 8])]⟩ =
        .ok written ∧ written.length = 5 := by
  have hd : countedBlock.decode {} [2, 7, 8, 9, 9] =
      .ok ⟨[("count", .int 2), ("block", .array [.int 7, .int 8])]⟩ := rfl
  have hn : countedBlock.Everywhere Site.NoSelection :=
    countedBlock_everywhere nofun nofun nofun
  have hs : countedBlock.Repeats := by
    refine ⟨by decide, countedBlock_everywhere ?_ ?_ ?_⟩
    · exact fun _ _ _ => ⟨trivial, trivial, trivial⟩
    · exact ⟨trivial, trivial, trivial⟩
    · exact fun _ _ _ => ⟨trivial, trivial, trivial⟩
  obtain ⟨cells, written, -, -, hw, hlen, -⟩ := encode_of_decode hn hs rfl hd
  exact ⟨hd, written, hw, hlen⟩

/-- A flag, as a constant that is to have its name. -/
def namedFlag : Schema where
  name := "NamedFlag"
  fields := [("mark", .const (.checked "named" (fun value _ => match value with
      | .flags _ names => names == ["a"]
      | _ => false) (.flags ⟨.u8, .little, [("a", 1)]⟩)) (.flags 1 []))]

/-- The constant is written as the value that the schema has for it, which is equal to the one
that was read, and which its check refuses. -/
theorem namedFlag_refused :
    namedFlag.Everywhere Site.NoSelection ∧
      (namedFlag.Everywhere fun site => site.NamesDistinct ∧ site.type.Keeps) ∧
      namedFlag.decode {} [1] = .ok ⟨[("mark", .flags 1 ["a"])]⟩ ∧
      namedFlag.encode {} ⟨[("mark", .flags 1 ["a"])]⟩ =
        .error (.validation "mark" (.check "named")) := by
  have hsites {P : Site → Prop} (hconst : ∀ seen inner expected, P ⟨seen, .const inner expected⟩)
      (hchecked : P ⟨[[]], .checked "named" (fun value _ => match value with
        | .flags _ names => names == ["a"]
        | _ => false) (.flags ⟨.u8, .little, [("a", 1)]⟩)⟩)
      (hflags : ∀ seen set, P ⟨seen, .flags set⟩) : namedFlag.Everywhere P := by
    rintro (_ | ⟨_, before⟩) field after heq
    · cases heq
      refine .intro (hconst _ _ _) ?_
      rintro _ ⟨⟩
      refine .intro hchecked ?_
      rintro _ ⟨⟩
      exact .intro (hflags _ _) nofun
    · simp [namedFlag] at heq
  refine ⟨hsites nofun nofun nofun, hsites ?_ ?_ ?_, rfl, rfl⟩
  · exact fun _ _ _ => ⟨trivial, trivial⟩
  · exact ⟨trivial, fun _ _ _ _ h => h⟩
  · exact fun _ _ => ⟨trivial, trivial⟩

end Schema

end Mapsmith
