import Mapsmith.Format.Objects
import Mapsmith.Proofs.Format.Sites

/-!
# Object data are taken back

`layout_of_encode`: a modification names the object that it belongs to, or zero. Neither is
ever taken for the other, apart from the identifier of four null bytes, which is written as the
zero is. So each layout is taken back in both directions. Whether a file was written in the
plain layout cannot always be told from its bytes: a text may hold all that reads as the
columns of a variation.
-/

namespace Mapsmith.Objects

open Fields

-- ---------------------------------------------------------------------------
-- The object around a modification
-- ---------------------------------------------------------------------------

/-- The fields that a modification looks at in the object around it. -/
def objectIds : List String := ["new_object_id", "original_object_id"]

theorem namesEnclosingObject_iff : namesEnclosingObject value scope = true ↔
    ∃ name ∈ objectIds, ∃ found, scope.resolve ⟨1, [name]⟩ = .ok found ∧
      (found == value) = true := by
  have hnew : Reference.ofText "_.new_object_id" = ⟨1, ["new_object_id"]⟩ := rfl
  have horiginal : Reference.ofText "_.original_object_id" = ⟨1, ["original_object_id"]⟩ := rfl
  rw [namesEnclosingObject, List.any_eq_true]
  simp only [objectIds, List.mem_cons, List.not_mem_nil, or_false, exists_eq_or_imp, exists_eq_left,
    hnew, horiginal]
  refine or_congr ?_ ?_
  · cases scope.resolve ⟨1, ["new_object_id"]⟩ <;> simp
  · cases scope.resolve ⟨1, ["original_object_id"]⟩ <;> simp

theorem namesEnclosingObject_keeps {scope scope' : Scope} (h : scope.GrowsTo scope')
    (hv : namesEnclosingObject value scope = true) : namesEnclosingObject value scope' = true := by
  obtain ⟨name, hname, found, hfound, heq⟩ := namesEnclosingObject_iff.mp hv
  exact namesEnclosingObject_iff.mpr ⟨name, hname, found, h.resolve hfound, heq⟩

theorem namesEnclosingObject_looks {scope scope' : Scope}
    (hnames : ∀ name ∈ objectIds, names 1 name)
    (h : scope.Agree names scope') (hsame : value.Same value')
    (hv : namesEnclosingObject value scope = true) : namesEnclosingObject value' scope' = true := by
  obtain ⟨name, hname, found, hfound, heq⟩ := namesEnclosingObject_iff.mp hv
  have hstarts : Reference.StartsIn names ⟨1, [name]⟩ := by
    rintro _ ⟨⟩
    exact hnames name hname
  obtain ⟨found', hfound', hsame'⟩ := h.resolve hstarts hfound
  refine namesEnclosingObject_iff.mpr ⟨name, hname, found', hfound', ?_⟩
  exact Value.beq_trans hsame'.symm.beq (Value.beq_trans heq hsame.beq)

-- ---------------------------------------------------------------------------
-- Zero or an identifier
-- ---------------------------------------------------------------------------

/-- The value is not the identifier of four null bytes, which is written as the zero is. -/
def NotNullId (value : Value) : Prop := value ≠ .id ⟨0, 0, 0, 0⟩

def noParent : FieldType := .const integer (.int 0)

def someParent : FieldType :=
  .checked "must equal the enclosing object's new or original id" namesEnclosingObject .id

section

variable {codec : Codec} {admits : Value → Prop} {seen : List (List String)} {levels : Nat}

theorem everywhere_noParent (codec : Codec) (seen : List (List String)) :
    Site.Everywhere codec.definitions Site.NoSelection ⟨seen, noParent⟩ := by
  refine .intro nofun ?_
  rintro _ ⟨⟩
  exact noSelection_leaf rfl

theorem everywhere_someParent (codec : Codec) (seen : List (List String)) :
    Site.Everywhere codec.definitions Site.NoSelection ⟨seen, someParent⟩ := by
  refine .intro nofun ?_
  rintro _ ⟨⟩
  exact noSelection_leaf rfl

theorem not_writeAt_noParent (code : FourCC) :
    FieldType.writeAt codec constantBytes levels path noParent (.id code) scope ≠ .ok written := by
  obtain ⟨ctx, hctx, -⟩ := FieldType.exists_writeContext codec constantBytes levels
  rw [hctx]
  exact nofun

theorem writeAt_someParent_ok
    (h : FieldType.writeAt codec constantBytes levels path someParent value scope = .ok written) :
    ∃ code, value.asId? = some code ∧ written = code.bytes := by
  obtain ⟨ctx, hctx, -⟩ := FieldType.exists_writeContext codec constantBytes levels
  rw [hctx, someParent, WriteContext.write] at h
  split at h
  · simp only [WriteContext.write, bind_ok, Codec.expect_ok, pure_ok] at h
    obtain ⟨code, hcode, rfl⟩ := h
    exact ⟨code, hcode, rfl⟩
  · cases h

theorem readAt_someParent_run
    (h : FieldType.readAt codec levels someParent scope start = .ok value stop) :
    ∃ code, value = .id code := by
  obtain ⟨_, _, _, -, -, ⟨code, -, rfl⟩, -⟩ :=
    FieldType.readAt_plain_run (everywhere_someParent codec []) h
  exact ⟨code, rfl⟩

theorem exists_id_of_formed {scope : Scope} {value : Value}
    (h : FieldType.Formed codec.definitions admits someParent scope value) :
    ∃ code, value = .id code := by
  cases h.decoded (everywhere_someParent codec []) with
  | checked h =>
    cases h
    exact ⟨_, rfl⟩

theorem readAt_noParent_run
    (h : FieldType.readAt codec levels noParent scope start = .ok value stop) :
    start.Takes [0, 0, 0, 0] stop := by
  obtain ⟨_, taken, _, htakes, hmatch, ⟨word, hlength, rfl, rfl⟩, heq⟩ :=
    FieldType.readAt_plain_run (everywhere_noParent codec []) h
  obtain rfl := Cells.match_of.mp hmatch
  have hzero : 0 = Int64.ofInt (IntKind.i32.decode .little taken) := by
    simpa using Value.int_beq_iff.mp heq
  have hdecode : IntKind.i32.decode .little taken = 0 := by
    rw [← IntKind.toInt_ofInt_decode .i32 .little hlength, ← hzero]
    rfl
  have hword : taken = [0, 0, 0, 0] := by
    rw [← IntKind.i32.encode_decode .little hlength, hdecode]
    rfl
  rwa [hword] at htakes

theorem parentObjectId_settled (codec : Codec) : parentObjectId.Settled codec := by
  refine List.pairwise_pair.mpr fun levels scope start value stop hread constantBytes path scope'
    written => ?_
  obtain ⟨code, rfl⟩ := readAt_someParent_run hread
  exact not_writeAt_noParent code

/-- Zero is no identifier, and an identifier but the null one is not read as zero. -/
theorem parentObjectId_tells (codec : Codec) (seen : List (List String)) :
    Site.Tells codec NotNullId ⟨seen, parentObjectId⟩ := by
  rintro _ ⟨⟩
  refine List.pairwise_pair.mpr ⟨?_, ?_, ?_⟩
  · intro levels constantBytes path scope value written _ hform
    obtain ⟨code, rfl⟩ := exists_id_of_formed hform
    exact not_writeAt_noParent code
  · intro levels constantBytes path scope value written _ hform hwrite
    obtain ⟨code, hcode, -⟩ := writeAt_someParent_ok hwrite
    cases hform.decoded (everywhere_noParent codec []) with
    | const h =>
      cases h
      cases hcode
  · intro levels constantBytes path scope scope' value written _ _ hadmits hform hwrite
      start rest hrest found stop hread
    obtain ⟨code, rfl⟩ := exists_id_of_formed hform
    obtain ⟨_, ⟨⟩, rfl⟩ := writeAt_someParent_ok hwrite
    have htakes := (readAt_noParent_run hread).rest
    rw [hrest] at htakes
    obtain ⟨a, b, c, d⟩ := code
    cases htakes
    exact hadmits rfl

-- ---------------------------------------------------------------------------
-- The sites of a file
-- ---------------------------------------------------------------------------

theorem saves_noParent : Site.Inside codec.definitions
    (Site.Saves codec admits) ⟨seen, noParent⟩ := by
  have halike : Site.Everywhere codec.definitions Site.Alike ⟨seen, integer⟩ :=
    everywhere_leaf ⟨trivial, trivial⟩ nofun
  have hreturns : Site.Avoids .halt (FieldType.constantBytes codec) ⟨seen, noParent⟩ := by
    refine Site.avoids_halt nofun ?_
    rintro _ _ ⟨⟩
    exact FieldType.constantBytes_ne_none seen (everywhere_leaf ⟨nofun, nofun⟩ nofun)
  refine .intro (.plain (everywhere_noParent codec seen) nofun ⟨trivial, trivial, halike⟩
    ⟨trivial, trivial, trivial, .int 0⟩ hreturns) ?_
  rintro _ ⟨⟩ -
  exact saves_leaf rfl

theorem saves_someParent {names ids : List String} (hids : ∀ name ∈ objectIds, name ∈ ids) :
    Site.Inside codec.definitions (Site.Saves codec admits) ⟨names :: ids :: seen, someParent⟩ := by
  have hlooks : someParent.LooksAt (Site.names ⟨names :: ids :: seen, someParent⟩) :=
    fun _ _ hagree _ _ hsame =>
      namesEnclosingObject_looks (fun name hname => ⟨ids, rfl, hids name hname⟩) hagree hsame
  refine .intro (.plain (everywhere_someParent codec _) nofun
    ⟨trivial, fun _ _ hgrows _ => namesEnclosingObject_keeps hgrows, trivial⟩
    ⟨trivial, trivial, hlooks, trivial⟩ (Site.avoids_halt nofun nofun)) ?_
  rintro _ ⟨⟩ -
  exact saves_leaf rfl

theorem saves_parentObjectId {names ids : List String} (hids : ∀ name ∈ objectIds, name ∈ ids) :
    Site.Inside codec.definitions (Site.Saves codec NotNullId)
      ⟨names :: ids :: seen, parentObjectId⟩ := by
  refine saves_select (parentObjectId_settled codec)
    (parentObjectId_tells codec _) fun type htype => ?_
  obtain rfl | rfl := List.mem_pair.mp htype
  · exact saves_noParent
  · exact saves_someParent hids

theorem saves_modificationValue {names : List String} (hmem : "variable_type" ∈ names) :
    Site.Inside codec.definitions (Site.Saves codec admits) ⟨names :: seen, modificationValue⟩ := by
  have hon : Reference.ofText "variable_type" = ⟨0, ["variable_type"]⟩ := rfl
  refine saves_switch ?_ ?_
  · rw [hon]
    rintro _ ⟨⟩
    exact ⟨names, rfl, hmem⟩
  · simp only [List.forall_mem_cons]
    exact ⟨⟨noSelection_leaf rfl, saves_leaf rfl⟩, ⟨noSelection_leaf rfl, saves_leaf rfl⟩,
      ⟨noSelection_leaf rfl, saves_leaf rfl⟩, ⟨noSelection_leaf rfl, saves_leaf rfl⟩, nofun⟩

theorem saves_modification (layout : ObjectLayout) {ids : List String}
    (hids : ∀ name ∈ objectIds, name ∈ ids) :
    Site.Inside codec.definitions (Site.Saves codec NotNullId)
      ⟨ids :: seen, modification layout⟩ := by
  cases layout with
  | plain =>
    exact saves_record (by decide) ⟨saves_leaf rfl, saves_enumeration (by decide),
      saves_modificationValue (by decide), saves_parentObjectId hids, trivial⟩
  | withVariations =>
    exact saves_record (by decide) ⟨saves_leaf rfl, saves_enumeration (by decide), saves_leaf rfl,
      saves_enumeration (by decide), saves_modificationValue (by decide), saves_parentObjectId hids,
        trivial⟩

theorem saves_table (layout : ObjectLayout) :
    Site.Inside codec.definitions (Site.Saves codec NotNullId) ⟨seen, table layout⟩ := by
  refine saves_record (by simp) ⟨saves_leaf rfl,
    saves_counted rfl (by decide) (saves_record (by simp) ?_), trivial⟩
  exact ⟨saves_leaf rfl, saves_leaf rfl, saves_leaf rfl,
    saves_counted rfl (by decide) (saves_modification layout (by decide)), trivial⟩

end

theorem everywhere_saves (layout : ObjectLayout) (options : CodecOptions) :
    (schema layout).Everywhere (Site.Saves ((schema layout).codec options) NotNullId) := by
  refine Schema.everywhere_of_inside options (fun _ _ => saves_nothing) ?_
  exact ⟨saves_leaf rfl, saves_table layout, saves_table layout, trivial⟩

theorem names_nodup (layout : ObjectLayout) : ((schema layout).fields.map Prod.fst).Nodup := by
  simp [schema]

theorem retakes (layout : ObjectLayout) (options : CodecOptions) :
    (schema layout).Retakes options :=
  ⟨names_nodup layout, fun _ _ _ heq => (everywhere_saves layout options _ _ _ heq).mono fun _ h =>
    h.retakes⟩

theorem regains (layout : ObjectLayout) (options : CodecOptions) :
    (schema layout).Regains options NotNullId :=
  ⟨names_nodup layout, fun _ _ _ heq => (everywhere_saves layout options _ _ _ heq).mono fun _ h =>
    h.regains⟩

-- ---------------------------------------------------------------------------
-- Telling the layouts apart
-- ---------------------------------------------------------------------------

theorem decode_returns (layout : ObjectLayout) (options : CodecOptions) (bytes : Bytes) :
    Avoids .halt ((schema layout).decode options bytes) :=
  Schema.avoids_decode (fun _ _ _ heq => (everywhere_saves layout options _ _ _ heq).mono
    fun _ h => h.retakes.returns) bytes

theorem decode_ok : decode bytes = .ok (layout, document) ↔
    layout = .withVariations ∧ (schema .withVariations).decode {} bytes = .ok document ∨
      layout = .plain ∧ (∀ other, (schema .withVariations).decode {} bytes ≠ .ok other) ∧
        (schema .plain).decode {} bytes = .ok document := by
  simp only [decode, bind_ok, pure_ok, Schema.decodeFirst, Schema.decodeFirst.go]
  cases hv : (schema .withVariations).decode {} bytes with
  | ok other => simp [eq_comm]
  | error error =>
    simp only [(decode_returns _ _ _).halts hv]
    cases hp : (schema .plain).decode {} bytes with
    | ok other => simp [eq_comm]
    | error error => simp [(decode_returns _ _ _).halts hp]

/-- A file in the plain layout with one new object, in which a text is changed. -/
def oneText (text : String) : Document :=
  ⟨[("version", .int 2),
    ("original_objects_table", .struct ⟨[("objects_count", .int 0), ("objects", .array [])]⟩),
    ("custom_objects_table", .struct ⟨[("objects_count", .int 1), ("objects", .array
      [.struct ⟨[("original_object_id", .id ⟨0x68, 0x66, 0x6f, 0x6f⟩),
        ("new_object_id", .id ⟨0x68, 0x30, 0x30, 0x30⟩), ("modifications_count", .int 1),
        ("modifications", .array [.struct ⟨[("modification_id", .id ⟨0x75, 0x6e, 0x61, 0x6d⟩),
          ("variable_type", .enum (some "STRING") (.int 3)), ("value", .str text),
          ("parent_object_id", .int 0)]⟩])]⟩])]⟩)]⟩

theorem formed_oneText (text : String) : (schema .plain).Formed {} NotNullId (oneText text) := by
  refine .of_entries (names_nodup _)
    (.cons ⟨rfl, .plain .int⟩ (.cons ⟨rfl, ?_⟩ (.cons ⟨rfl, ?_⟩ .nil)))
  · exact .of_entries (by decide) (.cons ⟨rfl, .plain .int⟩ (.cons ⟨rfl, .array nofun⟩ .nil))
  · refine .of_entries (by decide) (.cons ⟨rfl, .plain .int⟩
      (.cons ⟨rfl, .array (List.forall_mem_singleton.mpr ?_)⟩ .nil))
    refine .of_entries (by decide) (.cons ⟨rfl, .plain .id⟩ (.cons ⟨rfl, .plain .id⟩
      (.cons ⟨rfl, .plain .int⟩ (.cons ⟨rfl, .array (List.forall_mem_singleton.mpr ?_)⟩ .nil))))
    refine .of_entries (by decide) (.cons ⟨rfl, .plain .id⟩ (.cons ⟨rfl, .enum rfl .int⟩
      (.cons ⟨rfl, .plain (.switch rfl rfl .text)⟩ (.cons ⟨rfl, ?_⟩ .nil))))
    exact .select List.mem_cons_self nofun (.plain (.const .int))

/-- What is encoded in a layout reads back as it was, and the layout is found again, unless
it is the plain one and the bytes fit the layout with variations too: then these are given,
and they are encoded as the same bytes. -/
theorem layout_of_encode (hd : (schema layout).Formed {} NotNullId document)
    (h : encode layout document = .ok bytes) :
    ∃ found, (schema layout).decode {} bytes = .ok found ∧ found == document ∧
      (decode bytes = .ok (layout, found) ∨ layout = .plain ∧ ∃ other,
        decode bytes = .ok (.withVariations, other) ∧
          encode .withVariations other = .ok bytes) := by
  obtain ⟨found, hfound, heq⟩ := (regains layout {}).decode hd h
  refine ⟨found, hfound, heq, ?_⟩
  cases layout with
  | withVariations => exact .inl (decode_ok.mpr (.inl ⟨rfl, hfound⟩))
  | plain =>
    by_cases hother : ∃ other, (schema .withVariations).decode {} bytes = .ok other
    · obtain ⟨other, hother⟩ := hother
      exact .inr ⟨rfl, other, decode_ok.mpr (.inl ⟨rfl, hother⟩), (retakes _ _).encode rfl hother⟩
    · exact .inl (decode_ok.mpr (.inr ⟨rfl, not_exists.mp hother, hfound⟩))

theorem layout_of_encode_captain :
    ∃ bytes, encode .plain (oneText "Captain") = .ok bytes ∧ ∃ found,
      decode bytes = .ok (.plain, found) ∧ found == oneText "Captain" := by
  have h : encode .plain (oneText "Captain") =
      .ok [2, 0, 0, 0, 0, 0, 0, 0, 1, 0, 0, 0, 104, 102, 111, 111, 104, 48, 48, 48, 1, 0, 0, 0,
        117, 110, 97, 109, 3, 0, 0, 0, 67, 97, 112, 116, 97, 105, 110, 0, 0, 0, 0, 0] := rfl
  obtain ⟨found, -, heq, hplain | ⟨-, other, hother, -⟩⟩ := layout_of_encode (formed_oneText _) h
  · exact ⟨_, h, found, hplain, heq⟩
  · cases hother

/-- A text of eight characters is read as a variation and a column before an empty text. -/
theorem oneText_with_variations :
    (schema .plain).Formed {} NotNullId (oneText "abcdefgh") ∧ ∃ bytes,
      encode .plain (oneText "abcdefgh") = .ok bytes ∧
        (∃ other, decode bytes = .ok (.withVariations, other)) ∧
        ∀ found, decode bytes ≠ .ok (.plain, found) := by
  have h : encode .plain (oneText "abcdefgh") =
      .ok [2, 0, 0, 0, 0, 0, 0, 0, 1, 0, 0, 0, 104, 102, 111, 111, 104, 48, 48, 48, 1, 0, 0, 0,
        117, 110, 97, 109, 3, 0, 0, 0, 97, 98, 99, 100, 101, 102, 103, 104, 0, 0, 0, 0, 0] := rfl
  exact ⟨formed_oneText _, _, h, ⟨_, rfl⟩, nofun⟩

end Mapsmith.Objects
