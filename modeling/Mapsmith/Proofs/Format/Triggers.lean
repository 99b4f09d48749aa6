import Mapsmith.Format.Triggers
import Mapsmith.Proofs.Format.Sites

/-!
# Triggers are taken back

`decode_of_encode_triggers`: a child block is read as a branch first. A branch has one field
more, so each is written as what it is. Read as a branch, the name of the function of a plain
block loses its first four bytes to the field that it does not have, and what is left of it
must be the name of a function again. If no two functions are called like that, blocks are
never taken for branches, however deep they lie.

What becomes of a table in which two functions are called like that is not said.
-/

namespace Mapsmith.Triggers

open Fields

def Knows (lookups : Lookups) (name : String) : Prop := (lookups.count? parameterCounts name).isSome

/-- No function is called what is left of the name of another one after its first four
bytes, and no name is shorter than that. -/
structure Unambiguous (lookups : Lookups) : Prop where
  long : ∀ name, Knows lookups name → 4 ≤ (Bytes.ofText name).length
  apart : ∀ name other, Knows lookups name → Knows lookups other →
    Bytes.ofText other ≠ (Bytes.ofText name).drop 4

/-- The rest of a name is no name. -/
theorem Unambiguous.ne_rest {lookups : Lookups} (h : Unambiguous lookups)
    (hname : Knows lookups name)
    (hother : Knows lookups other) (hzero : 0 ∉ Bytes.ofText name) (hzero' : 0 ∉ Bytes.ofText other)
    (hword : word.length = 4) : Bytes.ofText name ++ 0 :: rest ≠
      word ++ (Bytes.ofText other ++ 0 :: rest') := by
  intro heq
  -- Without their first four bytes both sides are a name up to its null byte.
  have hrest := congrArg (List.drop 4) heq
  rw [List.drop_append_of_le_length (h.long name hname), ← hword, List.drop_left, hword] at hrest
  have hdrop : 0 ∉ (Bytes.ofText name).drop 4 := fun hmem => hzero (List.mem_of_mem_drop hmem)
  have htext := (Decoder.takeWhile_ne_zero_iff.mpr ⟨hzero', hrest⟩).1
  rw [(Decoder.takeWhile_ne_zero_iff.mpr ⟨hdrop, rfl⟩).1] at htext
  exact h.apart name other hname hother htext.symm

-- ---------------------------------------------------------------------------
-- The fields of a block
-- ---------------------------------------------------------------------------

section

variable {codec : Codec} {levels : Nat} {start stop : Place} {scope : Scope}

theorem readAt_enumeration_run
    (h : FieldType.readAt codec levels (enumeration integer variants) scope start =
      .ok value stop) :
    ∃ word, word.length = 4 ∧ start.rest = word ++ stop.rest := by
  obtain ⟨_, taken, _, htakes, hmatch, raw, ⟨word, hlength, rfl, -⟩, -⟩ :=
    FieldType.readAt_plain_run (noSelection_enumeration [] variants) h
  obtain rfl := Cells.match_of.mp hmatch
  exact ⟨taken, hlength, htakes.rest⟩

theorem writeAt_enumeration_ok
    (h : FieldType.writeAt codec constantBytes levels path
      (enumeration integer variants) value scope = .ok written) :
    written.length = 4 := by
  obtain ⟨ctx, hctx, -⟩ := FieldType.exists_writeContext codec constantBytes levels
  rw [hctx, enumeration, WriteContext.write, integer, WriteContext.write] at h
  simp only [bind_ok, Codec.expect_ok, Codec.writeInt_ok] at h
  obtain ⟨n, -, -, -, rfl⟩ := h
  exact IntKind.length_encode _ _ _

def blockFields : List (String × FieldType) := ("type", blockType) :: blockBody

def branchTypes : FieldType := enumeration integer [("IF", 0), ("THEN", 1), ("ELSE", 2)]

def branchFields : List (String × FieldType) :=
  ("type", blockType) :: ("branch_type", branchTypes) :: blockBody

theorem functionName_eq : Reference.ofText "function_name" = ⟨0, ["function_name"]⟩ := rfl

theorem writeFields_block (hnames : scope.current.names = blockFields.map Prod.fst)
    (h : Codec.writeFields (FieldType.writeAt codec constantBytes levels) path scope blockFields =
      .ok written) :
    ∃ word name rest, word.length = 4 ∧ Knows scope.options.lookups name ∧ 0 ∉ Bytes.ofText name ∧
      written = word ++ (Bytes.ofText name ++ 0 :: rest) := by
  obtain ⟨-, parts, hparts, rfl⟩ := Codec.writeFields_ok.mp h
  simp only [blockFields, blockBody, List.forall₂_cons_left_iff] at hparts
  obtain ⟨word, _, htype,
      ⟨named, _, hname, ⟨enabled, _, -, ⟨parameters, rest, hparameters, -, rfl⟩, rfl⟩, rfl⟩,
    rfl⟩ := hparts
  obtain ⟨_, -, htype⟩ := htype.of_mem (by simp [hnames, blockFields])
  obtain ⟨function, hfunction, hname⟩ := hname.of_mem (by simp [hnames, blockFields, blockBody])
  obtain ⟨_, -, hparameters⟩ := hparameters.of_mem (by simp [hnames, blockFields, blockBody])
  obtain ⟨name, htext, hzero, rfl⟩ := FieldType.writeAt_text_ok hname
  obtain ⟨n, hasks⟩ := FieldType.writeAt_array_ok (by nofun) hparameters
  obtain ⟨key, hkey, hknown⟩ := Length.mem_of_asks hasks
  rw [functionName_eq, Scope.resolve_name hfunction] at hkey
  cases hkey
  rw [Length.keyText, htext] at hknown
  exact ⟨word, name, enabled ++ (parameters ++ rest.flatten), writeAt_enumeration_ok htype, hknown,
    hzero, by simp⟩

theorem readFields_branch
    (h : Decoder.readFields (FieldType.readAt codec levels) scope.child branchFields .empty start =
      .ok final stop) :
    ∃ word word' name rest, word.length = 4 ∧ word'.length = 4 ∧ Knows scope.options.lookups name ∧
      0 ∉ Bytes.ofText name ∧ start.rest = word ++ (word' ++ (Bytes.ofText name ++ 0 :: rest)) := by
  obtain ⟨type, _, _, _, htype, hstart, hnext, h⟩ := Decoder.readFields_cons_run h
  obtain ⟨kind, _, _, _, hkind, hstart', hnext', h⟩ := Decoder.readFields_cons_run h
  obtain ⟨function, _, _, _, hfunction, hstart'', hnext'', h⟩ := Decoder.readFields_cons_run h
  obtain ⟨enabled, _, _, _, -, -, -, h⟩ := Decoder.readFields_cons_run h
  obtain ⟨parameters, _, _, _, hparameters, -, -, -⟩ := Decoder.readFields_cons_run h
  obtain ⟨word, hword, hrest⟩ := readAt_enumeration_run htype
  obtain ⟨word', hword', hrest'⟩ := readAt_enumeration_run hkind
  obtain ⟨name, rfl, hzero, hrest''⟩ := FieldType.readAt_text_run hfunction
  obtain ⟨n, hasks⟩ := FieldType.readAt_array_run (by nofun) hparameters
  obtain ⟨key, hkey, hknown⟩ := Length.mem_of_asks hasks
  rw [functionName_eq, Scope.resolve_name rfl] at hkey
  cases hkey
  exact ⟨word, word', name, _, hword, hword', hknown, hzero,
    by rw [← hstart, hrest, hnext, ← hstart', hrest', hnext', ← hstart'', hrest'']⟩

-- ---------------------------------------------------------------------------
-- Blocks and branches
-- ---------------------------------------------------------------------------

variable {document : Document} {options : CodecOptions}

theorem not_writeAt_branch (hnames : document.names = blockFields.map Prod.fst) :
    FieldType.writeAt (schema.codec options) constantBytes levels path Part.branch.reference
    (.struct document) scope ≠ .ok written := by
  intro h
  obtain ⟨_, hbranch⟩ := FieldType.writeAt_lazy_ok h
  obtain ⟨_, _, ⟨⟩, hfields⟩ := FieldType.writeAt_record_ok hbranch
  have hmem : ("branch_type", branchTypes) ∈ branchFields := by simp [branchFields]
  have hmissing : document.get? "branch_type" = none := by
    rw [Document.get?_eq_none_iff, hnames]
    decide
  exact Codec.not_writeFields_of_missing hmem hmissing nofun hfields

theorem not_writeAt_block (hnames : document.names = branchFields.map Prod.fst) :
    FieldType.writeAt (schema.codec options) constantBytes levels path Part.block.reference
    (.struct document) scope ≠ .ok written := by
  intro h
  obtain ⟨_, hblock⟩ := FieldType.writeAt_lazy_ok h
  obtain ⟨_, _, ⟨⟩, hfields⟩ := FieldType.writeAt_record_ok hblock
  have hmem : "branch_type" ∈ document.names := by
    rw [hnames]
    decide
  exact absurd ((Codec.writeFields_ok.mp hfields).1 _ hmem) (by decide)

theorem child_settled (options : CodecOptions) : child.Settled (schema.codec options) := by
  refine List.pairwise_pair.mpr fun levels scope start value stop hread constantBytes path scope'
    written => ?_
  obtain ⟨_, hblock⟩ := FieldType.readAt_lazy_run hread
  obtain ⟨_, document, rfl, hfields⟩ := FieldType.readAt_record_run hblock
  exact not_writeAt_branch (Decoder.names_of_readFields (by decide) hfields)

/-- What is written of a plain block is not read as a branch. -/
theorem branch_overlooks_block (options : CodecOptions) (names : Names) :
    Part.branch.reference.Overlooks (schema.codec options)
    (fun _ => Unambiguous options.lookups) names
      Part.block.reference := by
  intro levels constantBytes path scope scope' value written hagree hoptions hkeys hform hwrite
    start rest hrest found stop hread
  obtain ⟨document, rfl, hnames, -⟩ := hform.of_lazy.of_record
  obtain ⟨_, hblock⟩ := FieldType.writeAt_lazy_ok hwrite
  obtain ⟨_, _, ⟨⟩, hwritten⟩ := FieldType.writeAt_record_ok hblock
  obtain ⟨_, hbranch⟩ := FieldType.readAt_lazy_run hread
  obtain ⟨_, _, -, hgiven⟩ := FieldType.readAt_record_run hbranch
  obtain ⟨word, name, tail, hword, hname, hzero, rfl⟩ := writeFields_block hnames hwritten
  obtain ⟨word', kind, name', tail', hword', hkind, hname', hzero', hstart⟩ :=
    readFields_branch hgiven
  have hother : scope'.options = options := hagree.options.symm.trans hoptions
  rw [hother] at hname'
  rw [Scope.child, hoptions] at hname
  -- The types of both take four bytes, and after them the branch takes four more before its name.
  rw [hrest, List.append_assoc, List.append_assoc, List.cons_append] at hstart
  obtain ⟨-, hstart⟩ := List.append_inj hstart (hword.trans hword'.symm)
  exact hkeys.ne_rest hname hname' hzero hzero' hkind hstart

theorem child_tells (options : CodecOptions) (seen : List (List String)) :
    Site.Tells (schema.codec options) (fun _ => Unambiguous options.lookups) ⟨seen, child⟩ := by
  rintro _ ⟨⟩
  refine List.pairwise_pair.mpr ⟨?_, ?_, branch_overlooks_block options _⟩
  · intro levels constantBytes path scope value written _ hform
    obtain ⟨document, rfl, hnames, -⟩ := hform.of_lazy.of_record
    exact not_writeAt_branch hnames
  · intro levels constantBytes path scope value written _ hform
    obtain ⟨document, rfl, hnames, -⟩ := hform.of_lazy.of_record
    exact not_writeAt_block hnames

end

-- ---------------------------------------------------------------------------
-- The sites of a file
-- ---------------------------------------------------------------------------

section

variable {codec : Codec} {admits : Value → Prop} {seen : List (List String)}

theorem saves_blockBody (names : List String) :
    Site.InsideFields codec.definitions (Site.Saves codec admits) seen names blockBody := by
  refine ⟨saves_leaf rfl, saves_leaf rfl, saves_array nofun trivial ⟨?_, nofun⟩ (saves_lazy _),
    saves_leaf rfl, saves_counted rfl (by simp) (saves_lazy _), trivial⟩
  rintro _ (_ | ⟨_, ⟨⟩⟩) name hname
  rw [functionName_eq] at hname ⊢
  cases hname
  exact ⟨_, rfl, by simp⟩

theorem saves_block : Site.Inside codec.definitions (Site.Saves codec admits) ⟨seen, block⟩ :=
  saves_record (by decide) ⟨saves_enumeration (by decide), saves_blockBody _⟩

theorem saves_branch : Site.Inside codec.definitions (Site.Saves codec admits) ⟨seen, branch⟩ :=
  saves_record (by decide) ⟨saves_enumeration (by decide), saves_enumeration (by decide),
    saves_blockBody _⟩

theorem saves_parameter : Site.Inside codec.definitions
    (Site.Saves codec admits) ⟨seen, parameter⟩ :=
  saves_record (by decide) ⟨saves_enumeration (by decide), saves_leaf rfl, saves_leaf rfl,
    saves_counted rfl (by decide) (saves_lazy _), saves_leaf rfl,
    saves_counted rfl (by decide) (saves_lazy _), trivial⟩

theorem saves_child (options : CodecOptions) : Site.Inside (schema.codec options).definitions
    (Site.Saves (schema.codec options) fun _ => Unambiguous options.lookups) ⟨seen, child⟩ := by
  refine saves_select (child_settled options) (child_tells options _) fun type htype => ?_
  obtain rfl | rfl := List.mem_pair.mp htype
  · exact saves_lazy _
  · exact saves_lazy _

end

theorem everywhere_saves (options : CodecOptions) :
    schema.Everywhere (Site.Saves (schema.codec options) fun _ => Unambiguous options.lookups) := by
  refine Schema.everywhere_of_inside options (fun slot seen => ?_) ?_
  · match slot with
    | 0 => exact saves_parameter
    | 1 => exact saves_block
    | 2 => exact saves_branch
    | _ + 3 => exact saves_child options
  · refine ⟨saves_magic _, saves_leaf rfl, saves_leaf rfl,
      saves_counted rfl (by decide) (saves_record (by decide) (saves_leaves [] (by decide))),
      saves_leaf rfl, saves_leaf rfl,
      saves_counted rfl (by decide) (saves_record (by decide) (saves_leaves [] (by decide))),
      saves_leaf rfl, saves_counted rfl (by decide) (saves_record (by decide) ?_), trivial⟩
    exact ⟨saves_leaf rfl, saves_leaf rfl, saves_leaf rfl, saves_leaf rfl, saves_leaf rfl,
      saves_leaf rfl,
      saves_leaf rfl, saves_leaf rfl, saves_leaf rfl, saves_counted rfl (by decide) (saves_lazy _),
        trivial⟩

theorem names_nodup : (schema.fields.map Prod.fst).Nodup := by decide

theorem retakes (options : CodecOptions) : schema.Retakes options :=
  ⟨names_nodup, fun _ _ _ heq => (everywhere_saves options _ _ _ heq).mono fun _ h => h.retakes⟩

theorem regains (options : CodecOptions) :
    schema.Regains options fun _ => Unambiguous options.lookups :=
  ⟨names_nodup, fun _ _ _ heq => (everywhere_saves options _ _ _ heq).mono fun _ h => h.regains⟩

/-- Functions with no parameters and with one. -/
def someFunctions : CodecOptions where
  lookups := [(parameterCounts, [("DoNothing", 0), ("DisplayText", 1)])]

theorem unambiguous_someFunctions : Unambiguous someFunctions.lookups := by
  have hknows (name : String) (h : Knows someFunctions.lookups name) :
      name = "DoNothing" ∨ name = "DisplayText" := by
    by_contra hne
    rw [not_or] at hne
    simp [Knows, Lookups.count?, someFunctions, List.lookup_cons, beq_eq_false_iff_ne.mpr hne.1,
      beq_eq_false_iff_ne.mpr hne.2] at h
  refine ⟨fun name hname => ?_, fun name other hname hother => ?_⟩
  · obtain rfl | rfl := hknows name hname <;> decide
  · obtain rfl | rfl := hknows name hname <;> obtain rfl | rfl := hknows other hother <;> decide

/-- The values of a block from its function on. -/
def bodyOf (name : String) (parameters children : List Value) : List (String × Value) :=
  [("function_name", .str name), ("is_function_enabled", .int 1), ("parameters", .array parameters),
    ("child_blocks_count", .int (Int64.ofNat children.length)), ("child_blocks", .array children)]

/-- One trigger with a block that has a branch and a plain block as its children. -/
def nestedBlocks : Document :=
  let action : Value := .enum (some "ACTION") (.int 2)
  let nothing : List (String × Value) := bodyOf "DoNothing" [] []
  let text : Value := .struct ⟨[("type", .enum (some "PRESET") (.int 0)), ("value", .str "x"),
    ("functions_count", .int 0), ("functions", .array []), ("array_indices_count", .int 0),
    ("array_indices", .array [])]⟩
  let branch : Value :=
    .struct ⟨("type", action) :: ("branch_type", .enum (some "THEN") (.int 1)) :: nothing⟩
  let plain : Value := .struct ⟨("type", action) :: nothing⟩
  let trigger : Value :=
    .struct ⟨[("name", .str "Setup"), ("description", .str ""), ("is_comment", .int 0),
      ("is_enabled", .int 1), ("is_custom_text_trigger", .int 0), ("is_turned_off", .int 0),
      ("is_init", .int 0), ("category_index", .int 0), ("blocks_count", .int 1),
      ("blocks",
        .array [.struct ⟨("type", action) :: bodyOf "DisplayText" [text] [branch, plain]⟩])]⟩
  ⟨[("file_id", .bytes magic), ("version", .int 7), ("trigger_categories_count", .int 0),
    ("trigger_categories", .array []), ("unknown_field_1", .int 2),
    ("trigger_variables_count", .int 0), ("trigger_variables", .array []),
    ("triggers_count", .int 1), ("triggers", .array [trigger])]⟩

theorem formed_bodyOf {scope : Scope}
    (hp : ∀ item ∈ parameters, FieldType.Formed definitions admits parameter scope item)
    (hc : ∀ item ∈ children, FieldType.Formed definitions admits child scope item) :
    List.Forall₂ (fun field entry => field.1 = entry.1 ∧
      FieldType.Formed definitions admits field.2 scope entry.2)
      blockBody (bodyOf name parameters children) :=
  .cons ⟨rfl, .plain .text⟩ (.cons ⟨rfl, .plain .int⟩
    (.cons ⟨rfl, .array fun item hi => .lazy (hp item hi)⟩ (.cons ⟨rfl, .plain .int⟩
      (.cons ⟨rfl, .array fun item hi => .lazy (hc item hi)⟩ .nil))))

theorem formed_nestedBlocks : schema.Formed someFunctions (fun _ => True) nestedBlocks := by
  refine .of_entries names_nodup (.cons ⟨rfl, .plain (.const .bytes)⟩ (.cons ⟨rfl, .plain .int⟩
    (.cons ⟨rfl, .plain .int⟩ (.cons ⟨rfl, .array nofun⟩ (.cons ⟨rfl, .plain .int⟩
    (.cons ⟨rfl, .plain .int⟩ (.cons ⟨rfl, .array nofun⟩ (.cons ⟨rfl, .plain .int⟩
    (.cons ⟨rfl, .array (List.forall_mem_singleton.mpr ?_)⟩ .nil)))))))))
  refine .of_entries (by decide) (.cons ⟨rfl, .plain .text⟩ (.cons ⟨rfl, .plain .text⟩
    (.cons ⟨rfl, .plain .int⟩ (.cons ⟨rfl, .plain .int⟩ (.cons ⟨rfl, .plain .int⟩
    (.cons ⟨rfl, .plain .int⟩ (.cons ⟨rfl, .plain .int⟩ (.cons ⟨rfl, .plain .int⟩
    (.cons ⟨rfl, .plain .int⟩ (.cons ⟨rfl, .array (List.forall_mem_singleton.mpr (.lazy ?_))⟩ .nil))))))))))
  refine .of_entries (by decide) (.cons ⟨rfl, .enum rfl .int⟩ (formed_bodyOf ?_ ?_))
  · refine List.forall_mem_singleton.mpr (.of_entries (by decide) ?_)
    exact .cons ⟨rfl, .enum rfl .int⟩ (.cons ⟨rfl, .plain .text⟩ (.cons ⟨rfl, .plain .int⟩
      (.cons ⟨rfl, .array nofun⟩ (.cons ⟨rfl, .plain .int⟩ (.cons ⟨rfl, .array nofun⟩ .nil)))))
  · refine List.forall_mem_cons.mpr
      ⟨.select List.mem_cons_self trivial (.lazy (.of_entries (by decide) ?_)),
        List.forall_mem_singleton.mpr
          (.select (List.mem_cons_of_mem _ List.mem_cons_self) trivial
            (.lazy (.of_entries (by decide) ?_)))⟩
    · exact .cons ⟨rfl, .enum rfl .int⟩ (.cons ⟨rfl, .enum rfl .int⟩ (formed_bodyOf nofun nofun))
    · exact .cons ⟨rfl, .enum rfl .int⟩ (formed_bodyOf nofun nofun)

/-- What is saved of triggers reads back as the same triggers, if the names of the functions
are not ambiguous: at no depth is a plain block taken for a branch. -/
theorem decode_of_encode_triggers (hkeys : Unambiguous options.lookups)
    (hd : schema.Formed options (fun _ => True) document)
    (h : schema.encode options document = .ok bytes) :
    ∃ found, schema.decode options bytes = .ok found ∧ found == document :=
  (regains options).decode (hd.mono fun _ _ => hkeys) h

theorem decode_of_encode_nestedBlocks :
    ∃ bytes, schema.encode someFunctions nestedBlocks = .ok bytes ∧
    ∃ found, schema.decode someFunctions bytes = .ok found ∧ found == nestedBlocks := by
  obtain ⟨bytes, h⟩ : ∃ bytes, schema.encode someFunctions nestedBlocks = .ok bytes := ⟨_, rfl⟩
  exact ⟨bytes, h, decode_of_encode_triggers unambiguous_someFunctions formed_nestedBlocks h⟩

end Mapsmith.Triggers
