import Mapsmith.Format.Fields
import Mapsmith.Proofs.Schema.Recovery

/-!
# Sites of map files

`saves_record`, `saves_select` and others: that a site is one where both codecs take each other
back is a matter of the types that the formats are built of. Types that recur through lazy
fields are settled each by itself.
-/

namespace Mapsmith

theorem Schema.everywhere_of_inside {schema : Schema} {P : Site → Prop} (options : CodecOptions)
    (hd : ∀ slot seen, Site.Inside (schema.codec options).definitions P
      ⟨seen, schema.definitions slot⟩)
    (hf : Site.InsideFields (schema.codec options).definitions P [] [] schema.fields) :
    schema.Everywhere P :=
  fun _ _ _ heq => (hf.field heq).everywhere hd

-- ---------------------------------------------------------------------------
-- Sites where the codecs take each other back
-- ---------------------------------------------------------------------------

structure Site.Saves (codec : Codec) (admits : Value → Prop) (site : Site) : Prop where
  retakes : site.Retakes codec
  regains : site.Regains codec admits

theorem Site.Saves.plain {codec : Codec} {admits : Value → Prop} {site : Site}
    (hn : Site.Everywhere codec.definitions Site.NoSelection site) (hb : site.NoBlock)
    (hr : site.Repeats codec.definitions) (hs : site.Recovers)
    (hreturns : site.Avoids .halt (FieldType.constantBytes codec)) :
    site.Saves codec admits := by
  have hsettled : site.type.Settled codec := by
    have hhere := hn.here
    unfold Site.NoSelection at hhere
    cases h : site.type with
    | select alternatives => exact absurd h (hhere alternatives)
    | _ => trivial
  exact ⟨⟨hr, hb, hsettled, hreturns⟩,
    ⟨fun _ => hs.recoverable, hs.names, hs.looks, hs.values, hreturns,
      .inl hn, fun alternatives h => absurd h (hn.here alternatives)⟩⟩

section

variable {codec : Codec} {admits : Value → Prop} {seen : List (List String)}

theorem everywhere_leaf {definitions : Nat → FieldType} {P : Site → Prop} {site : Site} (h : P site)
    (hnone : ∀ other, ¬Site.Part definitions site other) : Site.Everywhere definitions P site :=
  .intro h fun other hp => absurd hp (hnone other)

/-- Whether the values of the type have no parts and refer to nothing. -/
def FieldType.isLeaf : FieldType → Bool
  | .int .. | .float _ | .text | .id => true
  | _ => false

theorem not_part_of_isLeaf {definitions : Nat → FieldType} {type : FieldType}
    (h : type.isLeaf = true) (other : Site) : ¬Site.Part definitions ⟨seen, type⟩ other := by
  intro hpart
  cases hpart <;> cases h

theorem noSelection_leaf {definitions : Nat → FieldType} {type : FieldType}
    (h : type.isLeaf = true) :
    Site.Everywhere definitions Site.NoSelection ⟨seen, type⟩ := by
  refine everywhere_leaf ?_ (not_part_of_isLeaf h)
  rintro _ rfl
  cases h

theorem saves_leaf {type : FieldType} (h : type.isLeaf = true) :
    Site.Inside codec.definitions (Site.Saves codec admits) ⟨seen, type⟩ := by
  cases type with
  | int | float | text | id =>
    exact .intro (.plain (noSelection_leaf rfl) nofun ⟨trivial, trivial, trivial⟩
      ⟨trivial, trivial, trivial, trivial⟩ (Site.avoids_halt nofun nofun)) nofun
  | _ => cases h

theorem saves_leaves {fields : List (String × FieldType)} (names : List String)
    (h : ∀ field ∈ fields, field.2.isLeaf = true) :
    Site.InsideFields codec.definitions (Site.Saves codec admits) seen names fields := by
  induction fields generalizing names with
  | nil => trivial
  | cons field fields ih =>
    obtain ⟨hfield, hfields⟩ := List.forall_mem_cons.mp h
    exact ⟨saves_leaf hfield, ih _ hfields⟩

/-- What an unused definition stands for. -/
theorem saves_nothing : Site.Inside codec.definitions
    (Site.Saves codec admits) ⟨seen, .sequence []⟩ := by
  have hnone (other : Site) : ¬Site.Part codec.definitions ⟨seen, .sequence []⟩ other := by
    rintro ⟨⟩
    exact List.not_mem_nil ‹_›
  exact .intro (.plain (everywhere_leaf nofun hnone) nofun ⟨trivial, trivial, trivial⟩
    ⟨trivial, trivial, trivial, trivial⟩ (Site.avoids_halt nofun nofun)) fun other hpart _ =>
      absurd hpart (hnone other)

theorem looksAt_fixed (names : Names) (n : Nat) : (Length.fixed n).LooksAt names := ⟨nofun, nofun⟩

theorem saves_magic (content : Bytes) :
    Site.Inside codec.definitions (Site.Saves codec admits) ⟨seen, .magic content⟩ := by
  have hbytes : Site.Inside codec.definitions (Site.Saves codec admits)
      ⟨seen, .bytes (.fixed content.length)⟩ :=
    .intro (.plain (everywhere_leaf nofun nofun) nofun ⟨trivial, trivial, trivial⟩
      ⟨nofun, trivial, looksAt_fixed _ _, trivial⟩ (Site.avoids_halt nofun nofun)) nofun
  have halike :
      Site.Everywhere codec.definitions Site.Alike ⟨seen, .bytes (.fixed content.length)⟩ :=
    everywhere_leaf ⟨looksAt_fixed _ _, trivial⟩ nofun
  have hnone : Site.Everywhere codec.definitions Site.NoSelection ⟨seen, .magic content⟩ := by
    refine .intro nofun ?_
    rintro _ ⟨⟩
    exact everywhere_leaf nofun nofun
  have hreturns : Site.Avoids .halt (FieldType.constantBytes codec) ⟨seen, .magic content⟩ := by
    refine Site.avoids_halt nofun ?_
    rintro _ _ ⟨⟩
    exact FieldType.constantBytes_ne_none seen (everywhere_leaf ⟨nofun, nofun⟩ nofun)
  refine .intro (.plain hnone nofun ⟨trivial, trivial, halike⟩
    ⟨trivial, trivial, trivial, .bytes _⟩ hreturns) ?_
  rintro _ ⟨⟩ -
  exact hbytes

theorem noSelection_enumeration {definitions : Nat → FieldType} (seen : List (List String))
    (variants : List (String × Int64)) : Site.Everywhere definitions Site.NoSelection
      ⟨seen, Fields.enumeration Fields.integer variants⟩ := by
  refine .intro nofun ?_
  rintro _ ⟨⟩
  exact noSelection_leaf rfl

theorem saves_enumeration {variants : List (String × Int64)} (hn : (variants.map Prod.fst).Nodup) :
    Site.Inside codec.definitions (Site.Saves codec admits)
      ⟨seen, Fields.enumeration Fields.integer variants⟩ := by
  have hnames :
      ((variants.map fun variant => (variant.1, Value.int variant.2)).map Prod.fst).Nodup := by
    simpa [Function.comp_def] using hn
  have hvalues : ∀ variant ∈ variants.map fun variant => (variant.1, Value.int variant.2),
      variant.2.WellFormed := by
    intro variant hm
    obtain ⟨_, -, rfl⟩ := List.mem_map.mp hm
    exact .int _
  have halike : Site.Everywhere codec.definitions Site.Alike ⟨seen, Fields.integer⟩ :=
    everywhere_leaf ⟨trivial, trivial⟩ nofun
  refine .intro (.plain (noSelection_enumeration seen variants) nofun
    ⟨trivial, trivial, halike, hnames, hvalues⟩
    ⟨hnames, trivial, trivial, hvalues⟩ (Site.avoids_halt nofun nofun)) ?_
  rintro _ ⟨⟩ -
  exact saves_leaf rfl

theorem saves_array {length : Length} (hlength : length ≠ .remaining) (hkeeps : length.Keeps)
    (hlooks : length.LooksAt (Site.names ⟨seen, element⟩))
    (helement : Site.Inside codec.definitions (Site.Saves codec admits) ⟨seen, element⟩) :
    Site.Inside codec.definitions (Site.Saves codec admits) ⟨seen, .array length element⟩ := by
  refine .intro ⟨⟨⟨trivial, hkeeps, trivial⟩, nofun, trivial, Site.avoids_halt nofun nofun⟩,
    ⟨fun _ => hlength, trivial, hlooks, trivial, Site.avoids_halt nofun nofun, .inr hlength,
      nofun⟩⟩ ?_
  rintro _ ⟨⟩ -
  exact helement

theorem saves_record {fields : List (String × FieldType)} (hn : (fields.map Prod.fst).Nodup)
    (hf : Site.InsideFields codec.definitions (Site.Saves codec admits) seen [] fields) :
    Site.Inside codec.definitions (Site.Saves codec admits) ⟨seen, .record name fields⟩ :=
  Site.inside_record ⟨⟨⟨hn, trivial, trivial⟩, nofun, trivial, Site.avoids_halt nofun nofun⟩,
    ⟨fun _ => trivial, hn, trivial, trivial, Site.avoids_halt nofun nofun, .inr trivial, nofun⟩⟩ hf

theorem saves_lazy (slot : Nat) :
    Site.Inside codec.definitions (Site.Saves codec admits) ⟨seen, .lazy slot⟩ :=
  Site.inside_lazy ⟨⟨⟨trivial, trivial, trivial⟩, nofun, trivial, Site.avoids_halt nofun nofun⟩,
    ⟨fun _ => trivial, trivial, trivial, trivial, Site.avoids_halt nofun nofun,
      .inr trivial, nofun⟩⟩

theorem saves_switch {on : Reference} {cases : List (Key × FieldType)}
    (hon : on.StartsIn (Site.names ⟨seen, .switch on cases none⟩))
    (hcases : ∀ entry ∈ cases, Site.Everywhere codec.definitions Site.NoSelection ⟨seen, entry.2⟩ ∧
      Site.Inside codec.definitions (Site.Saves codec admits) ⟨seen, entry.2⟩) :
    Site.Inside codec.definitions (Site.Saves codec admits) ⟨seen, .switch on cases none⟩ := by
  have hnone :
      Site.Everywhere codec.definitions Site.NoSelection ⟨seen, .switch on cases none⟩ := by
    refine .intro nofun fun other hpart => ?_
    cases hpart with
    | case hentry => exact (hcases _ hentry).1
    | default hdefault => cases hdefault
  refine .intro (.plain hnone nofun ⟨trivial, trivial, trivial⟩ ⟨trivial, trivial, hon, trivial⟩
    (Site.avoids_halt nofun nofun))
    fun other hpart _ => ?_
  cases hpart with
  | case hentry => exact (hcases _ hentry).2
  | default hdefault => cases hdefault

theorem saves_select {alternatives : List FieldType}
    (hsettled : (FieldType.select alternatives).Settled codec)
    (htells : Site.Tells codec admits ⟨seen, .select alternatives⟩)
    (ha : ∀ type ∈ alternatives, Site.Inside codec.definitions (Site.Saves codec admits)
      ⟨seen, type⟩) :
    Site.Inside codec.definitions (Site.Saves codec admits) ⟨seen, .select alternatives⟩ := by
  refine .intro ⟨⟨⟨trivial, trivial, trivial⟩, nofun, hsettled, Site.avoids_halt nofun nofun⟩,
    ⟨fun h => absurd rfl (h _), trivial, trivial, trivial, Site.avoids_halt nofun nofun,
      .inr trivial, htells⟩⟩ ?_
  rintro _ ⟨⟩ -
  exact ha _ ‹_›

theorem saves_counted {count : String} {names : List String}
    (hcount : Reference.ofText count = ⟨0, [count]⟩)
    (hmem : count ∈ names)
    (helement : Site.Inside codec.definitions (Site.Saves codec admits) ⟨names :: seen, element⟩) :
    Site.Inside codec.definitions (Site.Saves codec admits)
      ⟨names :: seen, Fields.counted count element⟩ := by
  refine saves_array nofun trivial ⟨?_, nofun⟩ helement
  rintro _ (_ | ⟨_, ⟨⟩⟩) name hname
  rw [hcount] at hname ⊢
  cases hname
  exact ⟨names, rfl, hmem⟩

end

end Mapsmith
