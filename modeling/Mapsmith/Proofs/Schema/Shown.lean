import Mapsmith.Proofs.Schema.Breakdown
import Mapsmith.Proofs.Schema.Guarded

/-!
# Showing a constant

`FieldType.shownGuarded_eq`: the encoder by checked operations writes what the encoder writes,
or refuses what it refuses, where it shows the constants in an error. Its own operations ask
only that the blocks are filled with no more zeros than there can be. A constant that does not
match in the one that is shown is shown in turn, so that this ends where constants do not lead
back to themselves. Where they do, the run may be endless, but it is not stopped otherwise.
-/

namespace Mapsmith

open Guarded

/-- The zeros of a block can be counted by a signed word. -/
def Site.Fills (site : Site) : Prop := ∀ size inner, site.type = .padded size inner → size < 2 ^ 63

/-- The operations that write a value are defined there. -/
structure Site.Writes (site : Site) : Prop where
  counts : site.CountsBits
  fills : site.Fills

/-- A constant there can be shown, with at most `shows` constants shown within each other. -/
def Site.Shows (definitions : Nat → FieldType) : Nat → Site → Prop
  | 0, site => ∀ inner value, site.type ≠ .const inner value
  | shows + 1, site => ∀ inner value, site.type = .const inner value →
    Site.Everywhere definitions (Shows definitions shows) ⟨site.seen, inner⟩

/-- What stands in a constant. Where showing it may not be `endless`, it does not go on for long. -/
structure Site.Shown (definitions : Nat → FieldType) (endless : Prop) (shows : Nat) (site : Site) :
    Prop where
  writes : site.Writes
  shows : ¬endless → site.Shows definitions shows

/-- Both go through with the same bytes, after those from before, or neither does. Where showing
constants may be `endless`, the run may also end for that. -/
inductive Prints (endless : Prop) (before : Bytes) :
    EStateM.Result Halt Bytes Unit → Except CodecError Bytes → Prop
  | ok {part} : Prints endless before (.ok () (before ++ part)) (.ok part)
  | error {error error' after} : error.halts = error'.halts → before <+: after →
      Prints endless before (.error (.failed error) after) (.error error')
  | exhausted {after written} : endless → Prints endless before (.error .exhausted after) written

variable {endless : Prop}

namespace GuardedEncoder

def Writes (endless : Prop) (run : GuardedEncoder Unit)
    (written : Except CodecError Bytes) : Prop :=
  ∀ before, Prints endless before (run before) written

-- ---------------------------------------------------------------------------
-- Steps
-- ---------------------------------------------------------------------------

theorem writes_put (part : Except CodecError Bytes) : Writes endless (put part) part := by
  intro before
  cases part with
  | ok part => exact .ok
  | error error => exact .error rfl List.prefix_rfl

theorem writes_nothing : Writes endless (pure ()) (.ok []) := by
  intro before
  have hnone : Prints endless before (.ok () (before ++ [])) (.ok []) := .ok
  rwa [List.append_nil] at hnone

theorem put_bind (x : Except CodecError α) (written : α → Except CodecError Bytes) :
    put (x >>= written) = lift x >>= fun a => put (written a) := by
  cases x <;> rfl

theorem Writes.lift_bind {x : Except CodecError α} {run : α → GuardedEncoder Unit}
    {written : α → Except CodecError Bytes} (h : ∀ a, Writes endless (run a) (written a)) :
    Writes endless (lift x >>= run) (x >>= written) := by
  cases x with
  | ok a => exact h a
  | error error => exact fun before => .error rfl List.prefix_rfl

section

variable {run run' : GuardedEncoder Unit} {written written' : Except CodecError Bytes}

theorem Writes.seq (h : Writes endless run written) (h' : Writes endless run' written') :
    Writes endless (run >>= fun _ => run') (do return (← written) ++ (← written')) := by
  intro before
  have hfirst := h before
  show Prints endless before (EStateM.bind run (fun _ => run') before) _
  rw [EStateM.bind]
  generalize run before = x at hfirst ⊢
  cases hfirst with
  | error hhalts hpre => exact .error hhalts hpre
  | exhausted hend => exact .exhausted hend
  | @ok part =>
    have hrest := h' (before ++ part)
    show Prints endless before (run' (before ++ part)) (do return part ++ (← written'))
    generalize run' (before ++ part) = y at hrest ⊢
    cases hrest with
    | ok =>
      rw [List.append_assoc]
      exact .ok
    | error hhalts hpre => exact .error hhalts ((List.prefix_append _ _).trans hpre)
    | exhausted hend => exact .exhausted hend

theorem Writes.all {run : α → GuardedEncoder Unit} {written : α → Except CodecError Bytes}
    {as : List α} (h : ∀ a ∈ as, Writes endless (run a) (written a)) :
    Writes endless (writeAll run as) (do return (← as.mapM written).flatten) := by
  induction as with
  | nil => exact writes_nothing
  | cons a as ih =>
    obtain ⟨hhead, htail⟩ := List.forall_mem_cons.mp h
    have hboth := hhead.seq (ih htail)
    simpa [writeAll, List.mapM_cons] using hboth

/-- What a run has written is counted by the difference of what is there before and after. -/
theorem Writes.counted (h : Writes endless run written) {rest : Nat → GuardedEncoder Unit}
    {finish : Bytes → Except CodecError Bytes}
    (hrest : ∀ before part, Prints endless before (rest part.length (before ++ part))
      (finish part)) :
    Writes endless (do
      let start := (← get).length
      run
      let used ← subtract (← get).length start
      rest used) (written >>= finish) := by
  intro before
  have hcontent := h before
  show Prints endless before (EStateM.bind run _ before) _
  rw [EStateM.bind]
  generalize run before = x at hcontent ⊢
  cases hcontent with
  | error hhalts hpre => exact .error hhalts hpre
  | exhausted hend => exact .exhausted hend
  | @ok part =>
    show Prints endless before ((do
      let used ← subtract (before ++ part).length before.length
      rest used) (before ++ part)) (finish part)
    rw [subtract_of_le (by simp), pure_bind, List.length_append, Nat.add_sub_cancel_left]
    exact hrest before part

theorem prints_zeros (before part : Bytes) (h : n < 2 ^ 63) :
    Prints endless before ((do put (.ok (← zeros n))) (before ++ part))
      (.ok (part ++ List.replicate n 0)) := by
  rw [zeros_of_lt h, pure_bind]
  show Prints endless before (.ok () (before ++ part ++ _)) _
  rw [List.append_assoc]
  exact .ok

theorem Writes.filled (h : Writes endless run written) (hsize : size < 2 ^ 63) :
    Writes endless (do
      let start := (← get).length
      run
      let used ← subtract (← get).length start
      put (.ok (← zeros (size - used)))) (do
      let content ← written
      return content ++ List.replicate (size - content.length) 0) :=
  h.counted fun before part => prints_zeros before part (by omega)

theorem Writes.block (h : Writes endless run written) (hsize : size < 2 ^ 63) (path : FieldPath) :
    Writes endless (writeBlock path size run) (do Codec.fillBlock path size (← written)) := by
  refine h.counted fun before part => ?_
  rw [Codec.fillBlock]
  split
  · exact .error rfl (List.prefix_append _ _)
  · rw [subtract_of_le (by omega), pure_bind]
    exact prints_zeros before part (by omega)

end

-- ---------------------------------------------------------------------------
-- Flags and packed units
-- ---------------------------------------------------------------------------

theorem writeFlags_eq (path : FieldPath) (set : FlagSet) (bits : UInt64) :
    writeFlags path set bits = put (Codec.writeFlags path set bits.toNat) := by
  have hfits : PackedUnit.fits (UInt32.ofNat set.kind.width) bits = true ↔
      bits.toNat < 2 ^ set.kind.width := by
    rw [PackedUnit.fits_iff_and_mask, ← UInt64.toNat_inj, UInt64.toNat_and, toNat_mask,
      Nat.and_two_pow_sub_one_eq_mod, Nat.mod_eq_iff_lt (Nat.ne_of_gt (Nat.two_pow_pos _))]
  rw [writeFlags, fits_eq (width_le _), pure_bind, Codec.writeFlags, Nat.pow_eq]
  by_cases hlt : bits.toNat < 2 ^ set.kind.width
  · rw [if_pos (hfits.mpr hlt), if_neg (Nat.not_le.mpr hlt)]
    rfl
  · rw [if_neg (mt hfits.mp hlt), if_pos (Nat.not_lt.mp hlt)]
    rfl

theorem packedWord_eq {field : PackedField} (h : field.width.toNat ≤ 64) (path : FieldPath)
    (value : Value) :
    packedWord path field value = lift (Codec.packedWord path field value) := by
  have hfits (word : UInt64) : (do
      if ← fits field.width word then return word
      else throw (.failed (.roundTrip path.toText (.tooWide word.toNat field.width.toNat))) :
        GuardedEncoder UInt64) =
      lift (if PackedUnit.fits field.width word then return word
        else throw (.roundTrip path.toText (.tooWide word.toNat field.width.toNat))) := by
    rw [fits_eq h, pure_bind]
    split <;> rfl
  unfold packedWord Codec.packedWord
  cases value with
  | flags bits names => exact hfits bits
  | _ =>
    dsimp only
    rw [lift_bind, bind_assoc, lift_bind]
    refine bind_congr fun n => ?_
    split
    · rfl
    · exact hfits _

theorem packedWords_eq {fields : List PackedField} (h : ∀ field ∈ fields, field.width.toNat ≤ 64)
    (path : FieldPath) (document : Document) :
    packedWords path document fields = lift (fields.mapM fun field =>
      match document.get? field.name with
      | some part => Codec.packedWord (path.push (.name field.name)) field part
      | none => throw (.missingField (path.push (.name field.name)).toText)) := by
  induction fields with
  | nil => rfl
  | cons field fields ih =>
    obtain ⟨hfield, hfields⟩ := List.forall_mem_cons.mp h
    rw [packedWords, ih hfields, List.mapM_cons, lift_bind, packedPart]
    cases document.get? field.name with
    | none => rfl
    | some part =>
      dsimp only
      rw [packedWord_eq hfield]
      refine bind_congr fun word => ?_
      rw [lift_bind]
      rfl

theorem width_le_of_mem {unit : PackedUnit} (h : PackedUnit.bits unit.fields ≤ 64)
    (hf : field ∈ unit.fields) : field.width.toNat ≤ 64 := by
  obtain ⟨before, after, heq⟩ := List.append_of_mem hf
  simp only [PackedUnit.bits, heq, List.map_append, List.map_cons, List.sum_append,
    List.sum_cons] at h
  omega

theorem writeWord_eq {unit : PackedUnit} (h : unit.Filled) (words : List UInt64) :
    (writeWord unit.byteOrder (unit.joinFrom 0 unit.fields words) unit.size : Guarded σ Bytes) =
      pure (unit.join words) := by
  obtain ⟨hpos, hsize, hw, hbits⟩ := h
  have hle : (0 : UInt32).toNat + PackedUnit.bits unit.fields ≤ unit.size * 8 := by
    simp [hbits]
  have hlt : (unit.joinFrom 0 unit.fields words).toNat < 2 ^ (unit.size * 8) := by
    refine Nat.lt_pow_two_of_testBit _ fun i hi => ?_
    have hout : ¬unit.Ahead 0 i := by
      unfold PackedUnit.Ahead
      split <;> simp <;> omega
    have hbit := mt (PackedUnit.ahead_of_bit_joinFrom hsize words hw hle) hout
    simpa [PackedUnit.bit, BitVec.getLsbD] using hbit
  simp [writeWord, require, hpos, hsize, hlt, PackedUnit.join]

theorem writePacked_eq {unit : PackedUnit} (h : PackedUnit.bits unit.fields < 2 ^ 32)
    (path : FieldPath)
    (value : Value) : writePacked path unit value = put (Codec.writePacked path unit value) := by
  rw [writePacked, check_eq h, Codec.writePacked]
  cases hc : unit.check with
  | error error => rfl
  | ok =>
    obtain ⟨-, hsize, hw, hbits⟩ := PackedUnit.check_ok_iff.mp hc
    show lift (Codec.expect path "a struct" value value.asStruct?) >>= _ =
      put (Codec.expect path "a struct" value value.asStruct? >>= _)
    rw [put_bind]
    refine bind_congr fun document => ?_
    rw [packedWords_eq fun field hf => width_le_of_mem (by omega) hf, put_bind]
    refine bind_congr fun words => ?_
    rw [joinFrom_eq hsize hw (by simp [hbits]), pure_bind,
      writeWord_eq (PackedUnit.check_ok_iff.mp hc), pure_bind]
    rfl

end GuardedEncoder

open GuardedEncoder

/-- Showing a constant ends with bytes, and then it can be shown, or goes on without end. -/
def ShowsConstants (definitions : Nat → FieldType) (endless : Prop) (shows : Nat)
    (shown : FieldType → Value → Except Halt Bytes)
    (constantBytes : FieldType → Value → Option Bytes) : Prop :=
  ∀ seen inner expected, Site.Everywhere definitions Site.Writes ⟨seen, inner⟩ →
    (¬endless → Site.Shows definitions shows ⟨seen, .const inner expected⟩) → ∀ value,
      (∃ bytes, shown inner value = .ok bytes ∧ constantBytes inner value ≠ none) ∨
        endless ∧ shown inner value = .error .exhausted

def WritesTypes (definitions : Nat → FieldType) (endless : Prop) (shows : Nat) (run : GuardedWriter)
    (write : Writer) : Prop :=
  ∀ seen type, Site.Everywhere definitions (Site.Shown definitions endless shows) ⟨seen, type⟩ →
    ∀ path value scope, Writes endless (run path type value scope) (write path type value scope)

namespace WritesTypes

variable {definitions : Nat → FieldType} {run : GuardedWriter} {write : Writer} {scope : Scope}

theorem missing (h : WritesTypes definitions endless shows run write)
    (hs : Site.Everywhere definitions (Site.Shown definitions endless shows) ⟨seen, type⟩)
    (path : FieldPath) :
    Writes endless (writeMissing run path scope type)
      (Codec.writeMissing write path scope type) := by
  cases type with
  | const inner value => exact h _ _ (hs.part .const) _ _ _
  | padded size inner =>
    cases inner with
    | const inner value =>
      exact (h _ _ ((hs.part .padded).part .const) _ _ _).filled (hs.here.writes.fills size _ rfl)
    | _ => exact writes_put (.error _)
  | _ => exact writes_put (.error _)

theorem fields (h : WritesTypes definitions endless shows run write)
    {fields : List (String × FieldType)} (hs : ∀ field ∈ fields, ∃ seen,
      Site.Everywhere definitions (Site.Shown definitions endless shows) ⟨seen, field.2⟩)
        (path : FieldPath) :
    Writes endless (writeFields run path scope fields)
      (Codec.writeFields write path scope fields) := by
  rw [writeFields, Codec.writeFields]
  generalize (scope.current.names.find? fun name => !(fields.any fun field => field.1 == name)) =
    unknown?
  cases unknown? with
  | some name => exact writes_put (.error _)
  | none =>
    refine Writes.all fun field hf => ?_
    obtain ⟨seen, hfield⟩ := hs field hf
    dsimp only
    cases scope.current.get? field.1 with
    | some value => exact h _ _ hfield _ _ _
    | none => exact h.missing hfield _

end WritesTypes

namespace GuardedWriteContext

variable {run : GuardedWriteContext} {ctx : WriteContext} {scope : Scope}

def WritesType (endless : Prop) (run : GuardedWriteContext) (ctx : WriteContext) (scope : Scope)
    (type : FieldType) : Prop :=
  ∀ path value, Writes endless (run.write path type value scope) (ctx.write path type value scope)

theorem writes_items {run : FieldPath → Value → GuardedEncoder Unit}
    {write : FieldPath → Value → Except CodecError Bytes}
    (h : ∀ path item, Writes endless (run path item) (write path item))
    (path : FieldPath) (items : List Value) :
    Writes endless (writeItems path run items) (Codec.writeItems path write items) :=
  Writes.all fun _ _ => h _ _

theorem writes_sequence {types : List FieldType}
    (h : ∀ type ∈ types, WritesType endless run ctx scope type)
    (path : FieldPath) (index : Nat) (items : List Value) :
    Writes endless (run.writeSequence path index types items scope)
      (ctx.writeSequence path index types items scope) := by
  induction types generalizing index items with
  | nil => exact writes_nothing
  | cons type types ih =>
    obtain ⟨htype, htypes⟩ := List.forall_mem_cons.mp h
    cases items with
    | nil => exact writes_nothing
    | cons item items => exact (htype _ _).seq (ih htypes _ _)

theorem writes_switch {cases : List (Key × FieldType)} {default : Option FieldType}
    (hc : ∀ case ∈ cases, WritesType endless run ctx scope case.2)
    (hd : ∀ type ∈ default, WritesType endless run ctx scope type)
    (path : FieldPath) (discriminant value : Value) :
    Writes endless
      (match run.writeCase path discriminant cases value scope with
        | some run => run
        | none => run.writeDefault path discriminant default value scope)
      (match ctx.writeCase path discriminant cases value scope with
        | some written => written
        | none => ctx.writeDefault path discriminant default value scope) := by
  induction cases with
  | nil =>
    cases default with
    | none => exact writes_put (.error _)
    | some type => exact hd type rfl _ _
  | cons case cases ih =>
    obtain ⟨key, type⟩ := case
    obtain ⟨hcase, hcases⟩ := List.forall_mem_cons.mp hc
    by_cases hkey : key.matches discriminant
    · simpa only [writeCase, WriteContext.writeCase, if_pos hkey] using hcase path value
    · simpa only [writeCase, WriteContext.writeCase, if_neg hkey] using ih hcases

/-- What an alternative has written is taken back where it fails. -/
theorem writes_first {types : List FieldType}
    (h : ∀ type ∈ types, WritesType endless run ctx scope type)
    (path : FieldPath) (value : Value) {last last' : Option CodecError}
    (hlast : ∀ error ∈ last, error.halts = false) (hlast' : ∀ error ∈ last', error.halts = false) :
    Writes endless (run.writeFirst path last types value scope)
      (ctx.writeFirst path last' types value scope) := by
  induction types generalizing last last' with
  | nil =>
    have hgiven {last : Option CodecError} (h : ∀ error ∈ last, error.halts = false) :
        (last.getD (.invalidSchema (.noAlternatives path.toText))).halts = false := by
      cases last with
      | none => rfl
      | some error => exact h error rfl
    exact fun before => .error ((hgiven hlast).trans (hgiven hlast').symm) List.prefix_rfl
  | cons type types ih =>
    obtain ⟨htype, htypes⟩ := List.forall_mem_cons.mp h
    intro before
    have hwrite := htype path value before
    rw [writeFirst, WriteContext.writeFirst]
    dsimp only
    generalize run.write path type value scope before = x at hwrite ⊢
    generalize ctx.write path type value scope = y at hwrite ⊢
    cases hwrite with
    | ok => exact .ok
    | @error fault fault' after hhalts hpre =>
      have htake : after.take before.length = before := List.prefix_iff_eq_take.mp hpre |>.symm
      dsimp only
      rw [htake]
      cases hfault : fault'.halts with
      | true =>
        rw [if_pos (hhalts.trans hfault), if_pos rfl]
        exact .error hhalts hpre
      | false =>
        have hfaults := hhalts.trans hfault
        rw [if_neg (Bool.eq_false_iff.mp hfaults), if_neg Bool.false_ne_true]
        refine ih htypes ?_ ?_ before <;> rintro _ ⟨⟩ <;> assumption
    | exhausted hend => exact .exhausted hend

theorem write_types {codec : Codec} {shown : FieldType → Value → Except Halt Bytes}
    {constantBytes : FieldType → Value → Option Bytes} {deeper : Option GuardedWriter}
    {deeper' : Option Writer}
    (hshown : ShowsConstants codec.definitions endless shows shown constantBytes)
    (hdeeper : Option.Rel (WritesTypes codec.definitions endless shows) deeper deeper') :
    WritesTypes codec.definitions endless shows (write ⟨codec, shown, deeper⟩)
      (WriteContext.write ⟨codec, constantBytes, deeper'⟩) := by
  intro seen type hs path value scope
  have hdescend {f : GuardedWriter → GuardedEncoder Unit} {f' : Writer → Except CodecError Bytes}
      (path : FieldPath) (hf : ∀ run write, WritesTypes codec.definitions endless shows run write →
        Writes endless (f run) (f' write)) :
      Writes endless (descend ⟨codec, shown, deeper⟩ path f)
        (WriteContext.descend ⟨codec, constantBytes, deeper'⟩ path f') := by
    cases hdeeper with
    | none => exact writes_put (.error _)
    | some hwrite => exact hf _ _ hwrite
  induction type using FieldType.induction generalizing path value with
  | int kind order => exact writes_put _
  | float order => exact writes_put _
  | text => exact writes_put _
  | id => exact writes_put _
  | reversedId => exact writes_put _
  | bytes length => exact writes_put _
  | bool kind order no yes => exact writes_put _
  | const inner expected ih =>
    rw [write, WriteContext.write]
    split
    · exact ih (hs.part .const) _ _
    · have hwrites := (hs.part .const).mono fun _ h => h.writes
      dsimp only
      obtain ⟨bytes, hbytes, hexpected⟩ | ⟨hend, hbytes⟩ :=
        hshown _ _ _ hwrites hs.here.shows expected
      · obtain ⟨bytes', hbytes', hvalue⟩ | ⟨hend, hbytes'⟩ :=
          hshown _ _ _ hwrites hs.here.shows value
        · rw [hbytes, hbytes']
          obtain ⟨_, hexpected⟩ := Option.ne_none_iff_exists'.mp hexpected
          obtain ⟨_, hvalue⟩ := Option.ne_none_iff_exists'.mp hvalue
          rw [hexpected, hvalue]
          exact fun before => .error rfl List.prefix_rfl
        · rw [hbytes, hbytes']
          exact fun before => .exhausted hend
      · rw [hbytes]
        exact fun before => .exhausted hend
  | enum repr variants ih => exact ih (hs.part .enum) _ _
  | flags set =>
    cases value with
    | flags bits names =>
      show Writes endless (writeFlags path set bits) _
      rw [writeFlags_eq]
      exact writes_put _
    | int n =>
      show Writes endless
        (if 0 ≤ n.toInt then writeFlags path set (UInt64.ofNat n.toInt.toNat) else _)
        (if _ then _ else _)
      have hword : (UInt64.ofNat n.toInt.toNat).toNat = n.toInt.toNat := by
        have hlt := n.toInt_lt
        rw [UInt64.toNat_ofNat', Nat.mod_eq_of_lt (by omega)]
      rw [writeFlags_eq, hword]
      split
      · exact writes_put _
      · exact writes_put _
    | _ => exact writes_put _
  | record name fields =>
    refine Writes.lift_bind fun document => hdescend path fun run write hwrite => ?_
    exact hwrite.fields (fun field hf => hs.field hf) path
  | array length element ih =>
    refine Writes.lift_bind fun items => Writes.lift_bind fun _ => ?_
    exact writes_items (ih (hs.part .element)) path items
  | greedy element ih =>
    refine Writes.lift_bind fun items => ?_
    exact writes_items (ih (hs.part .greedy)) path items
  | sequence types ih =>
    refine Writes.lift_bind fun items => ?_
    split
    · exact writes_put (.error _)
    · exact writes_sequence (fun type ht => ih type ht (hs.part (.item ht))) path 0 items
  | switch on cases default ihc ihd =>
    refine Writes.lift_bind fun discriminant => ?_
    exact writes_switch (fun case hc => ihc case hc (hs.part (.case hc)))
      (fun type ht => ihd type ht (hs.part (.default ht))) path discriminant value
  | conditional condition yes no ihy ihn =>
    refine Writes.lift_bind fun truth => ?_
    cases truth with
    | true => exact ihy (hs.part .yes) _ _
    | false => exact ihn (hs.part .no) _ _
  | select alternatives ih =>
    have hnone : ∀ error ∈ (none : Option CodecError), error.halts = false := by simp
    exact writes_first (fun type ht => ih type ht (hs.part (.alternative ht))) path value hnone
      hnone
  | checked relation holds inner ih =>
    rw [write, WriteContext.write]
    split
    · exact ih (hs.part .checked) _ _
    · exact writes_put (.error _)
  | padded size inner ih =>
    exact (ih (hs.part .padded) _ _).block (hs.here.writes.fills _ _ rfl) path
  | packed unit =>
    show Writes endless (writePacked path unit value) _
    rw [writePacked_eq (hs.here.writes.counts unit rfl)]
    exact writes_put _
  | lazy slot => exact hdescend path fun run write hwrite => hwrite _ _ (hs.part .lazy) _ _ _

end GuardedWriteContext

namespace FieldType

theorem writeGuarded_writes (codec : Codec) (constantBytes : FieldType → Value → Option Bytes)
    {shown : FieldType → Value → Except Halt Bytes}
    (hshown : ShowsConstants codec.definitions endless shows shown constantBytes) (levels : Nat) :
    WritesTypes codec.definitions endless shows (writeGuarded codec shown levels)
      (writeAt codec constantBytes levels) := by
  induction levels with
  | zero => exact GuardedWriteContext.write_types hshown .none
  | succ levels ih => exact GuardedWriteContext.write_types hshown (.some ih)

/-- Without a sum of widths that is too large, no error of the checked operations halts. -/
theorem writeGuarded_returns {codec : Codec} {shown : FieldType → Value → Except Halt Bytes}
    (hshown : ShowsConstants codec.definitions endless shows shown fun _ _ => some [])
    (hs : Site.Everywhere codec.definitions (Site.Shown codec.definitions endless shows)
      ⟨seen, type⟩)
    (hrun : writeGuarded codec shown levels path type value scope before =
      .error (.failed error) after) :
    error.halts = false := by
  have hwrites :=
    writeGuarded_writes codec (fun _ _ => some []) hshown levels seen type hs path value
    scope before
  have hreturns := avoids_writeAt codec (fun _ _ => some []) levels seen type path value scope
    (hs.mono fun _ h => Site.avoids_halt h.writes.counts fun _ _ _ _ => Option.some_ne_none _)
  rw [hrun] at hwrites
  generalize writeAt codec _ levels path type value scope = written at hwrites hreturns
  cases hwrites with
  | error hhalts => exact hhalts.trans (hreturns.halts rfl)

theorem shownGuardedAt_succ (codec : Codec) (shows : Nat) (type : FieldType) {value : Value}
    (h : ∀ content, value ≠ .bytes content) : shownGuardedAt codec (shows + 1) type value =
      match writeGuarded codec (shownGuardedAt codec shows) codec.options.maxDepth .root type value
        (Scope.root .empty codec.options) [] with
      | .ok () written => .ok written
      | .error (.failed error) _ => if error.halts then .error (.failed error) else .ok []
      | .error halt _ => .error halt := by
  cases value with
  | bytes content => exact absurd rfl (h content)
  | _ => rfl

/-- Showing a constant ends, with the bytes that the encoder shows, unless it may be endless. -/
theorem shownGuardedAt_eq {codec : Codec} {inner : FieldType}
    (hw : Site.Everywhere codec.definitions Site.Writes ⟨seen, inner⟩)
    (hs : ¬endless → Site.Shows codec.definitions shows ⟨seen, .const inner expected⟩)
    (hle : shows ≤ reports) (value : Value) :
    (∃ bytes, shownGuardedAt codec shows inner value = .ok bytes ∧
        constantBytesAt codec reports inner value = some bytes) ∨
      endless ∧ shownGuardedAt codec shows inner value = .error .exhausted := by
  induction shows generalizing seen inner expected reports value with
  | zero => exact .inr ⟨by_contra fun hend => hs hend inner expected rfl, rfl⟩
  | succ shows ih =>
    obtain ⟨reports, rfl⟩ : ∃ less, reports = less + 1 := ⟨reports - 1, by omega⟩
    by_cases hbytes : ∃ content, value = .bytes content
    · obtain ⟨content, rfl⟩ := hbytes
      exact .inl ⟨content, rfl, rfl⟩
    rw [shownGuardedAt_succ _ _ _ (not_exists.mp hbytes),
      constantBytesAt_succ _ _ _ (not_exists.mp hbytes)]
    have hshown {constantBytes : FieldType → Value → Option Bytes}
        (hsome : ∀ inner value content, constantBytesAt codec reports inner value = some content →
          constantBytes inner value ≠ none) :
        ShowsConstants codec.definitions endless shows (shownGuardedAt codec shows) constantBytes :=
      fun _ _ _ hw hs value => (ih hw hs (Nat.le_of_succ_le_succ hle) value).imp_left
        fun ⟨content, hshown, hcontent⟩ => ⟨content, hshown, hsome _ _ _ hcontent⟩
    have hsites :
        Site.Everywhere codec.definitions (Site.Shown codec.definitions endless shows)
          ⟨seen, inner⟩ :=
      fun part hp => ⟨hw part hp, fun hend => hs hend inner expected rfl part hp⟩
    have hwrites :=
      writeGuarded_writes codec (constantBytesAt codec reports) (hshown fun _ _ _ h => h ▸ nofun)
        codec.options.maxDepth seen inner hsites .root value (.root .empty codec.options) []
    have hreturns (error : CodecError) (after : Bytes)
        (hrun : writeGuarded codec (shownGuardedAt codec shows) codec.options.maxDepth .root inner
          value (.root .empty codec.options) [] = .error (.failed error) after) :
        error.halts = false :=
      writeGuarded_returns (hshown fun _ _ _ _ => Option.some_ne_none []) hsites hrun
    generalize writeGuarded codec _ codec.options.maxDepth .root inner value _ [] =
      x at hwrites hreturns ⊢
    generalize writeAt codec _ codec.options.maxDepth .root inner value _ = y at hwrites ⊢
    cases hwrites with
    | @ok part => exact .inl ⟨part, rfl, rfl⟩
    | error hhalts =>
      have hfailed := hreturns _ _ rfl
      exact .inl ⟨[], by simp [hfailed], by simp [← hhalts, hfailed]⟩
    | exhausted hend => exact .inr ⟨hend, rfl⟩

theorem shownGuarded_eq {codec : Codec} {inner : FieldType}
    (hw : Site.Everywhere codec.definitions Site.Writes ⟨seen, inner⟩)
    (hs : ¬endless → Site.Shows codec.definitions shows ⟨seen, .const inner expected⟩)
    (hle : ¬endless → shows ≤ reportLimit) (value : Value) :
    (∃ bytes, shownGuarded codec shows inner value = .ok bytes ∧
      inner.constantBytes codec value = some bytes) ∨
      endless ∧ shownGuarded codec shows inner value = .error .exhausted := by
  have hroom (hend : ¬endless) :
      Site.Shows codec.definitions (min shows reportLimit) ⟨seen, .const inner expected⟩ := by
    rw [Nat.min_eq_left (hle hend)]
    exact hs hend
  exact shownGuardedAt_eq hw hroom (Nat.min_le_right _ _) value

end FieldType

end Mapsmith
