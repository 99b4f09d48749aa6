import Mapsmith.Proofs.Schema.Restoring

/-!
# Writing with a state is encoding

`FieldType.writeStateful_appends`: the program that writes with a state appends the bytes that
the encoder gives, and nothing else has changed then, or it fails with the same error. What it
has written before it fails is not said here: a selection takes it back, and nothing else looks
at it.
-/

namespace Mapsmith

open Stateful

variable {α β : Type} {depth : Nat}

/-- Both go through with the same bytes, which are all that has changed, or both fail alike. -/
inductive Appended (start : CodecState Bytes) :
    EStateM.Result CodecError (CodecState Bytes) Unit → Except CodecError Bytes → Prop
  | ok {part} : Appended start (.ok () { start with data := start.data ++ part }) (.ok part)
  | error {error stop} : Appended start (.error error stop) (.error error)

/-- Both go through with the same value, and nothing has changed, or both fail alike. -/
inductive Answered (start : CodecState Bytes) :
    EStateM.Result CodecError (CodecState Bytes) α → Except CodecError α → Prop
  | ok {a} : Answered start (.ok a start) (.ok a)
  | error {error stop} : Answered start (.error error stop) (.error error)

namespace StatefulEncoder

/-- With so many records open, the run appends what is written at its path. -/
def Appends (depth : Nat) (run : StatefulEncoder Unit)
    (written : FieldPath → Except CodecError Bytes) : Prop :=
  ∀ start : CodecState Bytes, start.depth = depth → Appended start (run start) (written start.path)

/-- The run gives what is answered at its path. -/
def Answers (run : StatefulEncoder α) (answer : FieldPath → Except CodecError α) : Prop :=
  ∀ start : CodecState Bytes, Answered start (run start) (answer start.path)

-- ---------------------------------------------------------------------------
-- Answers
-- ---------------------------------------------------------------------------

section

variable {run : StatefulEncoder α} {answer : FieldPath → Except CodecError α}

theorem Answers.within (h : Answers run answer) (segment : Segment) :
    Answers (within segment run) fun path => answer (path.push segment) := by
  intro start
  rw [within_apply]
  have hrun := h { start with path := start.path.push segment }
  dsimp only at hrun ⊢
  generalize run { start with path := start.path.push segment } = x at hrun ⊢
  generalize answer (start.path.push segment) = y at hrun ⊢
  cases hrun with
  | ok => exact .ok
  | error => exact .error

theorem Answers.bind {next : α → StatefulEncoder β} {answer' : α → FieldPath → Except CodecError β}
    (h : Answers run answer) (hn : ∀ a, Answers (next a) (answer' a)) :
    Answers (run >>= next) fun path => answer path >>= fun a => answer' a path := by
  intro start
  rw [bind_apply]
  have hrun := h start
  dsimp only
  generalize run start = x at hrun ⊢
  generalize answer start.path = y at hrun ⊢
  cases hrun with
  | ok => exact hn _ start
  | error => exact .error

theorem Answers.append {next : α → StatefulEncoder Unit}
    {written : α → FieldPath → Except CodecError Bytes}
    (h : Answers run answer) (hn : ∀ a, Appends depth (next a) (written a)) :
    Appends depth (run >>= next) fun path => answer path >>= fun a => written a path := by
  intro start hdepth
  rw [bind_apply]
  have hrun := h start
  dsimp only
  generalize run start = x at hrun ⊢
  generalize answer start.path = y at hrun ⊢
  cases hrun with
  | ok => exact hn _ start hdepth
  | error => exact .error

end

section

variable {run run' : StatefulEncoder Unit} {written written' : FieldPath → Except CodecError Bytes}

theorem Appends.within (h : Appends depth run written) (segment : Segment) :
    Appends depth (within segment run) fun path => written (path.push segment) := by
  intro start hdepth
  rw [within_apply]
  have hrun := h { start with path := start.path.push segment } hdepth
  dsimp only at hrun ⊢
  generalize run { start with path := start.path.push segment } = x at hrun ⊢
  generalize written (start.path.push segment) = y at hrun ⊢
  cases hrun with
  | ok => exact .ok
  | error => exact .error

theorem Appends.seq (h : Appends depth run written) (h' : Appends depth run' written') :
    Appends depth (run >>= fun _ => run')
      fun path => do return (← written path) ++ (← written' path) := by
  intro start hdepth
  rw [bind_apply]
  have hfirst := h start hdepth
  dsimp only
  generalize run start = x at hfirst ⊢
  generalize written start.path = y at hfirst ⊢
  cases hfirst with
  | error => exact .error
  | @ok part =>
    have hrest := h' { start with data := start.data ++ part } hdepth
    show Appended start (run' { start with data := start.data ++ part })
      (do return part ++ (← written' start.path))
    dsimp only at hrest
    generalize run' { start with data := start.data ++ part } = x at hrest ⊢
    generalize written' start.path = y at hrest ⊢
    cases hrest with
    | error => exact .error
    | @ok rest =>
      have hboth :
          Appended start (.ok () { start with data := start.data ++ (part ++ rest) })
            (.ok (part ++ rest)) :=
        .ok
      rwa [← List.append_assoc] at hboth

theorem Appends.counting (h : Appends depth run written) {rest : Nat → StatefulEncoder Unit}
    {finish : FieldPath → Bytes → Except CodecError Bytes}
    (hrest : ∀ start part, start.depth = depth → Appended start
      (rest part.length { start with data := start.data ++ part }) (finish start.path part)) :
    Appends depth (counting run rest) fun path => written path >>= finish path := by
  intro start hdepth
  show Appended start ((do
    run
    rest ((← get).data.length - start.data.length) : StatefulEncoder Unit) start) _
  rw [bind_apply]
  have hrun := h start hdepth
  dsimp only
  generalize run start = x at hrun ⊢
  generalize written start.path = y at hrun ⊢
  cases hrun with
  | error => exact .error
  | @ok part =>
    show Appended start (rest ((start.data ++ part).length - start.data.length)
      { start with data := start.data ++ part }) (finish start.path part)
    rw [List.length_append, Nat.add_sub_cancel_left]
    exact hrest start part hdepth

theorem appended_zeros (start : CodecState Bytes) (part : Bytes) (n : Nat) :
    Appended start (zeros n { start with data := start.data ++ part })
      (.ok (part ++ List.replicate n 0)) := by
  have hzeros :
      Appended start (.ok () { start with data := start.data ++ (part ++ List.replicate n 0) })
        (.ok (part ++ List.replicate n 0)) :=
    .ok
  rwa [← List.append_assoc] at hzeros

theorem Appends.filled (h : Appends depth run written) (size : Nat) :
    Appends depth (StatefulEncoder.counting run fun used => zeros (size - used)) fun path => do
      let content ← written path
      return content ++ List.replicate (size - content.length) 0 :=
  h.counting fun start part _ => appended_zeros start part _

theorem Appends.block (h : Appends depth run written) (size : Nat) :
    Appends depth (writeBlock size run) fun path => written path >>= Codec.fillBlock path size := by
  refine h.counting fun start part _ => ?_
  rw [Codec.fillBlock]
  split
  · exact .error
  · exact appended_zeros start part _

theorem Appends.nested (h : Appends (depth + 1) run written) (hlt : depth < limit) :
    Appends depth (nested limit run) written := by
  intro start hdepth
  have hrun := h { start with depth := start.depth + 1 } (congrArg (· + 1) hdepth)
  rw [nested_of_lt (hdepth ▸ hlt)]
  dsimp only at hrun ⊢
  generalize run { start with depth := start.depth + 1 } = x at hrun ⊢
  generalize written start.path = y at hrun ⊢
  cases hrun with
  | ok => exact .ok
  | error => exact .error

end

section

variable {run : FieldType → Value → Scope → StatefulEncoder Unit} {write : Writer}

end

end StatefulEncoder

namespace StatefulWriteContext

open StatefulEncoder

variable {ctx : StatefulWriteContext} {ctx' : WriteContext} {scope : Scope}

/-- The contexts agree where so many records are open: none is left at the limit, and below it
the records one level deeper are written alike. -/
structure Matches (depth : Nat) (ctx : StatefulWriteContext) (ctx' : WriteContext) : Prop where
  codec : ctx.codec = ctx'.codec
  constantBytes : ctx.constantBytes = ctx'.constantBytes
  restoring : ∀ type value scope, (ctx.deeper type value scope).Restoring
  top : ctx'.deeper = none → depth = ctx.codec.options.maxDepth
  below : ∀ write ∈ ctx'.deeper, depth < ctx.codec.options.maxDepth ∧ ∀ type value scope,
    Appends (depth + 1) (ctx.deeper type value scope) fun path => write path type value scope

theorem Matches.descend (h : Matches depth ctx ctx') {run : StatefulEncoder Unit}
    {f : FieldPath → Writer → Except CodecError Bytes}
    (hf : ∀ write : Writer, (∀ type value scope,
        Appends (depth + 1) (ctx.deeper type value scope) fun path => write path type value scope) →
      Appends (depth + 1) run fun path => f path write) :
    Appends depth (ctx.descend run) fun path => ctx'.descend path (f path) := by
  simp only [StatefulWriteContext.descend, WriteContext.descend]
  cases hdeeper : ctx'.deeper with
  | none =>
    intro start hdepth
    have htop := h.top hdeeper
    rw [nested_of_le (Nat.le_of_eq (htop.symm.trans hdepth.symm)), hdepth, htop, ← h.codec]
    exact .error
  | some write =>
    obtain ⟨hlt, hwrite⟩ := h.below write hdeeper
    exact (hf write hwrite).nested hlt

section

variable {types : List FieldType}

end

end StatefulWriteContext

end Mapsmith
