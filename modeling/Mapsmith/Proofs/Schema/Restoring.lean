import Mapsmith.Proofs.Schema.Stateful
import Mapsmith.Proofs.Schema.Site

/-!
# What a run leaves behind

`FieldType.restoring_writeStateful`: a run that goes through is back at the path where it
began, with as many records open. One that fails may have gone on along the path and have added
to the data, but it has not gone behind its start in either, and it has left the records that
it entered. This is kept by each way to put runs together, and it is what a selection relies
on: only then is cutting off what is too long the same as going back. So an alternative is
tried in the state in which the selection began, however far those before it have come.
-/

namespace Mapsmith

variable {τ α β : Type}

section

variable [Undoable τ]

namespace CodecState

variable {start middle stop : CodecState τ}

/-- The state is one that a run may leave where it goes through. -/
structure ReturnsTo (start stop : CodecState τ) : Prop where
  data : Undoable.Grows start.data stop.data
  path : stop.path = start.path
  depth : stop.depth = start.depth

/-- The state is one that a run may leave where it fails. -/
structure LeadsTo (start stop : CodecState τ) : Prop where
  data : Undoable.Grows start.data stop.data
  path : start.path.segments <:+ stop.path.segments
  depth : stop.depth = start.depth

theorem ReturnsTo.refl (start : CodecState τ) : start.ReturnsTo start := ⟨Undoable.refl _, rfl, rfl⟩

theorem LeadsTo.refl (start : CodecState τ) : start.LeadsTo start :=
  ⟨Undoable.refl _, List.suffix_rfl, rfl⟩

theorem ReturnsTo.trans (h : start.ReturnsTo middle) (h' : middle.ReturnsTo stop) :
    start.ReturnsTo stop :=
  ⟨Undoable.trans h.data h'.data, h'.path.trans h.path, h'.depth.trans h.depth⟩

theorem ReturnsTo.leadsTo (h : start.ReturnsTo middle) (h' : middle.LeadsTo stop) :
    start.LeadsTo stop :=
  ⟨Undoable.trans h.data h'.data, h.path ▸ h'.path, h'.depth.trans h.depth⟩

/-- What is undone was added since. -/
theorem LeadsTo.rollback (h : start.LeadsTo stop) : Stateful.rollback start stop = start := by
  obtain ⟨data, path, depth⟩ := start
  obtain ⟨hdata, hpath, hdepth⟩ := h
  simp only [Stateful.rollback, Undoable.undo_of_grows hdata,
    FieldPath.truncate_of_suffix hpath, hdepth]

end CodecState

open CodecState

/-- The outcome is one of a run that began at `start`. -/
inductive Restores (start : CodecState τ) : EStateM.Result CodecError (CodecState τ) α → Prop
  | ok {a stop} : start.ReturnsTo stop → Restores start (.ok a stop)
  | error {error stop} : start.LeadsTo stop → Restores start (.error error stop)

theorem Restores.after {start middle : CodecState τ}
    {result : EStateM.Result CodecError (CodecState τ) α}
    (h : start.ReturnsTo middle) (h' : Restores middle result) : Restores start result := by
  cases h' with
  | ok hstop => exact .ok (h.trans hstop)
  | error hstop => exact .error (h.leadsTo hstop)

namespace Stateful

def Restoring (run : Stateful τ α) : Prop := ∀ start, Restores start (run start)

-- ---------------------------------------------------------------------------
-- Runs put together
-- ---------------------------------------------------------------------------

section

variable {run : Stateful τ α}

theorem restoring_pure (a : α) : (pure a : Stateful τ α).Restoring := fun start => .ok (.refl start)

theorem restoring_ask (answer : FieldPath → Except CodecError α) :
    (ask answer : Stateful τ α).Restoring := by
  intro start
  rw [ask]
  split
  · exact .ok (.refl start)
  · exact .error (.refl start)

theorem restoring_fail (error : String → CodecError) : (fail error : Stateful τ α).Restoring :=
  restoring_ask _

theorem Restoring.bind {next : α → Stateful τ β} (h : run.Restoring)
    (hn : ∀ a, (next a).Restoring) :
    (run >>= next).Restoring := by
  intro start
  rw [bind_apply]
  have hrun := h start
  generalize run start = result at hrun ⊢
  cases hrun with
  | error hstop => exact .error hstop
  | @ok a middle hmiddle => exact (hn a middle).after hmiddle

theorem Restoring.map (h : run.Restoring) (f : α → β) : (do return f (← run)).Restoring :=
  h.bind fun a => restoring_pure (f a)

theorem Restoring.within (h : run.Restoring) (segment : Segment) :
    (within segment run).Restoring := by
  intro start
  rw [within_apply]
  have hrun := h { start with path := start.path.push segment }
  generalize run { start with path := start.path.push segment } = result at hrun ⊢
  cases hrun with
  | ok hstop => exact .ok ⟨hstop.data, congrArg FieldPath.pop hstop.path, hstop.depth⟩
  | error hstop => exact .error ⟨hstop.data, (List.suffix_cons _ _).trans hstop.path, hstop.depth⟩

theorem Restoring.nested (h : run.Restoring) (limit : Nat) : (nested limit run).Restoring := by
  intro start
  rw [Stateful.nested]
  split
  · exact restoring_fail _ start
  · have hrun := h { start with depth := start.depth + 1 }
    generalize run { start with depth := start.depth + 1 } = result at hrun ⊢
    cases hrun with
    | ok hstop => exact .ok ⟨hstop.data, hstop.path, congrArg (· - 1) hstop.depth⟩
    | error hstop => exact .error ⟨hstop.data, hstop.path, congrArg (· - 1) hstop.depth⟩

end

-- ---------------------------------------------------------------------------
-- Selections
-- ---------------------------------------------------------------------------

end Stateful

end

open Stateful

-- ---------------------------------------------------------------------------
-- Decoding
-- ---------------------------------------------------------------------------

/-- The place that reading has come to, with a value or without. -/
def Place.reached : EStateM.Result CodecError Place α → Place
  | .ok _ place => place
  | .error _ place => place

/-- Reading does not go on along the path. -/
def Decoder.Stays (decoder : Decoder α) : Prop :=
  ∀ start, (Place.reached (decoder start)).path = start.path

namespace Decoder

theorem stays_pure (a : α) : (pure a : Decoder α).Stays := fun _ => rfl

theorem Stays.bind {decoder : Decoder α} {next : α → Decoder β} (h : decoder.Stays)
    (hn : ∀ a, (next a).Stays) :
    (decoder >>= next).Stays := by
  intro start
  show (Place.reached (EStateM.bind decoder next start)).path = start.path
  have hfirst := h start
  rw [EStateM.bind]
  generalize decoder start = result at hfirst ⊢
  cases result with
  | ok a middle => exact (hn a middle).trans hfirst
  | error => exact hfirst

theorem Stays.map {decoder : Decoder α} (h : decoder.Stays) (f : α → β) :
    (do return f (← decoder)).Stays :=
  h.bind fun a => stays_pure (f a)

end Decoder

namespace StatefulDecoder

section

variable {read : StatefulDecoder Value}

end

end StatefulDecoder

namespace StatefulReadContext

open StatefulDecoder

variable {ctx : StatefulReadContext} {scope : Scope}

end StatefulReadContext

namespace StatefulEncoder

section

variable {write : FieldType → Value → Scope → StatefulEncoder Unit}

end

end StatefulEncoder

namespace StatefulWriteContext

open StatefulEncoder

variable {ctx : StatefulWriteContext} {scope : Scope}

end StatefulWriteContext

end Mapsmith
