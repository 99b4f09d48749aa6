import Mapsmith.Schema.Decode

/-!
# The codec with its state

`Codec.readStateful`, `Codec.writeStateful`: decoder and encoder as programs that change what
they hold as they go: the position in the input or the bytes written so far, the path to the
field at hand, and the number of records that are open. A run that fails stops where it is and
puts nothing back, except that a record which was entered is left again. So what a rejected
alternative has changed is there until the selection itself undoes it. A run that halts stops
for good: no selection goes on from it.
-/

namespace Mapsmith

structure CodecState (τ : Type) where
  data : τ
  path : FieldPath
  /-- The number of records around the field. -/
  depth : Nat

/-- Data of which what a run has added can be taken back. -/
class Undoable (τ : Type) where
  /-- What a run may have made of the data. -/
  Grows : τ → τ → Prop
  refl : ∀ start, Grows start start
  trans : ∀ {start middle stop}, Grows start middle → Grows middle stop → Grows start stop
  /-- The data as it was at the start. -/
  undo : τ → τ → τ
  undo_of_grows : ∀ {start stop}, Grows start stop → undo start stop = start

/-- A program that changes its state, and that leaves it as it is where it fails. -/
abbrev Stateful (τ : Type) := EStateM CodecError (CodecState τ)

namespace Stateful

variable {τ α : Type}

/-- What is decided without the data. -/
def ask (answer : FieldPath → Except CodecError α) : Stateful τ α := fun state =>
  match answer state.path with
  | .ok a => .ok a state
  | .error error => .error error state

def fail (error : String → CodecError) : Stateful τ α := ask fun path => .error (error path.toText)

def enter (segment : Segment) : Stateful τ Unit :=
  modify fun state => { state with path := state.path.push segment }

def leave : Stateful τ Unit := modify fun state => { state with path := state.path.pop }

/-- Runs one step further along the path. A run that fails does not step back. -/
def within (segment : Segment) (run : Stateful τ α) : Stateful τ α := do
  enter segment
  let a ← run
  leave
  return a

theorem bind_apply {β : Type} (run : Stateful τ α) (next : α → Stateful τ β)
    (start : CodecState τ) :
    (run >>= next) start = match run start with
      | .ok a middle => next a middle
      | .error error stop => .error error stop := by
  show EStateM.bind run next start = _
  rw [EStateM.bind]
  cases run start <;> rfl

theorem within_apply (segment : Segment) (run : Stateful τ α) (start : CodecState τ) :
    within segment run start = match run { start with path := start.path.push segment } with
      | .ok a stop => .ok a { stop with path := stop.path.pop }
      | .error error stop => .error error stop := by
  show (run >>= fun a => do leave; return a) { start with path := start.path.push segment } = _
  rw [bind_apply]
  rfl

/-- Runs one by one, each at its own step. -/
def along (steps : List (Segment × Stateful τ α)) : Stateful τ (List α) :=
  steps.mapM fun step => within step.1 step.2

/-- The runs of items, counting from `index`. -/
def numbered (index : Nat) (runs : List (Stateful τ α)) : List (Segment × Stateful τ α) :=
  (runs.zipIdx index).map fun run => (.index run.2, run.1)

/-- Runs one record deeper, if the limit allows it, and comes back whatever the outcome is. -/
def nested (limit : Nat) (run : Stateful τ α) : Stateful τ α := fun state =>
  if limit ≤ state.depth then fail (.overflow · (state.depth + 1) limit) state
  else
    match run { state with depth := state.depth + 1 } with
    | .ok a stop => .ok a { stop with depth := stop.depth - 1 }
    | .error error stop => .error error { stop with depth := stop.depth - 1 }

theorem nested_of_lt {limit : Nat} {state : CodecState τ} (h : state.depth < limit)
    (run : Stateful τ α) :
    nested limit run state = match run { state with depth := state.depth + 1 } with
      | .ok a stop => .ok a { stop with depth := stop.depth - 1 }
      | .error error stop => .error error { stop with depth := stop.depth - 1 } :=
  if_neg (Nat.not_le.mpr h)

theorem nested_of_le {limit : Nat} {state : CodecState τ} (h : limit ≤ state.depth)
    (run : Stateful τ α) :
    nested limit run state = fail (.overflow · (state.depth + 1) limit) state :=
  if_pos h

-- ---------------------------------------------------------------------------
-- Alternatives
-- ---------------------------------------------------------------------------

/-- Whether no other run is tried after one with the outcome: it goes through or halts. -/
def decides : EStateM.Result CodecError (CodecState τ) α → Bool
  | .ok .. => true
  | .error error _ => error.halts

variable [Undoable τ]

/-- Undoes what was done since the start: what was added to the data is taken back, and the path
is cut to the length that it had. -/
def rollback (start state : CodecState τ) : CodecState τ :=
  { state with
    data := Undoable.undo start.data state.data
    path := state.path.truncate start.path.depth }

/-- Runs the alternatives in turn until one goes through or halts, and undoes what each of the
others has done since the start; `last` is why the one before did not go through. -/
def tryFrom (start : CodecState τ) (last : Option CodecError) : List (Stateful τ α) → Stateful τ α
  | [] => ask fun path => .error (last.getD (.invalidSchema (.noAlternatives path.toText)))
  | run :: runs => fun state =>
    match run state with
    | .ok a stop => .ok a stop
    | .error error stop =>
      if error.halts then .error error stop
      else tryFrom start (some error) runs (rollback start stop)

def select (runs : List (Stateful τ α)) : Stateful τ α := fun start => tryFrom start none runs start

end Stateful

-- ---------------------------------------------------------------------------
-- Decoding
-- ---------------------------------------------------------------------------

/-- The bytes that are still to be read, with the number of those before them. -/
structure Unread where
  offset : Nat
  rest : Bytes

/-- The input itself does not change, so it is enough to know where reading was. -/
instance : Undoable Unread where
  Grows _ _ := True
  refl _ := trivial
  trans _ _ := trivial
  undo start _ := start
  undo_of_grows _ := rfl

def CodecState.place (state : CodecState Unread) : Place :=
  ⟨state.data.offset, state.data.rest, state.path⟩

def Place.withDepth (place : Place) (depth : Nat) : CodecState Unread :=
  ⟨⟨place.offset, place.rest⟩, place.path, depth⟩

abbrev StatefulDecoder := Stateful Unread

namespace StatefulDecoder

open Stateful

/-- The outcome of reading, where so many records are open. -/
def atDepth {α : Type} (depth : Nat) :
    EStateM.Result CodecError Place α → EStateM.Result CodecError (CodecState Unread) α
  | .ok a place => .ok a (place.withDepth depth)
  | .error error place => .error error (place.withDepth depth)

def onPlace {α : Type} (decoder : Decoder α) : StatefulDecoder α := fun state =>
  atDepth state.depth (decoder state.place)

/-- Reads items until the input ends or an item takes nothing of it. -/
def readGreedy (read : StatefulDecoder Value) : Bytes → Nat → List Value →
    StatefulDecoder (List Value)
  | [], _, items => return items.reverse
  | _ :: bound, index, items => fun state =>
    match state.data.rest with
    | [] => .ok items.reverse state
    | _ :: _ =>
      match within (.index index) read state with
      | .error error stop => .error error stop
      | .ok item next =>
        if next.data.offset = state.data.offset then .ok (item :: items).reverse next
        else readGreedy read bound (index + 1) (item :: items) next

theorem readGreedy_cons (read : StatefulDecoder Value) (b : UInt8) (bound : Bytes) (index : Nat)
    (items : List Value) (start : CodecState Unread) (hrest : start.data.rest ≠ []) :
    readGreedy read (b :: bound) index items start =
      match within (.index index) read start with
      | .error error stop => .error error stop
      | .ok item next =>
        if next.data.offset = start.data.offset then .ok (item :: items).reverse next
        else readGreedy read bound (index + 1) (item :: items) next := by
  obtain ⟨first, rest, hr⟩ := List.exists_cons_of_ne_nil hrest
  simp only [readGreedy, hr]

def readFields (read : FieldType → Scope → StatefulDecoder Value) (scope : Document → Scope) :
    List (String × FieldType) → Document → StatefulDecoder Document
  | [], document => return document
  | (name, type) :: fields, document => do
    let value ← within (.name name) (read type (scope document))
    readFields read scope fields (document.insert name value)

/-- Reads a constant. The position may have moved on where another value is found, or where the
input ends. -/
def readConst (expected : Value) (expectedBytes : Unit → Option Bytes)
    (read : StatefulDecoder Value) :
    StatefulDecoder Value := fun start =>
  let mismatch (stop : CodecState Unread) : EStateM.Result CodecError (CodecState Unread) Value :=
    let actual :=
      if start.data.offset < stop.data.offset then
        start.data.rest.take (stop.data.offset - start.data.offset)
      else start.data.rest
    fail (Codec.otherConstant · (expectedBytes ()) (some actual)) stop
  match read start with
  | .ok found stop => if found == expected then .ok found stop else mismatch stop
  | .error (.endOfInput ..) stop => mismatch stop
  | .error error stop => .error error stop

def readBlock (size : Nat) (read : StatefulDecoder Value) : StatefulDecoder Value := do
  onPlace (Decoder.ensure size)
  let start ← get
  let value ← read
  let used := (← get).data.offset - start.data.offset
  if size < used then fail (.validation · (.overrun used size))
  else
    modify fun state =>
      { state with data := ⟨start.data.offset + size, start.data.rest.drop size⟩ }
    return value

end StatefulDecoder

structure StatefulReadContext where
  codec : Codec
  /-- Reading in a record one level deeper. -/
  deeper : FieldType → Scope → StatefulDecoder Value

namespace StatefulReadContext

open Stateful StatefulDecoder

def descend {α : Type} (ctx : StatefulReadContext) (run : StatefulDecoder α) : StatefulDecoder α :=
  nested ctx.codec.options.maxDepth run

def leaf (ctx : StatefulReadContext) (type : FieldType) (scope : Scope) : StatefulDecoder Value :=
  onPlace (ReadContext.read ⟨ctx.codec, none⟩ type scope)

mutual
def read (ctx : StatefulReadContext) : FieldType → Scope → StatefulDecoder Value
  | .int kind order, scope => ctx.leaf (.int kind order) scope
  | .float order, scope => ctx.leaf (.float order) scope
  | .text, scope => ctx.leaf .text scope
  | .id, scope => ctx.leaf .id scope
  | .reversedId, scope => ctx.leaf .reversedId scope
  | .bytes length, scope => ctx.leaf (.bytes length) scope
  | .bool kind order no yes, scope => ctx.leaf (.bool kind order no yes) scope
  | .flags set, scope => ctx.leaf (.flags set) scope
  | .packed unit, scope => ctx.leaf (.packed unit) scope
  | .const inner expected, scope =>
    readConst expected (fun _ => inner.constantBytes ctx.codec expected) (ctx.read inner scope)
  | .enum repr variants, scope => do
    let raw ← ctx.read repr scope
    return .enum (FieldType.variantName? variants raw) raw
  | .record _ fields, scope =>
    ctx.descend do return .struct (← readFields ctx.deeper scope.child fields .empty)
  | .array length element, scope => do
    match ← ask (length.count · scope) with
    | some n => return .array (← along (numbered 0 (List.replicate n (ctx.read element scope))))
    | none => return .array (← readGreedy (ctx.read element scope) (← get).data.rest 0 [])
  | .greedy element, scope =>
    return .array (← readGreedy (ctx.read element scope) (← get).data.rest 0 [])
  | .sequence types, scope => return .array (← along (numbered 0 (ctx.readEach types scope)))
  | .switch on cases default, scope => do
    let discriminant ← ask fun _ => answered (scope.resolve on)
    match ctx.readCase discriminant cases scope with
    | some run => run
    | none => ctx.readDefault discriminant default scope
  | .conditional condition yes no, scope => do
    if ← ask fun _ => answered (condition scope) then ctx.read yes scope else ctx.read no scope
  | .select alternatives, scope => select (ctx.readEach alternatives scope)
  | .checked relation holds inner, scope => do
    let value ← ctx.read inner scope
    if holds value scope then return value else fail (.validation · (.check relation))
  | .padded size inner, scope => readBlock size (ctx.read inner scope)
  | .lazy slot, scope => ctx.descend (ctx.deeper (ctx.codec.definitions slot) scope)
  termination_by structural type => type
def readEach (ctx : StatefulReadContext) : List FieldType → Scope → List (StatefulDecoder Value)
  | [], _ => []
  | type :: types, scope => ctx.read type scope :: ctx.readEach types scope
  termination_by structural types => types
def readCase (ctx : StatefulReadContext) (discriminant : Value) :
    List (Key × FieldType) → Scope → Option (StatefulDecoder Value)
  | (key, type) :: cases, scope =>
    if key.matches discriminant then some (ctx.read type scope)
    else ctx.readCase discriminant cases scope
  | [], _ => none
  termination_by structural cases => cases
def readDefault (ctx : StatefulReadContext) (discriminant : Value) :
    Option FieldType → Scope → StatefulDecoder Value
  | some type, scope => ctx.read type scope
  | none, _ => fail (.unknownVariant · discriminant.toText)
  termination_by structural default => default
end

end StatefulReadContext

-- ---------------------------------------------------------------------------
-- Encoding
-- ---------------------------------------------------------------------------

/-- The bytes written so far. What was added is cut off by the length from before. -/
instance : Undoable Bytes where
  Grows := (· <+: ·)
  refl _ := List.prefix_rfl
  trans := List.IsPrefix.trans
  undo start stop := stop.take start.length
  undo_of_grows h := (List.prefix_iff_eq_take.mp h).symm

abbrev StatefulEncoder := Stateful Bytes

namespace StatefulEncoder

open Stateful

def append (part : Bytes) : StatefulEncoder Unit :=
  modify fun state => { state with data := state.data ++ part }

def put (part : FieldPath → Except CodecError Bytes) :
    StatefulEncoder Unit := do append (← ask part)

/-- Goes on with the number of bytes that a run has written. -/
def counting (run : StatefulEncoder Unit) (rest : Nat → StatefulEncoder Unit) :
    StatefulEncoder Unit := do
  let start := (← get).data.length
  run
  rest ((← get).data.length - start)

def zeros (n : Nat) : StatefulEncoder Unit := append (List.replicate n 0)

/-- Writes the content of a block of `size` bytes, and zeros after it. -/
def writeBlock (size : Nat) (run : StatefulEncoder Unit) : StatefulEncoder Unit :=
  counting run fun used =>
    if size < used then fail (.roundTrip · (.blockTooSmall used size)) else zeros (size - used)

def writeAll (steps : List (Segment × StatefulEncoder Unit)) : StatefulEncoder Unit := do
  let _ ← along steps

/-- The word of a field, from what stands under its name. -/
def packedWord (document : Document) (field : PackedField) (path : FieldPath) :
    Except CodecError UInt64 :=
  match document.get? field.name with
  | some part => Codec.packedWord path field part
  | none => .error (.missingField path.toText)

def writePacked (unit : PackedUnit) (value : Value) : StatefulEncoder Unit := do
  ask fun _ => unit.check
  let document ← ask (Codec.expect · "a struct" value value.asStruct?)
  let words ← along
    (unit.fields.map fun field => (.name field.name, ask (packedWord document field)))
  append (unit.join words)

/-- A field that is absent: a constant is written without its value, and a block around one
is filled if there is room in it. -/
def writeMissing (write : FieldType → Value → Scope → StatefulEncoder Unit) (scope : Scope) :
    FieldType → StatefulEncoder Unit
  | .const inner value => write inner value scope
  | .padded size (.const inner value) => counting (write inner value scope) fun used =>
    zeros (size - used)
  | _ => fail .missingField

def writeFields (write : FieldType → Value → Scope → StatefulEncoder Unit) (scope : Scope)
    (fields : List (String × FieldType)) : StatefulEncoder Unit :=
  match scope.current.names.find? fun name => !(fields.any fun field => field.1 == name) with
  | some name => do
    enter (.name name)
    fail .unknownField
  | none => writeAll (fields.map fun field => (.name field.1,
      match scope.current.get? field.1 with
      | some value => write field.2 value scope
      | none => writeMissing write scope field.2))

end StatefulEncoder

structure StatefulWriteContext where
  codec : Codec
  /-- The bytes of a constant, for the error that reports it. -/
  constantBytes : FieldType → Value → Option Bytes
  /-- Writing in a record one level deeper. -/
  deeper : FieldType → Value → Scope → StatefulEncoder Unit

namespace StatefulWriteContext

open Stateful StatefulEncoder

def descend (ctx : StatefulWriteContext) (run : StatefulEncoder Unit) : StatefulEncoder Unit :=
  nested ctx.codec.options.maxDepth run

def leaf (ctx : StatefulWriteContext) (type : FieldType) (value : Value) (scope : Scope) :
    StatefulEncoder Unit :=
  put fun path => WriteContext.write ⟨ctx.codec, ctx.constantBytes, none⟩ path type value scope

mutual
def write (ctx : StatefulWriteContext) : FieldType → Value → Scope → StatefulEncoder Unit
  | .int kind order, value, scope => ctx.leaf (.int kind order) value scope
  | .float order, value, scope => ctx.leaf (.float order) value scope
  | .text, value, scope => ctx.leaf .text value scope
  | .id, value, scope => ctx.leaf .id value scope
  | .reversedId, value, scope => ctx.leaf .reversedId value scope
  | .bytes length, value, scope => ctx.leaf (.bytes length) value scope
  | .bool kind order no yes, value, scope => ctx.leaf (.bool kind order no yes) value scope
  | .flags set, value, scope => ctx.leaf (.flags set) value scope
  | .packed unit, value, _ => writePacked unit value
  | .const inner expected, value, scope =>
    if value == expected then ctx.write inner expected scope
    else fail (Codec.otherConstant · (ctx.constantBytes inner expected)
      (ctx.constantBytes inner value))
  | .enum repr variants, value, scope => ctx.write repr (Codec.rawValue variants value) scope
  | .record _ fields, value, scope => do
    let document ← ask (Codec.expect · "a struct" value value.asStruct?)
    ctx.descend (writeFields ctx.deeper (scope.child document) fields)
  | .array length element, value, scope => do
    let items ← ask (Codec.expect · "an array" value value.asArray?)
    ask (Codec.checkCount · length scope items.length "elements")
    writeAll (numbered 0 (items.map fun item => ctx.write element item scope))
  | .greedy element, value, scope => do
    let items ← ask (Codec.expect · "an array" value value.asArray?)
    writeAll (numbered 0 (items.map fun item => ctx.write element item scope))
  | .sequence types, value, scope => do
    let items ← ask (Codec.expect · "an array" value value.asArray?)
    if items.length ≠ types.length then fail (.validation · (.wrongArity items.length types.length))
    else writeAll (numbered 0 (ctx.writeItems types items scope))
  | .switch on cases default, value, scope => do
    let discriminant ← ask fun _ => answered (scope.resolve on)
    match ctx.writeCase discriminant cases value scope with
    | some run => run
    | none => ctx.writeDefault discriminant default value scope
  | .conditional condition yes no, value, scope => do
    if ← ask fun _ => answered (condition scope) then ctx.write yes value scope
    else ctx.write no value scope
  | .select alternatives, value, scope => select (ctx.writeEach alternatives value scope)
  | .checked relation holds inner, value, scope =>
    if holds value scope then ctx.write inner value scope
    else fail (.validation · (.check relation))
  | .padded size inner, value, scope => writeBlock size (ctx.write inner value scope)
  | .lazy slot, value, scope => ctx.descend (ctx.deeper (ctx.codec.definitions slot) value scope)
  termination_by structural type => type
def writeItems (ctx : StatefulWriteContext) : List FieldType → List Value → Scope →
    List (StatefulEncoder Unit)
  | type :: types, item :: items, scope =>
    ctx.write type item scope :: ctx.writeItems types items scope
  | _, _, _ => []
  termination_by structural types => types
def writeEach (ctx : StatefulWriteContext) : List FieldType → Value → Scope →
    List (StatefulEncoder Unit)
  | [], _, _ => []
  | type :: types, value, scope => ctx.write type value scope :: ctx.writeEach types value scope
  termination_by structural types => types
def writeCase (ctx : StatefulWriteContext) (discriminant : Value) :
    List (Key × FieldType) → Value → Scope → Option (StatefulEncoder Unit)
  | (key, type) :: cases, value, scope =>
    if key.matches discriminant then some (ctx.write type value scope)
    else ctx.writeCase discriminant cases value scope
  | [], _, _ => none
  termination_by structural cases => cases
def writeDefault (ctx : StatefulWriteContext) (discriminant : Value) :
    Option FieldType → Value → Scope → StatefulEncoder Unit
  | some type, value, scope => ctx.write type value scope
  | none, _, _ => fail (.unknownVariant · discriminant.toText)
  termination_by structural default => default
end

end StatefulWriteContext

-- ---------------------------------------------------------------------------
-- Levels
-- ---------------------------------------------------------------------------

namespace FieldType

/-- Reads a value of a type. No more than `levels` records can be entered from here. -/
def readStateful (codec : Codec) : Nat → FieldType → Scope → StatefulDecoder Value
  | 0 => StatefulReadContext.read ⟨codec, fun _ _ => Stateful.fail (.overflow · 1 0)⟩
  | levels + 1 => StatefulReadContext.read ⟨codec, readStateful codec levels⟩

/-- Writes a value of a type. No more than `levels` records can be entered from here. -/
def writeStateful (codec : Codec) (constantBytes : FieldType → Value → Option Bytes) :
    Nat → FieldType → Value → Scope → StatefulEncoder Unit
  | 0 => StatefulWriteContext.write ⟨codec, constantBytes, fun _ _ _ =>
    Stateful.fail (.overflow · 1 0)⟩
  | levels + 1 => StatefulWriteContext.write
    ⟨codec, constantBytes, writeStateful codec constantBytes levels⟩

end FieldType

/-- Reads a value of a type in any state. Each record counts against the limit, so there are
levels enough. -/
def Codec.readStateful (codec : Codec) : FieldType → Scope → StatefulDecoder Value :=
  FieldType.readStateful codec codec.options.maxDepth

def Codec.writeStateful (codec : Codec) : FieldType → Value → Scope → StatefulEncoder Unit :=
  FieldType.writeStateful codec (FieldType.constantBytes codec) codec.options.maxDepth

end Mapsmith
