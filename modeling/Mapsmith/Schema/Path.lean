/-!
# Field paths

Where in a document a field stands, such as `doodads[3].pos_x`.
-/

namespace Mapsmith

/-- One step into a document: to a named field or to an element. -/
inductive Segment where
  | name (text : String)
  | index (n : Nat)
  deriving DecidableEq, Repr

/-- Steps from the root to a field, the last one first. -/
structure FieldPath where
  segments : List Segment
  deriving DecidableEq, Repr

namespace FieldPath

def root : FieldPath := ⟨[]⟩

def push (path : FieldPath) (segment : Segment) : FieldPath := ⟨segment :: path.segments⟩

def pop (path : FieldPath) : FieldPath := ⟨path.segments.tail⟩

def depth (path : FieldPath) : Nat := path.segments.length

def truncate (path : FieldPath) (depth : Nat) : FieldPath :=
  ⟨path.segments.drop (path.depth - depth)⟩

@[simp] theorem pop_push (path : FieldPath) (segment : Segment) : (path.push segment).pop = path :=
  rfl

@[simp] theorem depth_push (path : FieldPath) (segment : Segment) :
    (path.push segment).depth = path.depth + 1 :=
  rfl

theorem truncate_of_suffix {path longer : FieldPath} (h : path.segments <:+ longer.segments) :
    longer.truncate path.depth = path := by
  obtain ⟨added, hadded⟩ := h
  have hdepth : longer.depth - path.depth = added.length := by
    rw [depth, depth, ← hadded, List.length_append, Nat.add_sub_cancel]
  rw [truncate, hdepth, ← hadded, List.drop_left]

def Segment.text : Segment → String
  | .name text => "." ++ text
  | .index n => "[" ++ toString n ++ "]"

/-- The path as errors show it: names after dots, indices in brackets. -/
def toText (path : FieldPath) : String :=
  match path.segments.reverse with
  | [] => "<root>"
  | first :: rest =>
    let start := match first with
      | .name text => text
      | .index n => "[" ++ toString n ++ "]"
    rest.foldl (fun out segment => out ++ Segment.text segment) start

end FieldPath

end Mapsmith
