import Mapsmith.Value.Basic
import Mapsmith.Schema.Path

/-!
# Editing documents

`Change.inDocument?`: changes at a path into a document: setting a field or an element,
removing it, and appending to an array. A change fails when its path leads nowhere.
-/

namespace Mapsmith

/-- A change at the end of a path. -/
inductive Change where
  /-- Puts a value in place; a new field goes to the end of its record. -/
  | set (value : Value)
  | remove
  /-- Appends to the array at the path. -/
  | push (value : Value)

namespace Document

/-- The document without the field, the other fields in their order. -/
def erase (doc : Document) (name : String) : Document :=
  ⟨doc.entries.filter fun entry => entry.1 != name⟩

end Document

namespace Change

/-- Changes a value at a path. -/
def inValue? : Change → List Segment → Value → Option Value
  | .push new, [], .array items => some (.array (items ++ [new]))
  | .set new, [.name name], .struct doc => some (.struct (doc.insert name new))
  | .set new, [.index n], .array items =>
    if n < items.length then some (.array (items.set n new)) else none
  | .remove, [.name name], .struct doc => do
    let _ ← doc.get? name
    some (.struct (doc.erase name))
  | .remove, [.index n], .array items =>
    if n < items.length then some (.array (items.eraseIdx n)) else none
  | change, .name name :: rest, .struct doc => do
    some (.struct (doc.insert name (← change.inValue? rest (← doc.get? name))))
  | change, .index n :: rest, .array items => do
    some (.array (items.set n (← change.inValue? rest (← items[n]?))))
  | _, _, _ => none
  termination_by structural _ path => path

def inDocument? (change : Change) (path : List Segment) (doc : Document) : Option Document := do
  (← change.inValue? path (.struct doc)).asStruct?

end Change

end Mapsmith
