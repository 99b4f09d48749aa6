import Mapsmith.Format.Fields
import Mapsmith.Schema.Decode

/-!
# Object data

Changes to the objects of the game, in two layouts of one shape. The plain layout
serves units, items, destructibles and buffs; abilities, doodads and upgrades have
a variation and a data column in each modification. `decode` tells them
apart by trying both.
-/

namespace Mapsmith.Objects

open Fields

/-- Whether a modification says where in its object it belongs. -/
inductive ObjectLayout where
  | plain
  | withVariations
  deriving DecidableEq, Repr

/-- Whether a value is the new or the original identifier of the object around
the modification in scope. -/
def namesEnclosingObject (value : Value) (scope : Scope) : Bool :=
  ["_.new_object_id", "_.original_object_id"].any fun path =>
    match scope.resolve (.ofText path) with
    | .ok found => found == value
    | .error _ => false

/-- Zero, or the identifier of the object that a modification belongs to. -/
def parentObjectId : FieldType :=
  .select
    [.const integer (.int 0),
      .checked "must equal the enclosing object's new or original id" namesEnclosingObject .id]

def modificationValue : FieldType :=
  .switch (.ofText "variable_type")
    [(.name "INT", integer), (.name "REAL", float), (.name "UNREAL", float),
      (.name "STRING", .text)]
    none

def variationFields : ObjectLayout → List (String × FieldType)
  | .plain => []
  | .withVariations =>
    [("variation", integer),
      ("ability_data_column", enumeration integer
        [("A", 0), ("B", 1), ("C", 2), ("D", 3), ("F", 4), ("G", 5), ("H", 6)])]

def modificationName : ObjectLayout → String
  | .plain => "ObjectModification"
  | .withVariations => "ObjectModificationWithVariation"

def modification (layout : ObjectLayout) : FieldType :=
  .record (modificationName layout)
    ([("modification_id", .id),
        ("variable_type", enumeration integer
          [("INT", 0), ("REAL", 1), ("UNREAL", 2), ("STRING", 3)])] ++
      variationFields layout ++
      [("value", modificationValue), ("parent_object_id", parentObjectId)])

def table (layout : ObjectLayout) : FieldType :=
  .record "ObjectTable"
    [("objects_count", integer),
      ("objects", counted "objects_count" (.record "ObjectDefinition"
        [("original_object_id", .id),
          ("new_object_id", .id),
          ("modifications_count", integer),
          ("modifications", counted "modifications_count" (modification layout))]))]

def fileName : ObjectLayout → String
  | .plain => "ObjectsFile"
  | .withVariations => "ObjectsWithVariationsFile"

def schema (layout : ObjectLayout) : Schema where
  name := fileName layout
  fields :=
    [("version", integer),
      ("original_objects_table", table layout),
      ("custom_objects_table", table layout)]

def decode (bytes : Bytes) : Except CodecError (ObjectLayout × Document) := do
  let (index, document) ←
    Schema.decodeFirst [schema .withVariations, schema .plain] {} bytes
  return (if index = 0 then .withVariations else .plain, document)

def encode (layout : ObjectLayout) (document : Document) : Except CodecError Bytes :=
  (schema layout).encode {} document

end Mapsmith.Objects
