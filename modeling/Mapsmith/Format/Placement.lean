import Mapsmith.Format.Fields

/-!
# Placed objects

Doodads and units on the map. Both files start with the same magic. A unit whose
identifier is a random placeholder says how the game picks the actual unit; every
other unit has the pair 0, 1 in its place.
-/

namespace Mapsmith.Placement

open Fields

def placementMagic : Bytes := [0x57, 0x33, 0x64, 0x6F]

def placement : List (String × FieldType) :=
  [("variation", integer),
    ("pos_x", float),
    ("pos_y", float),
    ("pos_z", float),
    ("rotation", float),
    ("scale_x", float),
    ("scale_y", float),
    ("scale_z", float),
    ("visibility", visibility)]

def droppedItems : List (String × FieldType) :=
  [("dropped_item_table_index", integer),
    ("dropped_item_sets_count", integer),
    ("dropped_item_sets", counted "dropped_item_sets_count" itemSet)]

def doodad : FieldType :=
  .record "Doodad"
    ([("doodad_id", .id)] ++ placement ++ [("life_percent", byte)] ++ droppedItems ++
      [("index", integer)])

def terrainDoodad : FieldType :=
  .record "TerrainDoodad"
    [("doodad_id", .id), ("pos_z", integer), ("pos_x", integer), ("pos_y", integer)]

def doodads : Schema where
  name := "DoodadsFile"
  fields :=
    [("file_id", .magic placementMagic),
      ("version", integer),
      ("subversion", integer),
      ("doodads_count", integer),
      ("doodads", counted "doodads_count" doodad),
      ("terrain_doodads_version", integer),
      ("terrain_doodads_count", integer),
      ("terrain_doodads", counted "terrain_doodads_count" terrainDoodad)]

/-- The placeholders `uDNR`, `bDNR` and `iDNR` for units, buildings and items that
the game picks. -/
def randomCodes : List FourCC :=
  [⟨0x75, 0x44, 0x4E, 0x52⟩, ⟨0x62, 0x44, 0x4E, 0x52⟩, ⟨0x69, 0x44, 0x4E, 0x52⟩]

/-- Whether the unit in scope is a random placeholder. -/
def isRandomUnit (scope : Scope) : Except Refusal Bool := do
  match (← scope.resolve (.ofText "unit_id")).asId? with
  | some code => return randomCodes.contains code
  | none => return false

/-- How the game picks a unit. A level of 255 stands for any level. -/
def randomUnit : FieldType :=
  .record "RandomUnit"
    [("type", enumeration integer [("ANY", 0), ("FROM_MAP_TABLE", 1), ("FROM_CUSTOM_TABLE", 2)]),
      ("properties", .switch (.ofText "type")
        [(.name "ANY", .record "AnyRandomUnit"
            [("level", repeated 3 byte),
              ("item_class", enumeration byte
                [("ANY_CLASS", 0), ("PERMANENT", 1), ("CHARGED", 2), ("POWER_UP", 3),
                  ("ARTIFACT", 4), ("PURCHASABLE", 5), ("CAMPAIGN", 6), ("MISCELLANEOUS", 7)])]),
          (.name "FROM_MAP_TABLE", .record "MapTableRandomUnit"
            [("table_index", integer), ("position_index", integer)]),
          (.name "FROM_CUSTOM_TABLE", .record "CustomTableRandomUnit"
            [("units_count", integer),
              ("units", counted "units_count" (.record "RandomUnitChance"
                [("unit_id", .id), ("chance_percent", integer)]))])]
        none)]

def unit : FieldType :=
  .record "UnitDoodad"
    ([("unit_id", .id)] ++ placement ++
      [("owner_player_id", integer),
        ("unknown_property_1", byte),
        ("unknown_property_2", byte),
        ("hitpoints", integer),
        ("manapoints", integer)] ++
      droppedItems ++
      [("gold", integer),
        ("target_acquisition_range", float),
        ("hero_level", integer),
        ("hero_strength", integer),
        ("hero_agility", integer),
        ("hero_intelligence", integer),
        ("inventory_items_count", integer),
        ("inventory_items", counted "inventory_items_count" (.record "InventoryItem"
          [("slot_index", integer), ("item_id", .id)])),
        ("ability_modifications_count", integer),
        ("ability_modifications", counted "ability_modifications_count"
          (.record "AbilityModification"
            [("ability_id", .id), ("is_active", integer), ("level", integer)])),
        ("random_unit", .conditional isRandomUnit randomUnit
          (.sequence [.const integer (.int 0), .const integer (.int 1)])),
        ("waygate_custom_team_color", integer),
        ("waygate_destination_region_index", integer),
        ("index", integer)])

def unitDoodads : Schema where
  name := "UnitDoodadsFile"
  fields :=
    [("file_id", .magic placementMagic),
      ("version", integer),
      ("subversion", integer),
      ("units_count", integer),
      ("units", counted "units_count" unit)]

end Mapsmith.Placement
