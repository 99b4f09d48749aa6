import Mapsmith.Schema.FieldType

/-!
# Fields of map files

Field types that several formats share. Integers are four bytes, signed and
little-endian; floats are little-endian too.
-/

namespace Mapsmith.Fields

def integer : FieldType := .int .i32 .little

def short : FieldType := .int .i16 .little

def byte : FieldType := .int .u8 .little

def unsigned : FieldType := .int .u32 .little

def float : FieldType := .float .little

def counted (count : String) (element : FieldType) : FieldType :=
  .array (.field (.ofText count)) element

def repeated (n : Nat) (element : FieldType) : FieldType := .array (.fixed n) element

def enumeration (repr : FieldType) (variants : List (String × Int64)) : FieldType :=
  .enum repr (variants.map fun variant => (variant.1, .int variant.2))

def textEnumeration (repr : FieldType) (variants : List (String × String)) : FieldType :=
  .enum repr (variants.map fun variant => (variant.1, .str variant.2))

def flags (kind : IntKind) (masks : List (String × UInt64)) : FieldType :=
  .flags ⟨kind, .little, masks⟩

def color : FieldType :=
  .record "Color" [("r", byte), ("g", byte), ("b", byte), ("a", byte)]

def mapFlags : FieldType :=
  flags .i32
    [("preview_screen_hide_minimap", 0x0001), ("modify_ally_priorities", 0x0002),
      ("is_melee_map", 0x0004), ("is_large_map", 0x0008),
      ("masked_area_partially_visible", 0x0010), ("fixed_player_settings_custom_forces", 0x0020),
      ("use_custom_forces", 0x0040), ("use_custom_techtree", 0x0080),
      ("use_custom_abilities", 0x0100), ("use_custom_upgrades", 0x0200),
      ("map_properties_menu_first_open", 0x0400), ("cliff_shores_show_water_waves", 0x0800),
      ("rolling_shores_show_water_waves", 0x1000), ("use_terrain_fog", 0x2000),
      ("unknown_flag_1", 0x4000), ("use_item_classification_system", 0x8000)]

/-- Tilesets, by the code of the letter that the game has for each. -/
def tileset : FieldType :=
  enumeration byte
    [("ASHENVALE", 65), ("BARRENS", 66), ("FELWOOD", 67), ("DUNGEON", 68),
      ("LORDAERONFALL", 70), ("UNDERGROUND", 71), ("LORDAERONSUMMER", 76), ("NORTHREND", 78),
      ("VILLAGEFALL", 81), ("VILLAGE", 86), ("LORDAERONWINTER", 87), ("DALARAN", 88),
      ("CITYSCAPE", 89), ("SUNKENRUINS", 90), ("ICECROWN", 73), ("DALARANRUINS", 74),
      ("OUTLAND", 79), ("BLACKCITADEL", 75)]

/-- One flag for each of the 24 player slots. -/
def playerFlags : FieldType :=
  flags .i32 ((List.range 24).map fun slot =>
    ("player_" ++ toString slot, UInt64.ofNat (Nat.pow 2 slot)))

/-- Items that a unit or a destructible drops when it dies. -/
def itemSet : FieldType :=
  .record "ItemSet"
    [("items_count", integer),
      ("items", counted "items_count" (.record "ItemChance"
        [("item_id", .id), ("chance_percent", integer)]))]

/-- Visibility and solidity of a placed object. -/
def visibility : FieldType :=
  enumeration byte
    [("INVISIBLE_NONSOLID", 0), ("VISIBLE_NONSOLID", 1), ("VISIBLE_SOLID", 2),
      ("OUT_OF_BOUNDS", 3)]

end Mapsmith.Fields
