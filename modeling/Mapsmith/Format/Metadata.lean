import Mapsmith.Format.Fields

/-!
# Map information

What the lobby shows before a game starts, the players and forces, and the random
tables to which other files refer by index.
-/

namespace Mapsmith.Metadata

open Fields

def player : FieldType :=
  .record "Player"
    [("id", integer),
      ("type", enumeration integer
        [("USER", 1), ("COMPUTER", 2), ("NEUTRAL", 3), ("RESCUABLE", 4)]),
      ("race", enumeration integer [("HUMAN", 1), ("ORC", 2), ("UNDEAD", 3), ("NIGHTELF", 4)]),
      ("fixed_start_position", integer),
      ("name", .text),
      ("start_position_x", float),
      ("start_position_y", float),
      ("ally_low_priority_flags", playerFlags),
      ("ally_high_priority_flags", playerFlags)]

def force : FieldType :=
  .record "Force"
    [("flags", flags .i32
        [("allied", 0x01), ("allied_victory", 0x02), ("share_vision", 0x04),
          ("share_unit_control", 0x10), ("share_advanced_unit_control", 0x20)]),
      ("player_mask_flags", playerFlags),
      ("name", .text)]

/-- A table of random units. Each row has one identifier for each position, and
any of them may be a random placeholder. -/
def randomUnitTable : FieldType :=
  .record "RandomUnitTable"
    [("index", integer),
      ("name", .text),
      ("positions_count", integer),
      ("positions", counted "positions_count"
        (enumeration integer [("UNITS", 0), ("BUILDINGS", 1), ("ITEMS", 2)])),
      ("units_count", integer),
      ("units", counted "units_count" (.record "RandomUnitRow"
        [("chance_percent", integer),
          ("unit_ids", .bytes (.scaled (.ofText "_.positions_count") 4))]))]

def randomItemTable : FieldType :=
  .record "RandomItemTable"
    [("index", integer),
      ("name", .text),
      ("sets_count", integer),
      ("sets", counted "sets_count" (.record "RandomItemSet"
        [("items_count", integer),
          ("items", counted "items_count" (.record "RandomItemChance"
            [("chance_percent", integer), ("item_id", .id)]))]))]

def schema : Schema where
  name := "MetadataFile"
  fields :=
    [("version", integer),
      ("number_of_saves", integer),
      ("editor_version", integer),
      ("name", .text),
      ("author", .text),
      ("description", .text),
      ("recommended_players", .text),
      ("camera_bounds", repeated 8 float),
      ("camera_bounds_padding", repeated 4 integer),
      ("playable_area_width", integer),
      ("playable_area_height", integer),
      ("flags", mapFlags),
      ("ground_type_tileset_id", tileset),
      ("loading_screen_preset_index", integer),
      ("loading_screen_custom_path", .text),
      ("loading_screen_text", .text),
      ("loading_screen_title", .text),
      ("loading_screen_subtitle", .text),
      ("game_data_set_index", integer),
      ("prologue_screen_path", .text),
      ("prologue_screen_text", .text),
      ("prologue_screen_title", .text),
      ("prologue_screen_subtitle", .text),
      ("terrain_fog_style", integer),
      ("terrain_fog_start_z", float),
      ("terrain_fog_end_z", float),
      ("terrain_fog_density", float),
      ("terrain_fog_color", color),
      ("global_weather_id", .id),
      ("custom_sound_environment", .text),
      ("custom_light_environment_tileset_id", tileset),
      ("water_color", color),
      ("players_count", integer),
      ("players", counted "players_count" player),
      ("forces_count", integer),
      ("forces", counted "forces_count" force),
      ("upgrade_availability_changes_count", integer),
      ("upgrade_availability_changes", counted "upgrade_availability_changes_count"
        (.record "UpgradeAvailabilityChange"
          [("flags", playerFlags), ("upgrade_id", .id), ("level_changed", integer),
            ("availability", integer)])),
      ("tech_availability_changes_count", integer),
      ("tech_availability_changes", counted "tech_availability_changes_count"
        (.record "TechAvailabilityChange" [("flags", playerFlags), ("tech_id", .id)])),
      ("random_unit_tables_count", integer),
      ("random_unit_tables", counted "random_unit_tables_count" randomUnitTable),
      ("random_item_tables_count", integer),
      ("random_item_tables", counted "random_item_tables_count" randomItemTable)]

end Mapsmith.Metadata
