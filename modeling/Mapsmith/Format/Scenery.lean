import Mapsmith.Format.Fields

/-!
# Scenery

Sounds, regions, cameras, minimap icons and imported files: lists after a
version, each counted by the field before it.
-/

namespace Mapsmith.Scenery

open Fields

/-- A sound. Where a value is not set, texts are empty, integers are -1 and floats
have the bits `0x4F800000`. -/
def sound : FieldType :=
  .record "Sound"
    [("variable", .text),
      ("file_path", .text),
      ("eax_effect", textEnumeration .text
        [("UNSET", ""), ("DEFAULT", "DefaultEAXON"), ("COMBAT", "CombatSoundsEAX"),
          ("DRUM", "KotoDrumsEAX"), ("SPELL", "SpellsEAX"), ("MISSILE", "MissilesEAX"),
          ("SPEECH", "HeroAcksEAX"), ("DOODAD", "DoodadsEAX")]),
      ("flags", flags .i32
        [("is_looping", 0x01), ("is_3d", 0x02), ("stops_out_of_range", 0x04), ("is_music", 0x08)]),
      ("fade_in_rate", integer),
      ("fade_out_rate", integer),
      ("volume", integer),
      ("pitch", float),
      ("unknown_field_1", float),
      ("unknown_field_2", integer),
      ("channel", enumeration integer
        [("UNSET", -1), ("GENERAL", 0), ("UNIT_SELECTION", 1), ("UNIT_ACKNOWLEDGEMENT", 2),
          ("UNIT_MOVEMENT", 3), ("UNIT_READY", 4), ("COMBAT", 5), ("ERROR", 6), ("MUSIC", 7),
          ("USER_INTERFACE", 8), ("LOOPING_MOVEMENT", 9), ("LOOPING_AMBIENT", 10),
          ("ANIMATIONS", 11), ("CONSTRUCTIONS", 12), ("BIRTH", 13), ("FIRE", 14)]),
      ("distance_min", float),
      ("distance_max", float),
      ("distance_cutoff", float),
      ("unknown_field_3", float),
      ("unknown_field_4", float),
      ("unknown_field_5", integer),
      ("unknown_field_6", float),
      ("unknown_field_7", float),
      ("unknown_field_8", float)]

def sounds : Schema where
  name := "SoundsFile"
  fields :=
    [("version", integer), ("sounds_count", integer), ("sounds", counted "sounds_count" sound)]

def region : FieldType :=
  .record "Region"
    [("left", float),
      ("right", float),
      ("bottom", float),
      ("top", float),
      ("name", .text),
      ("index", integer),
      ("weather_effect_id", .id),
      ("ambient_sound_variable", .text),
      ("color", .padded 4 (.record "RegionColor" [("b", byte), ("g", byte), ("r", byte)]))]

def regions : Schema where
  name := "RegionsFile"
  fields :=
    [("version", integer), ("regions_count", integer), ("regions", counted "regions_count" region)]

def camera : FieldType :=
  .record "Camera"
    [("target_x", float),
      ("target_y", float),
      ("offset_z", float),
      ("rotation", float),
      ("angle_of_attack", float),
      ("distance", float),
      ("roll", float),
      ("field_of_view", float),
      ("far_clipping", float),
      ("unknown_field_1", float),
      ("name", .text)]

def cameras : Schema where
  name := "CamerasFile"
  fields :=
    [("version", integer), ("cameras_count", integer), ("cameras", counted "cameras_count" camera)]

def minimapIcon : FieldType :=
  .record "MinimapIcon"
    [("type", enumeration integer [("GOLDMINE", 0), ("SHOP", 1), ("PLAYER", 2)]),
      ("coord_x", integer),
      ("coord_y", integer),
      ("color", .record "IconColor" [("b", byte), ("g", byte), ("r", byte), ("a", byte)])]

def minimapIcons : Schema where
  name := "MinimapIconsFile"
  fields :=
    [("version", integer), ("icons_count", integer), ("icons", counted "icons_count" minimapIcon)]

/-- An imported file; 5 and 8 mark a standard path, 10 and 13 one of its own. -/
def importedFile : FieldType :=
  .record "Import" [("is_custom_path", byte), ("path", .text)]

def imports : Schema where
  name := "ImportsFile"
  fields :=
    [("version", integer), ("imports_count", integer),
      ("imports", counted "imports_count" importedFile)]

end Mapsmith.Scenery
