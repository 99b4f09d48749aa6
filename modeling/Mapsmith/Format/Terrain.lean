import Mapsmith.Format.Fields

/-!
# Terrain

The grid of the map: tile points with their heights and textures, the pathing of
each cell, and the shadows. Only the tile map and the path map carry a size; the
shadow map fills its file.
-/

namespace Mapsmith.Terrain

open Fields

/-- The packed part of a tile point, three bytes with the first field on top. -/
def tileBits : PackedUnit where
  size := 3
  order := .highFirst
  fields :=
    [⟨"flags", 4, some ⟨.u8, .little,
        [("ramps", 0x1), ("use_blight_default", 0x2), ("water_enabled", 0x4),
          ("boundary_flag_second", 0x8)]⟩⟩,
      ⟨"ground_texture_type", 4, none⟩,
      ⟨"texture_details", 8, none⟩,
      ⟨"cliff_texture_type", 4, none⟩,
      ⟨"layer_height", 4, none⟩]

/-- A point of the grid. Bit 14 of its water level is its first boundary flag. -/
def tilePoint : FieldType :=
  .record "TilePoint" [("ground_height", short), ("water_level", short),
    ("packed", .packed tileBits)]

def tileMapMagic : Bytes := [0x57, 0x33, 0x45, 0x21]

def tileMap : Schema where
  name := "TileMapFile"
  fields :=
    [("file_id", .magic tileMapMagic),
      ("version", integer),
      ("tileset_id", tileset),
      ("custom_tilesets", integer),
      ("ground_tileset_ids_count", integer),
      ("ground_tileset_ids", counted "ground_tileset_ids_count" .id),
      ("cliff_tileset_ids_count", integer),
      ("cliff_tileset_ids", counted "cliff_tileset_ids_count" .id),
      ("tile_map_width", integer),
      ("tile_map_height", integer),
      ("tile_map_center_offset_x", float),
      ("tile_map_center_offset_y", float),
      ("tile_map",
        .array (.product (.ofText "tile_map_width") (.ofText "tile_map_height")) tilePoint)]

def pathMapMagic : Bytes := [0x4D, 0x50, 0x33, 0x57]

def pathMap : Schema where
  name := "PathMapFile"
  fields :=
    [("header", .record "PathMapHeader"
        [("file_id", .magic pathMapMagic),
          ("version", integer),
          ("path_map_width", integer),
          ("path_map_height", integer)]),
      ("data",
        .array (.product (.ofText "header.path_map_width") (.ofText "header.path_map_height"))
          (flags .u8
            [("can_walk", 0x02), ("can_fly", 0x04), ("can_build", 0x08), ("is_blight", 0x20),
              ("is_ground", 0x40), ("is_unknown", 0x80)]))]

/-- One byte for each cell: no shadow or shadow, and nothing else. -/
def shadowMap : Schema where
  name := "ShadowMapFile"
  fields := [("shadow_map", .greedy (.bool .u8 .little 0x00 0xFF))]

end Mapsmith.Terrain
