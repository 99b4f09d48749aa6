import Mapsmith.Format.Container
import Mapsmith.Format.Metadata
import Mapsmith.Format.Objects
import Mapsmith.Format.Observer
import Mapsmith.Format.Placement
import Mapsmith.Format.Scenery
import Mapsmith.Format.Terrain
import Mapsmith.Format.Triggers

/-!
# The known formats

`Format.ofText?`, `Format.decode`: each format has a short name, a schema and, if it is a file
of a map, the name of the archive entry it is stored under. A format is found by either name.
-/

namespace Mapsmith

inductive Format where
  | doodads
  | unitDoodads
  | tileMap
  | pathMap
  | shadowMap
  | unitObjects
  | itemObjects
  | destructableObjects
  | buffObjects
  | doodadObjects
  | abilityObjects
  | upgradeObjects
  | triggers
  | customTriggers
  | sounds
  | regions
  | cameras
  | metadata
  | minimapIcons
  | imports
  | map
  | mapFooter
  | observer
  deriving DecidableEq, Repr

namespace Format

/-- The formats in the order in which they are listed. -/
def all : List Format :=
  [.doodads, .unitDoodads, .tileMap, .pathMap, .shadowMap, .unitObjects, .itemObjects,
    .destructableObjects, .buffObjects, .doodadObjects, .abilityObjects, .upgradeObjects,
    .triggers, .customTriggers, .sounds, .regions, .cameras, .metadata, .minimapIcons, .imports,
    .map, .mapFooter, .observer]

theorem mem_all (format : Format) : format ∈ all := by
  cases format <;> simp [all]

def name : Format → String
  | .doodads => "doodads"
  | .unitDoodads => "unit-doodads"
  | .tileMap => "tile-map"
  | .pathMap => "path-map"
  | .shadowMap => "shadow-map"
  | .unitObjects => "unit-objects"
  | .itemObjects => "item-objects"
  | .destructableObjects => "destructable-objects"
  | .buffObjects => "buff-objects"
  | .doodadObjects => "doodad-objects"
  | .abilityObjects => "ability-objects"
  | .upgradeObjects => "upgrade-objects"
  | .triggers => "triggers"
  | .customTriggers => "custom-triggers"
  | .sounds => "sounds"
  | .regions => "regions"
  | .cameras => "cameras"
  | .metadata => "metadata"
  | .minimapIcons => "minimap-icons"
  | .imports => "imports"
  | .map => "map"
  | .mapFooter => "map-footer"
  | .observer => "observer"

/-- The archive entry of a format. The map itself, its footer and the statistics
of a match are not entries of a map. -/
def entry? : Format → Option String
  | .doodads => some "war3map.doo"
  | .unitDoodads => some "war3mapUnits.doo"
  | .tileMap => some "war3map.w3e"
  | .pathMap => some "war3map.wpm"
  | .shadowMap => some "war3map.shd"
  | .unitObjects => some "war3map.w3u"
  | .itemObjects => some "war3map.w3t"
  | .destructableObjects => some "war3map.w3b"
  | .buffObjects => some "war3map.w3h"
  | .doodadObjects => some "war3map.w3d"
  | .abilityObjects => some "war3map.w3a"
  | .upgradeObjects => some "war3map.w3q"
  | .triggers => some "war3map.wtg"
  | .customTriggers => some "war3map.wct"
  | .sounds => some "war3map.w3s"
  | .regions => some "war3map.w3r"
  | .cameras => some "war3map.w3c"
  | .metadata => some "war3map.w3i"
  | .minimapIcons => some "war3map.mmp"
  | .imports => some "war3map.imp"
  | .map | .mapFooter | .observer => none

def schema : Format → Schema
  | .doodads => Placement.doodads
  | .unitDoodads => Placement.unitDoodads
  | .tileMap => Terrain.tileMap
  | .pathMap => Terrain.pathMap
  | .shadowMap => Terrain.shadowMap
  | .unitObjects | .itemObjects | .destructableObjects | .buffObjects => Objects.schema .plain
  | .doodadObjects | .abilityObjects | .upgradeObjects => Objects.schema .withVariations
  | .triggers => Triggers.schema
  | .customTriggers => Triggers.customSchema
  | .sounds => Scenery.sounds
  | .regions => Scenery.regions
  | .cameras => Scenery.cameras
  | .metadata => Metadata.schema
  | .minimapIcons => Scenery.minimapIcons
  | .imports => Scenery.imports
  | .map => Container.schema
  | .mapFooter => Container.footerSchema
  | .observer => Observer.schema

/-- Equality up to the case of ASCII letters. -/
def sameIgnoringCase (a b : String) : Bool :=
  a.toList.map Char.toLower == b.toList.map Char.toLower

def ofEntry? (name : String) : Option Format :=
  all.find? fun format => format.entry?.any (sameIgnoringCase · name)

def ofText? (text : String) : Option Format :=
  (all.find? fun format => format.name == text) <|> ofEntry? text

def decode (format : Format) (options : CodecOptions) (bytes : Bytes) :
    Except CodecError Document :=
  format.schema.decode options bytes

def encode (format : Format) (options : CodecOptions) (document : Document) :
    Except CodecError Bytes :=
  format.schema.encode options document

end Format

end Mapsmith
