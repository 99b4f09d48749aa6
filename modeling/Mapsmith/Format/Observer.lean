import Mapsmith.Format.Fields

/-!
# Match statistics

The block of memory in which the game publishes the statistics of a running
match. Identifiers have their last byte first, and names and lists lie in blocks
of fixed size, so that each player takes as many bytes as the next.
-/

namespace Mapsmith.Observer

open Fields

def name (size : Nat) : FieldType := .padded size .text

def research : FieldType :=
  .record "ObserverPlayerResearch"
    [("id", .reversedId),
      ("name", name 100),
      ("progress_percent", unsigned),
      ("type", enumeration byte [("UPGRADE", 0), ("UNIT", 1)])]

def unit : FieldType :=
  .record "ObserverPlayerUnit"
    [("id", .reversedId),
      ("name", name 100),
      ("owning_player_id", unsigned),
      ("alive_count", unsigned),
      ("total_count", unsigned)]

def upgrade : FieldType :=
  .record "ObserverPlayerUpgrade"
    [("id", .reversedId),
      ("class", textEnumeration (name 100)
        [("NONE", "_"), ("ARMOR", "armor"), ("ARTILLERY", "artillery"), ("MELEE", "melee"),
          ("RANGED", "ranged"), ("CASTER", "caster")]),
      ("level", unsigned),
      ("level_max", unsigned),
      ("unknown_int_1", unsigned)]

def building : FieldType :=
  .record "ObserverPlayerBuilding"
    [("id", .reversedId),
      ("name", name 100),
      ("progress_percent", unsigned),
      ("upgrade_progress_percent", unsigned)]

def item : FieldType :=
  .record "ObserverPlayerHeroItem"
    [("id", .reversedId), ("name", name 100), ("slot", unsigned), ("charges", unsigned)]

def ability : FieldType :=
  .record "ObserverPlayerHeroAbility"
    [("id", .reversedId),
      ("name", name 38),
      ("unknown_flag_1", byte),
      ("unknown_flag_2", byte),
      ("cooldown", float),
      ("level", unsigned)]

def hero : FieldType :=
  .padded 2060 (.record "ObserverPlayerHero"
    [("id", .reversedId),
      ("class", name 100),
      ("level", unsigned),
      ("experience", unsigned),
      ("experience_max", unsigned),
      ("hitpoints", unsigned),
      ("hitpoints_max", unsigned),
      ("mana", unsigned),
      ("mana_max", unsigned),
      ("abilities_count", unsigned),
      ("abilities", .padded 1248 (counted "abilities_count" ability)),
      ("items_count", unsigned),
      ("items", counted "items_count" item)])

def player : FieldType :=
  .padded 2510604 (.record "ObserverPlayer"
    [("name", name 36),
      ("race_preference", enumeration byte
        [("HUMAN", 0x01), ("ORC", 0x02), ("NIGHTELF", 0x04), ("UNDEAD", 0x08), ("DEMON", 0x10),
          ("RANDOM", 0x20), ("SELECTABLE", 0x40)]),
      ("race", enumeration byte
        [("UNKNOWN", 0), ("HUMAN", 1), ("ORC", 2), ("UNDEAD", 3), ("NIGHTELF", 4), ("DEMON", 5),
          ("LAST", 6), ("OTHER", 7), ("CREEP", 8), ("COMMONER", 9), ("CRITTER", 10),
          ("NAGA", 11)]),
      ("id", byte),
      ("team_index", byte),
      ("team_color", byte),
      ("type", enumeration byte
        [("EMPTY", 0), ("PLAYER", 1), ("COMPUTER", 2), ("NEUTRAL", 3), ("OBSERVER", 4),
          ("NONE", 5), ("OTHER", 6)]),
      ("handicap", unsigned),
      ("game_result", enumeration byte
        [("VICTORY", 0), ("DEFEAT", 1), ("TIE", 2), ("IN_PROGRESS", 3)]),
      ("slot_state", enumeration byte [("EMPTY", 0), ("PLAYING", 1), ("LEFT", 2)]),
      ("ai_difficulty", enumeration byte [("EASY", 0), ("NORMAL", 1), ("INSANE", 2)]),
      ("apm", unsigned),
      ("apm_realtime", unsigned),
      ("gold", unsigned),
      ("gold_mined", unsigned),
      ("gold_taxed", unsigned),
      ("gold_tax", unsigned),
      ("lumber", unsigned),
      ("lumber_harvested", unsigned),
      ("lumber_taxed", unsigned),
      ("lumber_tax", unsigned),
      ("food_max", unsigned),
      ("food", unsigned),
      ("heroes_count", unsigned),
      ("heroes", .padded 2057940 (counted "heroes_count" hero)),
      ("buildings_on_map_count", unsigned),
      ("buildings_on_map", .padded 111888 (counted "buildings_on_map_count" building)),
      ("upgrades_completed_count", unsigned),
      ("upgrades_completed", .padded 115884 (counted "upgrades_completed_count" upgrade)),
      ("units_on_map_count", unsigned),
      ("units_on_map", .padded 115884 (counted "units_on_map_count" unit)),
      ("researches_in_progress_count", unsigned),
      ("researches_in_progress",
        .padded 108891 (counted "researches_in_progress_count" research))])

/-- The statistics of a match, its time in milliseconds. -/
def schema : Schema where
  name := "ObserverFile"
  fields :=
    [("version", unsigned),
      ("refresh_rate", unsigned),
      ("game", .record "ObserverGame"
        [("is_in_game", .bool .u8 .little 0 1),
          ("game_time", unsigned),
          ("players_count", byte),
          ("game_name", name 256),
          ("map_name", name 256)]),
      ("players", counted "game.players_count" player)]

end Mapsmith.Observer
