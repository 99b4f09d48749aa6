import Mapsmith.Files
import Mapsmith.Format.Registry
import Mapsmith.Script.Error

/-!
# Failures of commands

Why a command could not do what it was asked to. `CommandError.message` is the one
place that words it.
-/

namespace Mapsmith

inductive CommandError where
  | codec (error : CodecError)
  | script (error : Script.ScriptError)
  /-- The name of a file is that of no entry. -/
  | formatUnknown (name : String)
  | unreadable (path : String)
  | unwritable (path : String)
  | badLookups (path : String)
  | unwalkable (error : WalkError)
  /-- A directory cannot be searched for scripts. -/
  | unsearchable (directory : String)
  /-- What is encoded again differs at an offset. -/
  | different (format : Format) (offset : Nat)
  | noMapFiles (directory : String)
  | filesFailed (count : Nat)
  | noScripts (directory : String)
  | notFormatted (count total : Nat)
  | noFunction (id : String)

def CommandError.message : CommandError → String
  | .codec error => error.message
  | .script error => error.message
  | .formatUnknown name =>
    "cannot tell the format of " ++ accented name ++ ", pass --format to choose one"
  | .unreadable path => "path: " ++ path
  | .unwritable path => "writing " ++ path
  | .badLookups path => "parsing lookups from " ++ path
  | .unwalkable error => error.message
  | .unsearchable directory => "walking " ++ directory
  | .different format offset =>
    "re-encoded " ++ format.name ++ " differs from the input at byte " ++ markedHex offset
  | .noMapFiles directory => "no known map files in " ++ directory
  | .filesFailed count => toString count ++ " files failed to decode"
  | .noScripts directory => "no scripts found in " ++ directory
  | .notFormatted count total =>
    toString count ++ " of " ++ toString total ++ " scripts are not formatted"
  | .noFunction id => "no function named " ++ accented id

end Mapsmith
