import Mapsmith.Archive
import Mapsmith.Command.Basic
import Mapsmith.Command.Error
import Mapsmith.Command.Listing
import Mapsmith.Command.Workspace
import Mapsmith.FileName
import Mapsmith.Schema.LookupText
import Mapsmith.Script.Rename
import Mapsmith.Value.Text

/-!
# Jobs

`Command.run`: what each command does in a workspace. A job that fails leaves what it has
printed and written before.
-/

namespace Mapsmith

abbrev Job (m : Type → Type) := ExceptT CommandError m

namespace Job

open Workspace

variable {m : Type → Type} [Monad m] [Workspace m]

def put (text : String) : Job m Unit := ExceptT.lift (print text)

def readBytes (path : String) : Job m Bytes := do
  match ← ExceptT.lift (readFile? path) with
  | some bytes => return bytes
  | none => throw (.unreadable path)

def readText (path : String) : Job m String := do
  match Bytes.utf8? (← readBytes path) with
  | some text => return text
  | none => throw (.unreadable path)

def readScript (path : String) : Job m (String × Script) := do
  let text ← readText path
  match Script.ofText text with
  | .ok script => return (text, script)
  | .error error => throw (.script (.malformed error))

def write (path text : String) : Job m Unit := do
  if ← ExceptT.lift (writeText path text) then return ()
  else throw (.unwritable path)

/-! ## Files of maps -/

def lookups : Option String → Job m Lookups
  | none => return []
  | some path => do
    match Lookups.ofText? (← readText path) with
    | some lookups => return lookups
    | none => throw (.badLookups path)

def options (settings : CodecSettings) : Job m CodecOptions :=
  return {
    maxElements := settings.maxElements
    maxDepth := settings.maxDepth
    allowTrailing := settings.allowTrailing
    lookups := ← lookups settings.lookup }

/-- The format that is given or, if there is none, that of the file by its name. -/
def formatOf (file : String) : Option Format → Job m Format
  | some format => return format
  | none =>
    let name := (FileName.ofPath? (Text.splitOn '/' file)).getD ""
    match Format.ofEntry? name with
    | some format => return format
    | none => throw (.formatUnknown name)

def codec {α : Type} : Except CodecError α → Job m α
  | .ok a => return a
  | .error error => throw (.codec error)

def decode (file : String) (format : Option Format) (compact : Bool) (settings : CodecSettings) :
    Job m Unit := do
  let format ← formatOf file format
  let bytes ← readBytes file
  let document ← codec (format.decode (← options settings) bytes)
  let json := document.toJson
  put ((if compact then json.compact else json.pretty) ++ "\n")

/-- The offset of the first byte that differs, or where the shorter one ends. -/
def firstDifference? : Bytes → Bytes → Nat → Option Nat
  | [], [], _ => none
  | a :: as, b :: bs, offset => if a = b then firstDifference? as bs (offset + 1) else some offset
  | _, _, offset => some offset

def roundTrip (file : String) (format : Option Format) (settings : CodecSettings) :
    Job m Unit := do
  let format ← formatOf file format
  let options ← options settings
  let bytes ← readBytes file
  let document ← codec (format.decode options bytes)
  let encoded ← codec (format.encode options document)
  match firstDifference? bytes encoded 0 with
  | none => put (Listing.green "identical" ++ " " ++ file ++ "\n")
  | some offset =>
    put (Listing.red "different" ++ " " ++ file ++ "\n")
    throw (.different format offset)

/-- The entries of the known formats that are files of a directory. -/
def archiveAt (directory : String) : Job m Archive :=
  (Format.all.filterMap Format.entry?).foldlM (fun archive name => do
    match ← ExceptT.lift (readFile? (FileName.join directory name)) with
    | some content => return archive.insert name content
    | none => return archive) .empty

def reportEntry (archive : Archive) (options : CodecOptions) (format : Format) : Job m Bool := do
  let title := " " ++ format.entry?.getD "" ++ " (" ++ format.name ++ "): "
  match archive.readDocument format options with
  | .ok document =>
    put (Listing.green "ok" ++ title ++ Listing.summary document ++ "\n")
    return true
  | .error error =>
    put (Listing.red "failed" ++ title ++ error.message ++ "\n")
    return false

def map (directory : String) (settings : CodecSettings) : Job m Unit := do
  let options ← options settings
  match ← ExceptT.lift (walk directory) with
  | .error error => throw (.unwalkable error)
  | .ok _ =>
    let archive ← archiveAt directory
    if archive.presentFormats.isEmpty then throw (.noMapFiles directory)
    let outcomes ← archive.presentFormats.mapM (reportEntry archive options)
    let failures := outcomes.count false
    if failures ≠ 0 then throw (.filesFailed failures)

/-! ## Scripts -/

def isScript (names : List String) : Bool :=
  ((names.getLast?.bind FileName.extension?).map (Format.sameIgnoringCase "j")).getD false

/-- The paths of the scripts at a path: itself, or those below a directory. -/
def scriptsAt (path : String) : Job m (List String) := do
  if ← ExceptT.lift (isDirectory path) then
    match ← ExceptT.lift (walk path) with
    | .error _ => throw (.unsearchable path)
    | .ok files => return (files.filter isScript).map (List.foldl FileName.join path)
  else return [path]

/-- Lays out one script and tells whether it has been laid out before. -/
def layoutScript (mode : LayoutMode) (path : String) : Job m Bool := do
  let (text, script) ← readScript path
  let formatted := script.text
  match mode with
  | .print => put formatted
  | .check => pure ()
  | .write => if formatted ≠ text then write path formatted
  return formatted == text

def layout (path : String) (mode : LayoutMode) : Job m Unit := do
  let scripts ← scriptsAt path
  if scripts.isEmpty then throw (.noScripts path)
  let outcomes ← scripts.mapM (layoutScript mode)
  let changed := outcomes.count false
  match mode with
  | .check => if changed ≠ 0 then throw (.notFormatted changed scripts.length)
  | _ => return ()

def rename (file old new : String) (function output : Option String) : Job m Unit := do
  let (_, script) ← readScript file
  let renamed ← match function with
    | some id =>
      match script.renameLocal? id old new with
      | some renamed => pure renamed
      | none => throw (.noFunction id)
    | none =>
      match script.rename old new with
      | .ok renamed => pure renamed
      | .error error => throw (.script error)
  match output with
  | some path => write path renamed.text
  | none => put renamed.text

def symbols (file : String) (kind : Option Script.SymbolKind) : Job m Unit := do
  let (_, script) ← readScript file
  put (Listing.symbolListing script (kind.elim Script.SymbolKind.all fun kind => [kind]))

def comments (file : String) : Job m Unit := do
  put (Listing.commentListing (← readText file))

end Job

def Command.run {m : Type → Type} [Monad m] [Workspace m] : Command → Job m Unit
  | .decode file format compact settings => Job.decode file format compact settings
  | .roundTrip file format settings => Job.roundTrip file format settings
  | .map directory settings => Job.map directory settings
  | .layout path mode => Job.layout path mode
  | .rename file old new function output => Job.rename file old new function output
  | .symbols file kind => Job.symbols file kind
  | .comments file => Job.comments file

end Mapsmith
