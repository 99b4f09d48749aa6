import Mapsmith.Command.Job

/-!
# The program

Commands on the files of the machine. The outcome is 0, 1 for a command that fails
and 2 for arguments that are not accepted.
-/

namespace Mapsmith.Program

/-- The number of an error, which some actions give with the other sign. -/
def errorNumber (code : UInt32) : Nat := code.toInt32.toInt.natAbs

/-- What an error says about a path. -/
def systemError : IO.Error → SystemError
  | .noFileOrDirectory .. => .missing
  | .inappropriateType _ code details =>
    if errorNumber code = 20 then .notDirectory else .other details (errorNumber code)
  | .invalidArgument _ code details =>
    if errorNumber code = 36 then .tooLong else .other details (errorNumber code)
  | .permissionDenied _ code _ => .other "Permission denied" (errorNumber code)
  | error => .other (toString error) 0

def visit {α : Type} (path : String) (action : IO α) : ExceptT WalkError IO α := do
  match ← action.toBaseIO with
  | .ok a => return a
  | .error error => throw ⟨path, systemError error⟩

/-- The files at a path and below it, after the names on the way there. Links are
not followed. -/
partial def walk (path : String) (names : List String) :
    ExceptT WalkError IO (List (List String)) := do
  let place := System.mkFilePath [path]
  match (← visit path place.symlinkMetadata).type with
  | .file => return [names]
  | .dir =>
    let entries ← visit path place.readDir
    let children := (entries.map IO.FS.DirEntry.fileName).toList.mergeSort (· ≤ ·)
    return (← children.mapM fun name => walk (FileName.join path name) (names ++ [name])).flatten
  | _ => return []

instance : Workspace IO where
  readFile? path := do
    try return some (← IO.FS.readBinFile path).toList
    catch _ => return none
  isDirectory path := (System.mkFilePath [path]).isDir
  walk path := (walk path []).run
  writeText path text := do
    try
      IO.FS.writeFile path text
      return true
    catch _ => return false
  print text := do
    let output ← IO.getStdout
    output.putStr text

def usage : String :=
  "usage: w3 decode|roundtrip -f FILE [--format FORMAT] [--compact] [--max-elements COUNT]\n" ++
  "          [--max-depth DEPTH] [--allow-trailing] [--lookup FILE]\n" ++
  "       w3 map -d DIRECTORY [--max-elements COUNT] [--max-depth DEPTH] [--allow-trailing]\n" ++
  "          [--lookup FILE]\n" ++
  "       w3 jass fmt -f PATH [--check | --write]\n" ++
  "       w3 jass rename -f FILE --from ID --to ID [--function ID] [-o FILE]\n" ++
  "       w3 jass symbols -f FILE [--kind type|native|global|function]\n" ++
  "       w3 jass comments -f FILE"

end Mapsmith.Program

def main (arguments : List String) : IO UInt32 := do
  match Mapsmith.Command.ofArguments? arguments with
  | none =>
    IO.eprintln Mapsmith.Program.usage
    return 2
  | some command =>
    match ← (command.run : Mapsmith.Job IO Unit).run with
    | .ok () => return 0
    | .error error =>
      IO.eprintln ("Error: " ++ error.message)
      return 1
