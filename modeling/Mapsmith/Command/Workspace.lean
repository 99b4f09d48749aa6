import Mapsmith.Files

/-!
# Workspaces

What commands work on: files by their paths, and an output. A session is a workspace
in memory, with the files below a working directory and what was printed.
-/

namespace Mapsmith

class Workspace (m : Type → Type) where
  readFile? : String → m (Option Bytes)
  isDirectory : String → m Bool
  /-- The files below a directory in the order of a walk, each by the names on the way
  to it. A file itself is found without a name. -/
  walk : String → m (Except WalkError (List (List String)))
  /-- Writes a text at a path and tells whether that was possible. -/
  writeText : String → String → m Bool
  print : String → m Unit

structure Session where
  files : FileTree
  output : String

/-- The session after a text has been written at a path. -/
def Session.write? (session : Session) (path text : String) : Option Session :=
  match session.files.deviceAt? path with
  | some .full => none
  | some .output => some { session with output := session.output ++ text }
  | some _ => some session
  | none =>
    (session.files.writeFile? path (Bytes.ofText text)).map fun files => { session with files }

instance : Workspace (StateM Session) where
  readFile? path := return (← get).files.contentAt? path
  isDirectory path := return (← get).files.isDirectoryAt path
  walk path := return (← get).files.filesAt path
  writeText path text := do
    match (← get).write? path text with
    | none => return false
    | some session =>
      set session
      return true
  print text := modify fun session => { session with output := session.output ++ text }

end Mapsmith
