import Mapsmith.Archive
import Mapsmith.FileName
import Mapsmith.Machine
import Mapsmith.SystemError

/-!
# File trees

Files of a machine, each by the names on the way from the root. A directory is there
as long as it has a file below it, and those that every machine has always are.
Paths are texts with slashes; `.` stays, `..` goes up from a directory but not above
the root, and a slash at the end asks for a directory. A path, and each name on it,
has a greatest length.
-/

namespace Mapsmith

structure FileTree where
  files : List (List String × Bytes)

/-- A walk through files ended at a directory that could not be read. -/
structure WalkError where
  path : String
  error : SystemError

def WalkError.message (failure : WalkError) : String :=
  "IO error for operation on " ++ failure.path ++ ": " ++ failure.error.message

namespace FileTree

def ofFiles (files : List (List String × Bytes)) : FileTree :=
  ⟨files.map fun file => (Machine.workingDirectory ++ file.1, file.2)⟩

def find? (tree : FileTree) (names : List String) : Option Bytes := tree.files.lookup names

def below (tree : FileTree) (directory : List String) : List (List String × Bytes) :=
  tree.files.filterMap fun file =>
    if directory.isPrefixOf file.1 ∧ directory.length < file.1.length then
      some (file.1.drop directory.length, file.2)
    else none

def isDirectory (tree : FileTree) (names : List String) : Bool :=
  Machine.directories.contains names || !(tree.below names).isEmpty

/-- Whether there is a file or a device. -/
def canOpen (tree : FileTree) (names : List String) : Bool :=
  (tree.find? names).isSome || (Machine.device? names).isSome

/-! ## Paths -/

def nameLimit : Nat := 255

def pathLimit : Nat := 4095

/-- Why one cannot go on from a place that is no directory. -/
def obstacle (tree : FileTree) (names : List String) : SystemError :=
  if tree.canOpen names then .notDirectory else .missing

/-- Follows the parts of a path from a directory. The outcome is a place in the
tree, where there need not be anything. -/
def follow (tree : FileTree) (current : List String) :
    List String → Except SystemError (List String)
  | [] => .ok current
  | part :: rest =>
    if ¬tree.isDirectory current then .error (tree.obstacle current)
    else if part = "" ∨ part = "." then tree.follow current rest
    else if part = ".." then tree.follow current.dropLast rest
    else if Machine.isStored current ∧ nameLimit < part.utf8ByteSize then .error .tooLong
    else tree.follow (Machine.resolve (current ++ [part])) rest

def place (tree : FileTree) (path : String) : Except SystemError (List String) :=
  if path.isEmpty then .error .missing
  else if path.contains '\x00' then .error .nullCharacter
  else if pathLimit < path.utf8ByteSize then .error .tooLong
  else
    tree.follow (if path.startsWith "/" then [] else Machine.workingDirectory)
      (Text.splitOn '/' path)

def fileAt? (tree : FileTree) (path : String) : Option Bytes := do
  tree.find? (← (tree.place path).toOption)

def deviceAt? (tree : FileTree) (path : String) : Option Device := do
  Machine.device? (← (tree.place path).toOption)

/-- What can be read at a path, to its end. -/
def contentAt? (tree : FileTree) (path : String) : Option Bytes :=
  match tree.deviceAt? path with
  | some .null => some []
  | some _ => none
  | none => tree.fileAt? path

def isDirectoryAt (tree : FileTree) (path : String) : Bool :=
  (tree.place path).toOption.any tree.isDirectory

/-- Puts a file into a directory that is there. -/
def writeFile? (tree : FileTree) (path : String) (content : Bytes) : Option FileTree := do
  let names ← (tree.place path).toOption
  if tree.isDirectory names ∨ ¬tree.isDirectory names.dropLast ∨ ¬Machine.isStored names then none
  else some ⟨(names, content) :: tree.files.filter fun file => file.1 != names⟩

/-! ## Walks -/

/-- Which of two files a walk through the tree comes to first. -/
def precedes (a b : List String × Bytes) : Bool := decide (¬b.1 < a.1)

/-- The files below a directory in the order of a walk that takes the names of
each directory in order. -/
def walk (tree : FileTree) (directory : List String) : List (List String × Bytes) :=
  (tree.below directory).mergeSort precedes

/-- The paths of the directories that a walk from a path reads on the way to a file. -/
def directoriesTo (path : String) (names : List String) : List String :=
  (List.range names.length).map fun depth => (names.take depth).foldl FileName.join path

/-- The files at a path and below it, each by the names on the way to it. All of
the directories need paths that are not too long. -/
def filesAt (tree : FileTree) (path : String) : Except WalkError (List (List String)) :=
  match tree.place path with
  | .error error => .error ⟨path, error⟩
  | .ok names =>
    if tree.isDirectory names then
      let files := (tree.walk names).map Prod.fst
      match (files.flatMap (directoriesTo path)).find? (pathLimit < ·.utf8ByteSize) with
      | some directory => .error ⟨directory, .tooLong⟩
      | none => .ok files
    else if tree.canOpen names then .ok [[]]
    else .error ⟨path, .missing⟩

/-! ## Archives -/

/-- The names by which an archive has the files below a directory: those on the
way, with backslashes between them. -/
def entryNames (tree : FileTree) (directory : String) : Except WalkError (List String) := do
  return (← tree.filesAt directory).map "\\".intercalate

/-- The file that an entry of an archive is. Its name may have slashes of either kind,
and a device is no entry. -/
def entry? (tree : FileTree) (directory name : String) : Option Bytes :=
  tree.fileAt? (((Text.splitOn '\\' name).flatMap (Text.splitOn '/')).foldl FileName.join directory)

/-- The archive of the given names below a directory, of those that are files. -/
def archive (tree : FileTree) (directory : String) (names : List String) : Archive :=
  names.foldl (fun archive name =>
    match tree.entry? directory name with
    | some content => archive.insert name content
    | none => archive) .empty

end FileTree

end Mapsmith
