/-!
# The machine

What is known of the files of the machine apart from those below the working
directory: directories that are always there, links that lead on to another place,
and devices. A place is given by the names on the way from the root.
-/

namespace Mapsmith

/-- A place that can be opened like a file but keeps nothing. -/
inductive Device where
  /-- Has no content and takes everything. -/
  | null
  /-- Never ends and takes everything. -/
  | endless
  /-- Never ends and takes nothing. -/
  | full
  /-- Prints what it takes. -/
  | output

namespace Machine

/-- The directory that paths without a slash at the start lead from. -/
def workingDirectory : List String := ["tmp", "mapsmith"]

def directories : List (List String) :=
  [[], workingDirectory] ++
  ["boot", "dev", "etc", "home", "media", "mnt", "opt", "proc", "root", "run", "srv", "sys",
    "tmp", "usr", "var"].map (fun name => [name]) ++
  ["bin", "include", "lib", "local", "sbin", "share", "src"].map (fun name => ["usr", name]) ++
  ["cache", "lib", "log", "spool", "tmp"].map (fun name => ["var", name]) ++
  [["dev", "pts"], ["dev", "shm"], ["proc", "self"], ["proc", "self", "fd"]]

/-- Links with the places that they lead to. -/
def links : List (List String × List String) :=
  [(["bin"], ["usr", "bin"]), (["lib"], ["usr", "lib"]), (["sbin"], ["usr", "sbin"]),
    (["var", "run"], ["run"]),
    (["dev", "fd"], ["proc", "self", "fd"]),
    (["dev", "stdin"], ["proc", "self", "fd", "0"]),
    (["dev", "stdout"], ["proc", "self", "fd", "1"]),
    (["dev", "stderr"], ["proc", "self", "fd", "2"]),
    (["proc", "self", "cwd"], workingDirectory),
    (["proc", "self", "root"], [])]

def resolve (names : List String) : List String := (links.lookup names).getD names

/-- The device at a place. Nothing comes in from outside, and errors that are printed
are not kept. -/
def device? : List String → Option Device
  | ["dev", "null"] => some .null
  | ["dev", "zero"] => some .endless
  | ["dev", "random"] => some .endless
  | ["dev", "urandom"] => some .endless
  | ["dev", "full"] => some .full
  | ["proc", "self", "fd", "0"] => some .null
  | ["proc", "self", "fd", "1"] => some .output
  | ["proc", "self", "fd", "2"] => some .null
  | _ => none

/-- Whether a place is one of stored files. Those that show the state of the machine
are not stored: there are no new ones, and their names may be of any length. -/
def isStored : List String → Bool
  | "proc" :: _ => false
  | "sys" :: _ => false
  | _ => true

end Machine

end Mapsmith
