/-!
# File names

What the text of a path tells about the file: its name, the extension of the name,
and the path of what is below it.
-/

namespace Mapsmith.FileName

/-- The last part of a path that is a name. A path that ends by going up has none. -/
def ofPath? (path : List String) : Option String :=
  match (path.filter fun part => part ≠ "" ∧ part ≠ ".").getLast? with
  | some ".." => none
  | last => last

/-- What follows the last dot of a name. A dot at the start does not count. -/
def extension? (name : String) : Option String :=
  let reversed := name.toList.reverse
  let extension := reversed.takeWhile (· ≠ '.')
  if reversed.length ≤ extension.length + 1 then none else some (String.ofList extension.reverse)

/-- The path of a name below a path. -/
def join (path name : String) : String :=
  if path.endsWith "/" then path ++ name else path ++ "/" ++ name

end Mapsmith.FileName
