import Acceptors.Kind

/-!
# Paths

## Main definitions

* `Path.parts`: the parts of a path between slashes
* `Path.extension?`, `Path.kind?`: what the last part of a path tells about a file
* `Path.join`: the path of an entry of a folder
-/

namespace Acceptors.Path

/-- The parts of a text between slashes. -/
def split : List Char → List (List Char)
  | [] => [[]]
  | c :: s =>
    if c = '/' then [] :: split s
    else match split s with
      | [] => [[c]]
      | part :: rest => (c :: part) :: rest

/-- The parts of a path between slashes. -/
def parts (path : String) : List String := (split path.toList).map .ofList

/-- The last part that names something: neither nothing nor the folder itself. -/
def fileName? (path : String) : Option String :=
  match ((parts path).filter fun p => p ≠ "" && p ≠ ".").getLast? with
  | some ".." => none
  | name => name

/-- What follows the last dot of the file name. A dot at the start of the name does not count. -/
def extension? (path : String) : Option String := do
  let name ← fileName? path
  let reversed := name.toList.reverse
  let extension := reversed.takeWhile (· ≠ '.')
  let before := reversed.drop (extension.length + 1)
  if before.isEmpty then none else return .ofList extension.reverse

/-- The kind of description that the extension tells. -/
def kind? (path : String) : Option Kind := (extension? path).bind Kind.ofExtension?

/-- The file name up to its first dot. -/
def stem (name : String) : String := .ofList (name.toList.takeWhile (· ≠ '.'))

/-- The path of an entry of a folder. -/
def join (folder entry : String) : String :=
  if folder.toList.getLast? = some '/' then folder ++ entry else folder ++ "/" ++ entry

example : kind? "a/b.cfg/" = some .grammar ∧ kind? ".cfg" = none ∧ kind? "x.tm.txt" = none := by
  decide +kernel

end Acceptors.Path
