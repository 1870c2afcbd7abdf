import Acceptors.Description.Parse
import Acceptors.Loading.FileTree
import Acceptors.Ordered

/-!
# Loading definitions

## Main definitions

* `loadText`: the definition in the text of a file, if the text is not too large
* `Location.loadAs`, `Location.load`: the definition in a file
* `Location.loadAll`: the definitions in a folder
-/

namespace Acceptors

/-- The definition in the text that was read from a path, if the text is not too large. -/
def loadText (kind : Kind) (path : String) : Except AccessError String → Except Fault Definition
  | .error e => .error (.unreadableFile path e)
  | .ok text =>
    if greatestSize < text.utf8ByteSize then .error (.oversizedFile path)
    else Description.parse kind text.toList

/-- The definition in the text that `read` finds at a path. The kind is the given one, or else that
which the path tells. -/
def loadWith (read : String → Except AccessError String) (kind : Option Kind) (path : String) :
    Except Fault Definition :=
  match kind.or (Path.kind? path) with
  | none => .error (.untypedFile path)
  | some k => loadText k path (read path)

namespace Location

section

variable (l : Location)

/-- The definition of the given kind in a file. -/
def loadAs (kind : Kind) (path : String) : Except Fault Definition :=
  loadWith l.readText (some kind) path

/-- The definition in a file whose name tells its kind. -/
def load (path : String) : Except Fault Definition := loadWith l.readText none path

/-- Whether an entry of a folder is a file whose name tells its kind. -/
def isDescription : String × FileTree → Bool
  | (name, .file _) => (Path.kind? name).isSome
  | (_, .folder _) => false

/-- The path of each description in a folder with its definition, in the order of the paths. -/
def loadAll (path : String) : List (Except Fault (String × Definition)) :=
  match l.resolve path with
  | .error _ => [.error (.noFolder path)]
  | .ok (.file _) => [.error (.unreadableFolder path .notFolder)]
  | .ok (.folder entries) =>
    (ascending ((entries.filter isDescription).map fun e => Path.join path e.1)).map fun p =>
      match l.load p with
      | .ok d => .ok (p, d)
      | .error reason => .error (.failedFile p reason)

end

end Location

end Acceptors
