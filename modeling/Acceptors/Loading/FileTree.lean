import Acceptors.Fault
import Acceptors.Loading.Path

/-!
# Files and folders

A path starts at a folder, which lies in other folders up to the outermost one. A path that starts
with a slash starts at the outermost folder.

## Main definitions

* `FileTree`: a file, or a folder with its entries
* `Location`: a file or folder with the folders that it lies in
* `Location.enter`, `Location.follow`, `Location.resolve`: where paths lead
* `Location.readText`: the text of a file

## Main results

* `follow_append`: a path may be followed in two parts
* `enter_parent`, `parent_outermost`: two dots lead to the folder around, except from the outermost
-/

namespace Acceptors

/-- A file with its bytes, or a folder with its named entries. -/
inductive FileTree where
  | file (bytes : ByteArray)
  | folder (entries : List (String × FileTree))

/-- A file or folder, and the folders that it lies in, the innermost one first. -/
structure Location where
  here : FileTree
  above : List FileTree

namespace Location

section

variable (l : Location)

/-- The folder around; around the outermost folder there is only itself. -/
def parent : Location :=
  match l.above with
  | [] => l
  | folder :: above => ⟨folder, above⟩

/-- The outermost folder. -/
def outermost : Location := ⟨(l.above.getLast?).getD l.here, []⟩

/-- Where one part of a path leads. Only a folder can be passed through. -/
def enter (part : String) : Except AccessError Location :=
  match l.here with
  | .file _ => .error .notFolder
  | .folder entries =>
    if part = "" ∨ part = "." then .ok l
    else if part = ".." then .ok l.parent
    else
      match entries.lookup part with
      | none => .error .missing
      | some next => .ok ⟨next, l.here :: l.above⟩

end

/-- Where the parts of a path lead, one after the other. -/
def follow : Location → List String → Except AccessError Location
  | l, [] => .ok l
  | l, part :: parts =>
    match l.enter part with
    | .error e => .error e
    | .ok next => follow next parts

section

variable (l : Location)

/-- What a path leads to. -/
def resolve (path : String) : Except AccessError FileTree :=
  if path = "" then .error .missing
  else
    let start := if path.toList.head? = some '/' then l.outermost else l
    (start.follow (Path.parts path)).map here

/-- The text of the file that a path leads to. -/
def readText (path : String) : Except AccessError String :=
  match l.resolve path with
  | .error e => .error e
  | .ok (.folder _) => .error .isFolder
  | .ok (.file bytes) =>
    match String.fromUTF8? bytes with
    | some text => .ok text
    | none => .error .notText

/-! ## Following paths -/

/-- A path may be followed in two parts. -/
theorem follow_append (parts others : List String) :
    l.follow (parts ++ others) =
      match l.follow parts with
      | .error e => .error e
      | .ok next => next.follow others := by
  induction parts generalizing l with
  | nil => rfl
  | cons part parts ih =>
    rw [List.cons_append, follow, follow]
    cases l.enter part with
    | error e => rfl
    | ok next => exact ih next

theorem enter_parent {entries : List (String × FileTree)} (h : l.here = .folder entries) :
    l.enter ".." = .ok l.parent := by
  simp [enter, h]

@[simp] theorem parent_outermost : l.outermost.parent = l.outermost := rfl

@[simp] theorem outermost_parent : l.parent.outermost = l.outermost := by
  obtain ⟨here, above⟩ := l
  cases above with
  | nil => rfl
  | cons folder above =>
    -- the last folder above stays the last, or else it is the one that is entered
    simp [parent, outermost, List.getLast?_cons]

end

end Location

end Acceptors
