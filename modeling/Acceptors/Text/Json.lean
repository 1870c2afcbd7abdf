import Acceptors.Text.Pad
import Acceptors.Text.Quoted

/-!
# JSON

## Main definitions

* `Json`: a value; an object keeps the order of its members
* `Json.pretty`: its text, with an indent of two blanks for each level
-/

namespace Acceptors.Text

/-- A JSON value. The numbers are integers. -/
inductive Json where
  | null
  | bool (b : Bool)
  | number (n : Int)
  | text (s : String)
  | array (items : List Json)
  | object (members : List (String × Json))
  deriving Repr

namespace Json

/-- What stands for a character in a text. -/
def escape (c : Char) : List Char :=
  if c = '"' then ['\\', '"']
  else if c = '\\' then ['\\', '\\']
  else if c = '\n' then ['\\', 'n']
  else if c = '\r' then ['\\', 'r']
  else if c = '\t' then ['\\', 't']
  else if c = '\x08' then ['\\', 'b']
  else if c = '\x0c' then ['\\', 'f']
  else if c.toNat < 0x20 then
    -- the other control characters are named by four digits
    let digits := hexadecimal c.toNat
    ['\\', 'u'] ++ List.replicate (4 - digits.length) '0' ++ digits
  else [c]

/-- The text between double quotes. -/
def quote (s : String) : String := String.ofList ('"' :: s.toList.flatMap escape ++ ['"'])

/-- A list of one item. -/
def singleton (name : String) (value : Json) : Json := .object [(name, value)]

mutual

/-- The text of a value that stands at the given level. -/
def prettyAt (level : Nat) : Json → String
  | .null => "null"
  | .bool b => if b then "true" else "false"
  | .number n => toString n
  | .text s => quote s
  | .array [] => "[]"
  | .array (x :: xs) =>
    "[\n" ++ blanks (2 * (level + 1)) ++ prettyAt (level + 1) x ++ prettyItems (level + 1) xs ++
      "\n" ++ blanks (2 * level) ++ "]"
  | .object [] => "\x7b\x7d"
  | .object ((name, x) :: ms) =>
    "\x7b\n" ++ blanks (2 * (level + 1)) ++ quote name ++ ": " ++ prettyAt (level + 1) x ++
      prettyMembers (level + 1) ms ++ "\n" ++ blanks (2 * level) ++ "\x7d"

/-- The text of the further items of an array. -/
def prettyItems (level : Nat) : List Json → String
  | [] => ""
  | x :: xs => ",\n" ++ blanks (2 * level) ++ prettyAt level x ++ prettyItems level xs

/-- The text of the further members of an object. -/
def prettyMembers (level : Nat) : List (String × Json) → String
  | [] => ""
  | (name, x) :: ms =>
    ",\n" ++ blanks (2 * level) ++ quote name ++ ": " ++ prettyAt level x ++
      prettyMembers level ms

end

/-- The text of a value. -/
def pretty (j : Json) : String := prettyAt 0 j

end Json

end Acceptors.Text
