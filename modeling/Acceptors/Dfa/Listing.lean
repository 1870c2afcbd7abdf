import Acceptors.Dfa.Quotient
import Acceptors.Text.Pad

/-!
# Listings of tables and automata

## Main definitions

* `Dfa.Table.render`: the table as a triangle
* `Dfa.listing`: the states of an automaton with their edges
-/

namespace Acceptors

namespace Dfa

namespace Table

section

variable (t : Table)

/-- What a place of the table shows: the mark, or a sign for a pair that nothing tells apart. -/
def cell : Option Word → String
  | none => "="
  | some w => w.shown

/-- The width of the columns: that of the widest name or mark. -/
def width : Nat :=
  ((t.names ++ (t.marks.flatten.map cell)).map String.length).foldl max 0

/-- The table as a lower triangle, one line for each state but the first, with the names of all
states but the last below. -/
def render : String :=
  let row (name : String) (cells : List String) : String :=
    Text.padLeft t.width name ++ " |" ++
      String.join (cells.map fun c => " " ++ Text.centre t.width c) ++ "\n"
  String.join ((t.names.zip t.marks).drop 1 |>.map fun (name, marks) => row name (marks.map cell))
    ++ row "" (t.names.take (t.names.length - 1))

end

end Table

section

variable (d : Dfa)

/-- The sign in front of a state: an arrow for the initial one, a star for an accepting one. -/
def marker (name : String) : String :=
  match decide (name = d.initialName), d.isAccepting name with
  | true, true => "->*"
  | true, false => "-> "
  | false, true => "  *"
  | false, false => "   "

/-- The line of a state: its sign, its name and its edges in the order of the alphabet. -/
def stateLine (name : String) : String :=
  let edges := d.alphabet.filterMap fun c =>
    (d.next? name c).map fun target => c.toString ++ " -> " ++ target
  d.marker name ++ " " ++ name ++ ": " ++ ", ".intercalate edges

/-- The lines of all states. -/
def listing : List String := d.names.map d.stateLine

end

end Dfa

end Acceptors
