import Acceptors.Grammar.NormalForm
import Acceptors.Grammar.Tree

/-!
# Chart recognition

The chart of a word has a row for each span, counted from one, and a cell for each place where a
stretch of that span starts. A cell holds the nonterminals that derive the stretch. Each row is
filled from the rows below it. An accepted word is explained by a tree and the derivation that
belongs to it: of the productions that fit, the first one is used, and it splits the stretch as
early as it can.

## Main definitions

* `Grammar.RuleIndex`: the productions of a grammar by shape, on numbered nonterminals
* `RuleIndex.Chart`, `RuleIndex.chart`: the rows of a word
* `RuleIndex.build`: a tree over a stretch with its productions in preorder
* `RuleIndex.parse`: the explanation of an accepted word
-/

namespace Acceptors

/-- A tree over a word and the leftmost derivation that belongs to it. -/
structure Explanation where
  tree : Tree
  derivation : Derivation

namespace Grammar

/-- A production with a single terminal as its body. -/
structure UnitRule where
  head : Nat
  terminal : Char
  production : Production
  deriving DecidableEq, Repr

/-- A production with two nonterminals as its body. -/
structure BinaryRule where
  head : Nat
  left : Nat
  right : Nat
  production : Production
  deriving DecidableEq, Repr

/-- The productions of a grammar by shape, with the nonterminals numbered in order of first
appearance. The start symbol has number zero. -/
structure RuleIndex where
  names : List String
  units : List UnitRule
  binaries : List BinaryRule
  /-- The production that gives the start symbol an empty body, if there is one. -/
  empty? : Option Production
  deriving DecidableEq, Repr

section

variable (g : Grammar)

/-- The number of a nonterminal. -/
def numberOf (name : String) : Nat := g.nonterminals.idxOf name

/-- A production with a single terminal as its body, on numbers. -/
def unitRule? (p : Production) : Option UnitRule :=
  match p.body with
  | [.terminal c] => some ⟨g.numberOf p.head, c, p⟩
  | _ => none

/-- A production with two nonterminals as its body, on numbers. -/
def binaryRule? (p : Production) : Option BinaryRule :=
  match p.body with
  | [.nonterminal b, .nonterminal c] =>
    some ⟨g.numberOf p.head, g.numberOf b, g.numberOf c, p⟩
  | _ => none

/-- The productions of the grammar by shape. -/
def ruleIndex : RuleIndex where
  names := g.nonterminals
  units := g.productions.filterMap g.unitRule?
  binaries := g.productions.filterMap g.binaryRule?
  empty? := g.productions.find? fun p => p.body.isEmpty && p.head = g.start

/-- The productions by shape, if the grammar has no defect. -/
def indexed : Except Defect RuleIndex := g.check.map fun _ => g.ruleIndex

end

namespace RuleIndex

section

variable (r : RuleIndex)

/-! ## Filling the chart -/

/-- The numbers of the nonterminals that derive a stretch, in increasing order. -/
abbrev Cell := List Nat

/-- The rows of a chart, that of span one first; a row has a cell for each start. -/
abbrev Chart := Array (Array Cell)

/-- The cell of a span and a start. -/
def Chart.cell (chart : Chart) (span start : Nat) : Cell :=
  ((chart[span - 1]?).bind fun row => row[start]?).getD []

/-- The numbers that occur in a list, in increasing order. -/
def toCell (heads : List Nat) : Cell :=
  (List.range r.names.length).filter fun a => heads.contains a

/-- The row of span one: the heads of the single terminals. -/
def firstRow (w : Word) : Array Cell :=
  (w.map fun c => r.toCell ((r.units.filter fun u => u.terminal = c).map UnitRule.head)).toArray

/-- The heads of the bodies that fit the two parts of a stretch. -/
def joinedHeads (left right : Cell) : List Nat :=
  (r.binaries.filter fun b => left.contains b.left && right.contains b.right).map BinaryRule.head

/-- The cell of a span and a start, from the rows below. -/
def joinedCell (chart : Chart) (span start : Nat) : Cell :=
  r.toCell <| (List.range (span - 1)).flatMap fun k =>
    r.joinedHeads (chart.cell (k + 1) start) (chart.cell (span - (k + 1)) (start + (k + 1)))

/-- The row of a span over a word of the given length. -/
def joinedRow (length : Nat) (chart : Chart) (span : Nat) : Array Cell :=
  ((List.range (length + 1 - span)).map (r.joinedCell chart span)).toArray

/-- The chart up to the given number of rows beyond the first. -/
def chartUpTo (w : Word) : Nat → Chart
  | 0 => #[r.firstRow w]
  | n + 1 =>
    let below := chartUpTo w n
    below.push (r.joinedRow w.length below (n + 2))

/-- The chart of a word that is not empty. -/
def chart (w : Word) : Chart := r.chartUpTo w (w.length - 1)

/-- The names in the cells of all rows, as they are shown; the empty word has no rows. -/
def rows (w : Word) : List (List (List String)) :=
  if w.isEmpty then []
  else (r.chart w).toList.map fun row =>
    row.toList.map fun cell => cell.map fun a => displayLabel ((r.names[a]?).getD "")

/-! ## Explaining a word -/

/-- Whether a split of a stretch after `k` characters fits the body of a rule. -/
def splits (chart : Chart) (span start : Nat) (b : BinaryRule) (k : Nat) : Bool :=
  (chart.cell k start).contains b.left && (chart.cell (span - k) (start + k)).contains b.right

/-- The first rule of a nonterminal that fits a stretch, with its earliest split. -/
def split? (chart : Chart) (head span start : Nat) : Option (BinaryRule × Nat) :=
  (r.binaries.filter fun b => b.head = head).findSome? fun b =>
    (((List.range (span - 1)).map (· + 1)).find? (splits chart span start b)).map fun k => (b, k)

/-- The tree of a nonterminal over the stretch of `span` characters at `start`, with the
productions of its nodes in preorder. The first argument bounds the height of the tree. -/
def build (chart : Chart) (w : Word) :
    Nat → (head span start : Nat) → Option (Tree × List Production)
  | 0, _, _, _ => none
  | height + 1, head, span, start =>
    let name := (r.names[head]?).getD ""
    -- a single character is derived by a rule for its terminal
    if span = 1 then do
      let c ← w[start]?
      let u ← r.units.find? fun u => u.head = head && u.terminal = c
      return (.branch name [.leaf c], [u.production])
    else do
      -- the two parts are shorter, so a tree is no higher than its word is long
      let (b, k) ← r.split? chart head span start
      let (left, leftSteps) ← build chart w height b.left k start
      let (right, rightSteps) ← build chart w height b.right (span - k) (start + k)
      return (.branch name [left, right], b.production :: leftSteps ++ rightSteps)

/-- The name of the start symbol. -/
def startName : String := (r.names[0]?).getD ""

/-- The explanation of the empty word. -/
def parseEmpty : Option Explanation :=
  r.empty?.map fun p => ⟨.branch r.startName [], ⟨r.startName, [p]⟩⟩

/-- The explanation of a word, if the grammar derives it. -/
def parse (w : Word) : Option Explanation :=
  if w.isEmpty then r.parseEmpty
  else
    let chart := r.chart w
    if (chart.cell w.length 0).contains 0 then
      (r.build chart w w.length 0 w.length 0).map fun (tree, steps) =>
        ⟨tree, ⟨r.startName, steps⟩⟩
    else none

end

end RuleIndex

end Grammar

end Acceptors
