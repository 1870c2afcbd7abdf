import Acceptors.Description.MachineText

/-!
# Descriptions of deterministic automata

The edges of an automaton stand in blocks, one for each state. An edge line holds one or more
symbols and their common target.

## Main definitions

* `dfaSections`: reads the sections of an automaton
* `edgesOf`: the edges of blocks of edge lines
* `dfaOf`: the automaton that sections describe
-/

namespace Acceptors.Description

/-! ## Reading -/

/-- Reads an edge line: symbols with commas in between, and their target. -/
def edgeLine : Reader EdgeLine := .phrase .dfaEdge do
  let symbols ← Reader.commaSeparated symbol
  .skip
  .lit "->"
  .skip
  let target ← stateName
  return (symbols, target)

/-- Reads a section with the alphabet. -/
def alphabetSection : Reader Section :=
  Section.alphabet <$> sectionOf .alphabet "alphabet" (.phrase .symbols (.listOf symbol))

/-- Reads a section of blocks of edge lines. -/
def edgesSection : Reader Section :=
  (fun blocks => Section.edges (checkBlocks [] blocks)) <$>
    sectionOf .dfaRules "rules" (itemLines (block .dfaBlock (Except.ok <$> edgeLine)))

/-- Reads the sections of an automaton. -/
def dfaSections : Reader (List (Located Section)) :=
  sections .dfaFile
    (nameSection <|> initialSection <|> acceptingSection <|> alphabetSection <|> edgesSection <|>
      checksSection)

/-! ## Assembling -/

/-- The edges of blocks of edge lines. -/
def edgesOf (blocks : List (Block EdgeLine)) : List Dfa.Edge :=
  (Block.flatten blocks).flatMap fun (source, symbols, target) =>
    symbols.map fun symbol => { source, symbol, target }

/-- The name and the automaton that sections describe. -/
def dfaOf (l : List (Located Section)) : Except Refusal (String × Dfa) := do
  let name ← givenName l
  let accepting ← required l "accepting" Section.accepting?
  let checkedBlocks ← required l "rules" Section.edges?
  let blocks ← checkedBlocks.accept
  let initial ← initialState l blocks
  let alphabet := found? l Section.alphabet?
  let d ← (Dfa.ofEdges initial accepting alphabet (edgesOf blocks)).mapError .defect
  return (name, d)

end Acceptors.Description
