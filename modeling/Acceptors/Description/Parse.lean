import Acceptors.Definition
import Acceptors.Description.DfaText
import Acceptors.Description.GrammarText
import Acceptors.Description.ProgramText
import Acceptors.Fault

/-!
# From texts to definitions

White space around the text does not count. The text is read as sections, no two of which may have
one keyword, and the sections are put together.

## Main definitions

* `Description.readSections`: the sections of a text
* `Description.parse`: the definition that a text holds
-/

namespace Acceptors.Description

/-- The sections of a text that starts and ends without white space; or else what was expected at
the furthest place where a phrase was looked for. -/
def readSections (r : Reader (List (Located Section))) (text : List Char) :
    Except Fault (List (Located Section)) :=
  match r.read text with
  | some (l, _) => .ok l
  | none =>
    let e := r.expect text ⟨text.length, []⟩
    .error (.unreadable ⟨text, .point (text.length - e.left), e.message⟩)

/-- A complaint about a stretch of a text. -/
def Located.fault (text : List Char) (c : Located Complaint) : Fault :=
  .unreadable
    ⟨text, .stretch (text.length - c.before.length) (text.length - c.after.length),
      c.value.message⟩

/-- A refusal as a fault of the text. -/
def Refusal.fault (text : List Char) : Refusal → Fault
  | complaint c => Located.fault text c
  | missing keyword => .missingSection keyword
  | defect d => .defect d

/-- The definition that a text holds, where `r` reads its sections and `assemble` puts them
together. -/
def parseWith {α : Type} (r : Reader (List (Located Section)))
    (assemble : List (Located Section) → Except Refusal (String × α)) (wrap : α → Automaton)
    (text : List Char) : Except Fault Definition := do
  let l ← readSections r text
  (unrepeated [] l).mapError (Located.fault text)
  let (name, a) ← (assemble l).mapError (Refusal.fault text)
  return { name, checks := givenChecks l, automaton := wrap a }

/-- The definition of the given kind that a text holds. -/
def parse (kind : Kind) (text : List Char) : Except Fault Definition :=
  let trimmed := Text.trim text
  match kind with
  | .grammar => parseWith grammarSections grammarOf .grammar trimmed
  | .machine => parseWith machineSections machineOf .machine trimmed
  | .dfa => parseWith dfaSections dfaOf .dfa trimmed
  | .goto => parseWith programSections programOf .goto trimmed

end Acceptors.Description
