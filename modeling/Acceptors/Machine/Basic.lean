import Acceptors.Defect
import Acceptors.Gather
import Acceptors.Machine.Transition

/-!
# Machines with several tapes

A machine has a fixed number of tapes. A configuration is a state with all tapes and the number of
transitions taken so far. The word to decide stands on the first tape, the others start empty. All
tapes are laid out in one block of memory before a run starts, so a run may start only if a block
can be as large.

## Main definitions

* `Machine`, `Machine.ofRules`: a machine, built only if its transitions fit its tapes
* `Configuration`, `Configuration.apply`
* `Machine.initialConfiguration`, `Machine.transitions`
* `Machine.HasRoom`: the tapes of a machine fit into a block of memory
* `Machine.IsFitted`: the transitions of a machine fit its tapes

## Main results

* `check_eq_ok_iff`, `isFitted_of_ofRules`: a machine is built if its transitions fit its tapes
-/

namespace Acceptors

/-- The sign for the blank of the machine in the rules of a machine. -/
def blankSign : Char := '_'

/-- The size of the largest block of memory, in bytes. -/
def greatestBlock : Nat := 9223372036854775807

/-- The size of a tape in the block of all tapes, in bytes: three words for the symbols, which lie
elsewhere, one for the head, and one for the blank. -/
def tapeSize : Nat := 40

/-- A state, all tapes, and the number of transitions taken. -/
structure Configuration where
  state : String
  tapes : List Tape
  steps : Nat
  deriving DecidableEq, Repr

namespace Configuration

section

variable (c : Configuration)

/-- The symbols under the heads. -/
def symbols : List Char := c.tapes.map Tape.read

/-- The tapes after a transition: each is written and its head is moved. A tape that the
transition does not mention stays as it is. -/
def moved : List Tape → List Char → List Direction → List Tape
  | t :: ts, w :: ws, d :: ds => (t.write w).shift d :: moved ts ws ds
  | ts, _, _ => ts

/-- The configuration after a transition. -/
def apply (transition : Transition) : Configuration where
  state := transition.next
  tapes := moved c.tapes transition.write transition.directions
  steps := c.steps + 1

/-- The state and the tapes with their heads. -/
def text : String := c.state ++ ":" ++ String.join (c.tapes.map fun t => " " ++ t.text)

end

end Configuration

/-- A machine: its initial and final state, the blank, the number of tapes, and its table. -/
structure Machine where
  initial : String
  final : String
  blank : Char
  tapeCount : Nat
  table : TransitionTable
  deriving DecidableEq, Repr

namespace Machine

/-- Puts the blank of the machine in the place of its sign. -/
def fillBlank (blank : Char) (t : Transition) : Transition :=
  let fill (c : Char) : Char := if c = blankSign then blank else c
  { t with read := t.read.map fill, write := t.write.map fill }

/-- Whether a transition mentions each of the given number of tapes once. -/
def fitsTapes (count : Nat) (t : Transition) : Bool :=
  t.read.length = count && t.write.length = count && t.directions.length = count

section

variable (m : Machine)

/-- The first defect of a machine: no tapes, then a transition that does not fit them. -/
def check : Except Defect Unit :=
  if m.tapeCount = 0 then .error (.structural "No tapes defined")
  else
    match m.table.entries.find? fun e => !fitsTapes m.tapeCount e.2 with
    | some (state, _) =>
      .error (.structural ("Transition in state '" ++ state ++
        "' has inconsistent tape counts (expected " ++ toString m.tapeCount ++ ")"))
    | none => .ok ()

end

/-- The machine with the given rules, each with the state that it leaves, if it has no defect. -/
def ofRules (initial final : String) (blank : Char) (tapeCount : Nat)
    (rules : List (String × Transition)) : Except Defect Machine :=
  let m : Machine := {
    initial, final, blank, tapeCount
    table := .ofList (rules.map fun (state, t) => (state, fillBlank blank t)) }
  m.check.map fun _ => m

section

variable (m : Machine)

/-- The tapes fit into a block of memory. A machine whose tapes do not is a machine as well, but no
run of it can start. -/
def HasRoom : Prop := m.tapeCount * tapeSize ≤ greatestBlock

instance : Decidable m.HasRoom := inferInstanceAs (Decidable (_ ≤ _))

/-- The configuration that a run on a word starts in, if there is room for its tapes. -/
def initialConfiguration (w : Word) : Configuration where
  state := m.initial
  tapes := (List.range m.tapeCount).map fun i => .ofWord (if i = 0 then w else []) m.blank
  steps := 0

/-- The transitions that may fire in a configuration. -/
def transitions (c : Configuration) : List Transition := m.table.find c.state c.symbols

end

/-! ## What the check leaves -/

/-- The machine has a tape, and each of its transitions mentions each tape once. -/
structure IsFitted (m : Machine) : Prop where
  tapeCount_ne : m.tapeCount ≠ 0
  fitsTapes : ∀ e ∈ m.table.entries, fitsTapes m.tapeCount e.2 = true

theorem check_eq_ok_iff {m : Machine} {u : Unit} : m.check = .ok u ↔ m.IsFitted := by
  rw [check]
  constructor
  · intro h
    split at h
    · cases h
    · next hcount =>
      split at h
      · cases h
      · next hfind => exact ⟨hcount, by simpa using hfind⟩
  · rintro ⟨hcount, hfits⟩
    have hfind : (m.table.entries.find? fun e => !Machine.fitsTapes m.tapeCount e.2) = none :=
      List.find?_eq_none.mpr (by simpa using hfits)
    rw [if_neg hcount, hfind]

theorem isFitted_of_ofRules {initial final : String} {blank : Char} {count : Nat}
    {rules : List (String × Transition)} {m : Machine}
    (h : ofRules initial final blank count rules = .ok m) : m.IsFitted := by
  obtain ⟨_, hcheck, rfl⟩ := map_eq_ok_iff.mp h
  exact check_eq_ok_iff.mp hcheck

end Machine

end Acceptors
