import Acceptors.Main
import Acceptors.Proofs.Description.WrittenDfa
import Acceptors.Proofs.Description.WrittenGrammar
import Acceptors.Proofs.Description.WrittenMachine
import Acceptors.Proofs.Description.WrittenProgram
import Acceptors.Proofs.Dfa.ForeignTable
import Acceptors.Proofs.Dfa.MergedNames
import Acceptors.Proofs.Dfa.Minimal
import Acceptors.Proofs.Goto.Exact
import Acceptors.Proofs.Grammar.Explanation
import Acceptors.Proofs.Machine.Bound
import Acceptors.Proofs.Machine.TapeHistory
import Acceptors.Proofs.Simulation.Matching
import Acceptors.Proofs.Grammar.Canonical
import Acceptors.Proofs.Dfa.Levels
import Acceptors.Proofs.Dfa.LeastWitness
import Acceptors.Proofs.Dfa.Edges
import Acceptors.Proofs.Dfa.PassBound
import Acceptors.Proofs.Dfa.StateClasses
import Acceptors.Proofs.Machine.Deterministic
import Acceptors.Proofs.Machine.TapeGrowth
import Acceptors.Proofs.Dfa.FirstDefect
import Acceptors.Proofs.Goto.LeadingJump
import Acceptors.Proofs.Machine.Rules
import Acceptors.Proofs.Grammar.Rows
import Acceptors.Proofs.Machine.TapeContent
import Acceptors.Proofs.Description.ShownTree
import Acceptors.Proofs.Description.CommentsInert
import Acceptors.Proofs.Samples.Contents
import Acceptors.Proofs.Grammar.Meaning
import Acceptors.Proofs.Samples.Languages
import Acceptors.Proofs.Machine.SplitTape
import Acceptors.Proofs.Machine.Unbounded
import Acceptors.Proofs.Samples.Machines
import Acceptors.Proofs.Goto.Rounds
import Acceptors.Proofs.Samples.Programs
import Acceptors.Proofs.Grammar.Guarded
