import Mathlib.Data.List.Induction
import Acceptors.Proofs.Machine.SplitTape
import Acceptors.Proofs.Machine.Unbounded
import Acceptors.Proofs.Samples.Contents

/-!
# What the machines of the samples compute

Each machine walks over its word. The first one rewrites it on the way, the second one guesses where
a factor begins and checks it symbol by symbol, and the third one copies it to another tape, walks
back there to the blank in front of the copy and steps onto its first symbol.

## Main definitions

* `complement`: the other digit
* `matched`: the part of the factor that stands left of the head in a state
* `Tracks`: what holds on a word whatever transitions the machine that looks for the factor takes

## Main results

* `complementMachine_haltsAfter`, `copyMachine_haltsAfter`: where the deterministic machines stop
* `Tracks.step`, `tracks_of_reaches`: one transition, and any number of them
* `factorMachine_runsEnd`, `factorMachine_accepts_iff`: it always ends, and what it accepts
* `machines_decide_all_words`: the verdicts of the samples
-/

namespace Acceptors.Sample

open Machine

variable {u v w : Word} {c d : Configuration} {n : Nat}

/-! ## The binary complement -/

/-- The other one of the two binary digits. -/
def complement (c : Char) : Char := if c = '0' then '1' else '0'

theorem blank_notMem_map_complement (w : Word) : '#' ∉ w.map complement := by
  intro hmem
  obtain ⟨c, -, hc⟩ := List.mem_map.mp hmem
  unfold complement at hc
  split at hc <;> cases hc

/-- The machine walks over the word, complements each digit, and stops on the first blank. -/
theorem complementMachine_haltsAfter (hw : ∀ c ∈ w, c = '0' ∨ c = '1') :
    complementMachine.HaltsAfter (complementMachine.initialConfiguration w) (w.length + 1)
      ⟨"done", [.between (w.map complement) ['#'] '#'], w.length + 1⟩ := by
  have hdigit : ∀ c ∈ w,
      ("flip", ⟨[c], [complement c], [.right], "flip"⟩) ∈ complementMachine.table.entries := by
    intro c hc
    rcases hw c hc with rfl | rfl <;> decide
  have hstop : ("flip", ⟨['#'], ['#'], [.stay], "done"⟩) ∈ complementMachine.table.entries := by
    decide
  have hdone : ∀ e ∈ complementMachine.table.entries, e.1 ≠ "done" := by decide
  have hwalk : complementMachine.Reaches w.length ⟨"flip", [.between [] w '#'], 0⟩
      ⟨"flip", [.between (w.map complement) [] '#'], w.length⟩ := by
    simpa using reaches_of_walk hdigit [] [] 0
  refine ⟨hwalk.trans (.head ?_ (.refl _)), transitions_eq_nil hdone⟩
  exact step_of_mem hstop (by simp) (by simp [Configuration.moved])

/-! ## A factor -/

/-- The part of the factor that has been matched when the machine is in a state. -/
def matched (state : String) : Word :=
  if state = "saw_a" then ['a']
  else if state = "saw_ab" then ['a', 'b']
  else if state = "found" then ['a', 'b', 'a']
  else []

/-- The head has moved over a part of the word, one symbol for each transition, and that part ends
with what has been matched. -/
def Tracks (w : Word) (c : Configuration) : Prop :=
  ∃ u v, w = u ++ v ∧ u.length = c.steps ∧ c.tapes = [.between u v '#'] ∧ matched c.state <:+ u

theorem tracks_initialConfiguration (w : Word) : Tracks w (factorMachine.initialConfiguration w) :=
  ⟨[], w, rfl, rfl, rfl, List.suffix_refl []⟩

/-- Each transition leaves a symbol as it is, moves on, and adds it to what has been matched or
begins anew. -/
theorem factorMachine_entries {e : String × Transition} (he : e ∈ factorMachine.table.entries) :
    ∃ s, s ≠ '#' ∧ e.2.read = [s] ∧ e.2.write = [s] ∧ e.2.directions = [.right] ∧
      matched e.2.next <:+ matched e.1 ++ [s] := by
  rw [factorMachine, TransitionTable.mem_entries_ofList] at he
  simp only [List.mem_cons, List.not_mem_nil, or_false] at he
  rcases he with rfl | rfl | rfl | rfl | rfl
  · exact ⟨'a', by decide, rfl, rfl, rfl, by decide⟩
  · exact ⟨'a', by decide, rfl, rfl, rfl, by decide⟩
  · exact ⟨'b', by decide, rfl, rfl, rfl, by decide⟩
  · exact ⟨'b', by decide, rfl, rfl, rfl, by decide⟩
  · exact ⟨'a', by decide, rfl, rfl, rfl, by decide⟩

theorem Tracks.step (hstep : factorMachine.Step c d) (h : Tracks w c) : Tracks w d := by
  obtain ⟨t, ht, rfl⟩ := hstep
  obtain ⟨u, v, rfl, hsteps, htapes, hmatched⟩ := h
  obtain ⟨hentry, hread⟩ := factorMachine.table.mem_find.mp ht
  obtain ⟨s, hs, hreads, hwrites, hmoves, hnext⟩ := factorMachine_entries hentry
  -- a symbol that is not blank stands under the head, so the word goes on
  have hsymbol : v.headD '#' = s := by
    have heq : [s] = [v.headD '#'] := by
      simpa [Configuration.symbols, htapes] using hreads.symm.trans hread
    exact (List.cons.inj heq).1.symm
  cases v with
  | nil => exact absurd hsymbol.symm hs
  | cons s' v =>
    obtain rfl : s' = s := hsymbol
    refine ⟨u ++ [s'], v, by simp, by simp [Configuration.apply, hsteps], ?_, ?_⟩
    · have hmoved : Configuration.moved c.tapes t.write t.directions =
          Configuration.moved [.between u (s' :: v) '#'] [s'] [.right] :=
        congr (congrArg₂ _ htapes hwrites) hmoves
      rw [Configuration.apply, hmoved]
      simp [Configuration.moved]
    · obtain ⟨x, hx⟩ := hmatched
      exact hnext.trans ⟨x, by rw [← hx, List.append_assoc]⟩

theorem tracks_of_reaches (h : factorMachine.Reaches n (factorMachine.initialConfiguration w) c) :
    Tracks w c :=
  h.preserves (fun _ _ hstep => Tracks.step hstep) (tracks_initialConfiguration w)

/-- A run takes at most one transition for each symbol of the word. -/
theorem factorMachine_runsEnd (w : Word) : factorMachine.RunsEnd w := by
  refine runsEnd_of_level_eq_nil (n := w.length + 1) (List.eq_nil_iff_forall_not_mem.mpr ?_)
  intro c hc
  have hreach := mem_level.mp hc
  obtain ⟨u, v, rfl, hsteps, -⟩ := tracks_of_reaches hreach
  rw [steps_of_reaches_initial hreach, List.length_append] at hsteps
  omega

/-- The machine that walks up to a factor and then matches it. -/
theorem factorMachine_reaches (hu : ∀ c ∈ u, c = 'a' ∨ c = 'b') (v : Word) :
    factorMachine.Reaches (u.length + 3)
      (factorMachine.initialConfiguration (u ++ 'a' :: 'b' :: 'a' :: v))
      ⟨"found", [.between (u ++ ['a', 'b', 'a']) v '#'], u.length + 3⟩ := by
  have hscan : ∀ c ∈ u,
      ("scan", ⟨[c], [id c], [.right], "scan"⟩) ∈ factorMachine.table.entries := by
    intro c hc
    rcases hu c hc with rfl | rfl <;> decide
  have hguess : ("scan", ⟨['a'], ['a'], [.right], "saw_a"⟩) ∈ factorMachine.table.entries := by
    decide
  have hsecond : ("saw_a", ⟨['b'], ['b'], [.right], "saw_ab"⟩) ∈ factorMachine.table.entries := by
    decide
  have hthird : ("saw_ab", ⟨['a'], ['a'], [.right], "found"⟩) ∈ factorMachine.table.entries := by
    decide
  have hwalk : factorMachine.Reaches u.length
      ⟨"scan", [.between [] (u ++ 'a' :: 'b' :: 'a' :: v) '#'], 0⟩
      ⟨"scan", [.between u ('a' :: 'b' :: 'a' :: v) '#'], u.length⟩ := by
    simpa using reaches_of_walk hscan [] ('a' :: 'b' :: 'a' :: v) 0
  refine hwalk.trans (.head (step_of_mem hguess ?_ rfl) (.head (step_of_mem hsecond ?_ rfl)
    (.head (step_of_mem hthird ?_ ?_) (.refl _))))
  all_goals simp [Configuration.moved]

/-- Some run accepts exactly if the word has the factor. -/
theorem factorMachine_accepts_iff (hw : ∀ c ∈ w, c = 'a' ∨ c = 'b') :
    (∃ n d, factorMachine.Reaches n (factorMachine.initialConfiguration w) d ∧
      factorMachine.IsAccepting d) ↔ ['a', 'b', 'a'] <:+: w := by
  constructor
  · rintro ⟨n, d, hreach, -, hfinal⟩
    obtain ⟨u, v, rfl, -, -, hmatched⟩ := tracks_of_reaches hreach
    rw [show d.state = "found" from hfinal] at hmatched
    exact (hmatched.isInfix).trans (List.prefix_append u v).isInfix
  · rintro ⟨u, v, rfl⟩
    have hu : ∀ c ∈ u, c = 'a' ∨ c = 'b' := fun c hc => hw c (by simp [hc])
    have hfound : ∀ e ∈ factorMachine.table.entries, e.1 ≠ "found" := by decide
    have hreach := factorMachine_reaches hu v
    rw [show u ++ ['a', 'b', 'a'] ++ v = u ++ 'a' :: 'b' :: 'a' :: v by simp]
    exact ⟨_, _, hreach, transitions_eq_nil hfound, rfl⟩

/-! ## A copy -/

/-- While the heads move on together, the word goes over to the second tape. -/
theorem copyMachine_copies (hv : ∀ c ∈ v, c = 'a' ∨ c = 'b') (u : Word) (n : Nat) :
    copyMachine.Reaches v.length ⟨"copy", [.between u v '#', .between u [] '#'], n⟩
      ⟨"copy", [.between (u ++ v) [] '#', .between (u ++ v) [] '#'], n + v.length⟩ := by
  induction v generalizing u n with
  | nil => simpa using Reaches.refl _
  | cons s v ih =>
    have hmem : ("copy", ⟨[s, '#'], [s, s], [.right, .right], "copy"⟩) ∈
        copyMachine.table.entries := by
      rcases hv s List.mem_cons_self with rfl | rfl <;> decide
    have hfirst : copyMachine.Step ⟨"copy", [.between u (s :: v) '#', .between u [] '#'], n⟩
        ⟨"copy", [.between (u ++ [s]) v '#', .between (u ++ [s]) [] '#'], n + 1⟩ :=
      step_of_mem hmem (by simp) (by simp [Configuration.moved])
    have hrest := ih (fun x hx => hv x (List.mem_cons_of_mem s hx)) (u ++ [s]) (n + 1)
    simpa [Nat.add_assoc, Nat.add_comm 1] using Reaches.head hfirst hrest

/-- The second head moves back over the copy, up to the blank in front of it. -/
theorem copyMachine_rewinds (hu : ∀ c ∈ u, c = 'a' ∨ c = 'b') (v : Word) (n : Nat) :
    copyMachine.Reaches u.length
      ⟨"rewind", [.between w ['#'] '#', (Tape.between u v '#').shift .left], n⟩
      ⟨"rewind", [.between w ['#'] '#', (Tape.between [] (u ++ v) '#').shift .left],
        n + u.length⟩ := by
  -- each move hands the last symbol left of the head to what stands from the head on
  induction u using List.reverseRecOn generalizing v n with
  | nil => exact .refl _
  | append_singleton u s ih =>
    have hmem : ("rewind", ⟨['#', s], ['#', s], [.stay, .left], "rewind"⟩) ∈
        copyMachine.table.entries := by
      rcases hu s (by simp) with rfl | rfl <;> decide
    have hfirst : copyMachine.Step
        ⟨"rewind", [.between w ['#'] '#', (Tape.between (u ++ [s]) v '#').shift .left], n⟩
        ⟨"rewind", [.between w ['#'] '#', (Tape.between u (s :: v) '#').shift .left], n + 1⟩ :=
      step_of_mem hmem (by simp) (by simp [Configuration.moved])
    have hrest := ih (fun x hx => hu x (by simp [hx])) (s :: v) (n + 1)
    simpa [Nat.add_assoc, Nat.add_comm 1] using Reaches.head hfirst hrest

/-- The machine copies, turns on the first blank, and goes back to the first symbol of the copy. -/
theorem copyMachine_haltsAfter (hw : ∀ c ∈ w, c = 'a' ∨ c = 'b') :
    copyMachine.HaltsAfter (copyMachine.initialConfiguration w) (w.length + (w.length + 1 + 1))
      ⟨"done", [.between w ['#'] '#', .between ['#'] (w ++ ['#']) '#'],
        w.length + 1 + w.length + 1⟩ := by
  have hturn : ("copy", ⟨['#', '#'], ['#', '#'], [.stay, .left], "rewind"⟩) ∈
      copyMachine.table.entries := by decide
  have hstop : ("rewind", ⟨['#', '#'], ['#', '#'], [.stay, .right], "done"⟩) ∈
      copyMachine.table.entries := by decide
  have hdone : ∀ e ∈ copyMachine.table.entries, e.1 ≠ "done" := by decide
  have hcopies : copyMachine.Reaches w.length ⟨"copy", [.between [] w '#', .between [] [] '#'], 0⟩
      ⟨"copy", [.between w [] '#', .between w [] '#'], w.length⟩ := by
    simpa using copyMachine_copies hw [] 0
  -- the second head walks back over the copy, and from the blank in front of it one cell on
  have hrewinds := copyMachine_rewinds (w := w) hw ['#'] (w.length + 1)
  refine ⟨hcopies.trans (.head (step_of_mem hturn ?_ ?_)
    (hrewinds.trans (.head (step_of_mem hstop ?_ ?_) (.refl _)))), transitions_eq_nil hdone⟩
  all_goals simp [Configuration.moved]

/-! ## Verdicts -/

/-- **The machines of the samples are right on all words.** Without a bound, the first one accepts a
word of binary digits after one transition more than the word has symbols, with the complement on
its tape. The second one always gives a verdict and accepts a word of `a`s and `b`s exactly if `aba`
is a factor of it. The third one accepts every word of `a`s and `b`s with that word on both tapes,
and its second head stands where the word begins. -/
theorem machines_decide_all_words :
    (∃ d, definitionOf "binary-complement" = .ok d ∧ ∀ w, (∀ c ∈ w, c = '0' ∨ c = '1') →
      ∃ s c t, d.automaton.simulate w none = some s ∧ s.result = .ok ⟨w, true, .halted c⟩ ∧
        c.steps = w.length + 1 ∧ c.tapes = [t] ∧ t.content = w.map complement) ∧
    (∃ d, definitionOf "contains-aba" = .ok d ∧ ∀ w, (∀ c ∈ w, c = 'a' ∨ c = 'b') →
      ∃ s v, d.automaton.simulate w none = some s ∧ s.result = .ok v ∧
        (v.accepted = true ↔ ['a', 'b', 'a'] <:+: w)) ∧
    (∃ d, definitionOf "two-tape-copy" = .ok d ∧ ∀ w, (∀ c ∈ w, c = 'a' ∨ c = 'b') →
      ∃ s c t t', d.automaton.simulate w none = some s ∧ s.result = .ok ⟨w, true, .halted c⟩ ∧
        c.tapes = [t, t'] ∧ t.content = w ∧ t'.content = w ∧
        t'.Represents (.ofWord w '#') ∧ t'.read = w.headD '#') := by
  refine ⟨⟨complementDefinition, definitionOf_stem (s := binaryComplement) (by simp [contents]),
      fun w hw => ?_⟩,
    ⟨factorDefinition, definitionOf_stem (s := containsAba) (by simp [contents]), fun w hw => ?_⟩,
    ⟨copyDefinition, definitionOf_stem (s := twoTapeCopy) (by simp [contents]), fun w hw => ?_⟩⟩
  · have hdet : complementMachine.IsDeterministic := by decide
    obtain ⟨s, hs, hresult⟩ :=
      hdet.simulate_of_haltsAfter (by decide) (complementMachine_haltsAfter hw) rfl
    refine ⟨s, _, _, hs, hresult, rfl, rfl, ?_⟩
    exact Tape.content_eq_of_padded (k := 0) (l := 1) rfl (blank_notMem_map_complement w)
  · obtain ⟨s, v, hs, hresult, hv⟩ := simulate_of_runsEnd (by decide) (factorMachine_runsEnd w)
    exact ⟨s, v, hs, hresult, hv.trans (factorMachine_accepts_iff hw)⟩
  · have hdet : copyMachine.IsDeterministic := by decide
    obtain ⟨s, hs, hresult⟩ :=
      hdet.simulate_of_haltsAfter (by decide) (copyMachine_haltsAfter hw) rfl
    have hblank : '#' ∉ w := fun hmem => by simpa using hw '#' hmem
    refine ⟨s, _, _, _, hs, hresult, rfl, ?_, ?_, ?_, ?_⟩
    · exact Tape.content_eq_of_padded (k := 0) (l := 1) rfl hblank
    · exact Tape.content_eq_of_padded (k := 1) (l := 1) rfl hblank
    · exact Tape.represents_of_padded 1 1 w '#'
    · rw [Tape.read_between]
      cases w <;> rfl

/-- The machines on a word each: `10` has the complement `01`, `baba` has the factor, and the copy
of `ab` is read from its `a` on. -/
theorem machines_decide_short_words :
    (∃ d s c t, definitionOf "binary-complement" = .ok d ∧
      d.automaton.simulate ['1', '0'] none = some s ∧
        s.result = .ok ⟨['1', '0'], true, .halted c⟩ ∧
          c.steps = 3 ∧ c.tapes = [t] ∧ t.content = ['0', '1']) ∧
    (∃ d s v, definitionOf "contains-aba" = .ok d ∧
      d.automaton.simulate ['b', 'a', 'b', 'a'] none = some s ∧ s.result = .ok v ∧
        v.accepted = true) ∧
    (∃ d s c t t', definitionOf "two-tape-copy" = .ok d ∧
      d.automaton.simulate ['a', 'b'] none = some s ∧
        s.result = .ok ⟨['a', 'b'], true, .halted c⟩ ∧ c.tapes = [t, t'] ∧
          t.content = ['a', 'b'] ∧ t'.content = ['a', 'b'] ∧ t'.read = 'a') := by
  obtain ⟨⟨d, hd, hcomplement⟩, ⟨d', hd', hfactor⟩, ⟨d'', hd'', hcopy⟩⟩ := machines_decide_all_words
  refine ⟨?_, ?_, ?_⟩
  · obtain ⟨s, c, t, hs, hresult, hsteps, htapes, hcontent⟩ := hcomplement ['1', '0'] (by simp)
    exact ⟨d, s, c, t, hd, hs, hresult, hsteps, htapes, hcontent⟩
  · obtain ⟨s, v, hs, hresult, hv⟩ := hfactor ['b', 'a', 'b', 'a'] (by simp)
    exact ⟨d', s, v, hd', hs, hresult, hv.mpr (by decide)⟩
  · obtain ⟨s, c, t, t', hs, hresult, htapes, ht, ht', -, hread⟩ := hcopy ['a', 'b'] (by simp)
    exact ⟨d'', s, c, t, t', hd'', hs, hresult, htapes, ht, ht', hread⟩

end Acceptors.Sample
