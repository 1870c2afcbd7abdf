import Acceptors.Proofs.Dfa.Edges
import Acceptors.Proofs.Dfa.Levels
import Mathlib.Data.Set.Card
import Mathlib.Data.Set.Finite.Range

/-!
# How many passes there are

The words of at most a given length sort the states into classes: two states share one if they accept
the same of these words. A pass that marks a pair breaks up a class, and the classes before the first
pass are two already, those of the accepting and of the other states, if there is anything to mark.
So after `k` passes there are `k + 2` classes at least, and never more than states. In a chain of
states whose last one accepts, all these passes take place.

## Main definitions

* `Dfa.shortWords`: the words up to a length that are accepted from a state
* `Dfa.classCount`: the number of classes of states that these words make
* `Dfa.chainEdges`: the edges of a chain

## Main results

* `shortWords_eq_iff`: states in one class
* `classCount_lt`: longer words that tell states of one class apart make more classes
* `add_two_le_classCount`, `passes_minimize_le`: the classes after a number of passes, and what they
  leave to the passes
* `acceptsFrom_chain_iff`: the words of a chain
* `passes_bound_is_sharp`: a minimization of `n` states takes `n - 2` passes at most, and as many for
  a chain
-/

namespace Acceptors

namespace Dfa

variable {d : Dfa} {t : Table} {k p q : Nat} {w : Word}

/-! ## Classes by short words -/

section

variable (d : Dfa)

/-- The words of at most `k` characters that are accepted from a state. -/
def shortWords (k s : Nat) : Set Word := {w | w.length ≤ k ∧ d.acceptsAfter s w = true}

/-- The number of classes of states that accept the same words of at most `k` characters. -/
noncomputable def classCount (k : Nat) : Nat :=
  (Set.range fun s : Fin d.states.length => d.shortWords k s).ncard

end

theorem shortWords_eq_iff :
    d.shortWords k p = d.shortWords k q ↔ ∀ w : Word, w.length ≤ k → ¬ d.TellsApart w p q := by
  rw [Set.ext_iff]
  refine forall_congr' fun w => ?_
  simp only [shortWords, Set.mem_ofPred_eq, and_congr_right_iff, TellsApart, ne_eq, not_not]
  exact imp_congr_right fun _ => Bool.eq_iff_iff.symm

/-- The shorter ones of the words of a state. -/
theorem shortWords_inter {l s : Nat} (hkl : k ≤ l) :
    d.shortWords l s ∩ {w | w.length ≤ k} = d.shortWords k s := by
  ext w
  simp only [shortWords, Set.mem_inter_iff, Set.mem_ofPred_eq]
  constructor
  · rintro ⟨⟨-, haccepts⟩, hk⟩
    exact ⟨hk, haccepts⟩
  · rintro ⟨hk, haccepts⟩
    exact ⟨⟨hk.trans hkl, haccepts⟩, hk⟩

theorem classCount_le (d : Dfa) (k : Nat) : d.classCount k ≤ d.states.length := by
  have himage : (Set.range fun s : Fin d.states.length => d.shortWords k s) =
      (fun s : Fin d.states.length => d.shortWords k s) '' Set.univ := Set.image_univ.symm
  rw [classCount, himage]
  refine (Set.ncard_image_le Set.finite_univ).trans ?_
  rw [Set.ncard_univ, Nat.card_fin]

/-- Two states that the empty word tells apart are in different classes. -/
theorem two_le_classCount (hp : p < d.states.length) (hq : q < d.states.length)
    (h : d.TellsApart [] p q) (k : Nat) : 2 ≤ d.classCount k := by
  apply (Set.one_lt_ncard_iff (Set.finite_range _)).mpr
  refine ⟨_, _, ⟨⟨p, hp⟩, rfl⟩, ⟨⟨q, hq⟩, rfl⟩, fun heq => ?_⟩
  exact shortWords_eq_iff.mp heq [] (Nat.zero_le k) h

/-- Longer words break up a class if they tell two of its states apart. -/
theorem classCount_lt {l : Nat} (hkl : k ≤ l) (hp : p < d.states.length)
    (hq : q < d.states.length) (hsame : d.shortWords k p = d.shortWords k q)
    (hdiffer : d.shortWords l p ≠ d.shortWords l q) : d.classCount k < d.classCount l := by
  have hrange : (Set.range fun s : Fin d.states.length => d.shortWords k s) =
      (· ∩ {w : Word | w.length ≤ k}) ''
        Set.range fun s : Fin d.states.length => d.shortWords l s := by
    rw [← Set.range_comp]
    exact congrArg Set.range (funext fun s => (shortWords_inter hkl).symm)
  have hfinite := Set.finite_range fun s : Fin d.states.length => d.shortWords l s
  rw [classCount, classCount, hrange]
  refine lt_of_le_of_ne (Set.ncard_image_le hfinite) fun hcard => hdiffer ?_
  -- if no class was broken up, the short words would tell all classes of the long ones apart
  apply Set.injOn_of_ncard_image_eq hcard hfinite
  · exact ⟨⟨p, hp⟩, rfl⟩
  · exact ⟨⟨q, hq⟩, rfl⟩
  · simpa only [shortWords_inter hkl] using hsame

/-! ## Classes and passes -/

/-- If a word tells two states apart, its end tells two states apart at once. -/
theorem IsComplete.exists_tellsApart_nil (hd : d.IsComplete) (hp : p < d.states.length)
    (hq : q < d.states.length) (hw : d.TellsApart w p q) :
    ∃ p' q', p' < d.states.length ∧ q' < d.states.length ∧ d.TellsApart [] p' q' := by
  induction w generalizing p q with
  | nil => exact ⟨p, q, hp, hq, hw⟩
  | cons c v ih =>
    obtain ⟨p', q', -, hp', hq', hv⟩ := hd.steps_of_tellsApart hp hq hw
    exact ih (hd.step?_lt hp') (hd.step?_lt hq') hv

/-- A pass that is counted finds a pair that takes a word of one more character. -/
theorem exists_tellsApart_of_getElem?_refinements_succ (hd : d.IsComplete)
    (ht : d.refinements[k + 1]? = some t) :
    ∃ p q w, p < d.states.length ∧ q < d.states.length ∧
      (∀ v : Word, v.length ≤ k → ¬ d.TellsApart v p q) ∧ w.length ≤ k + 1 ∧
        d.TellsApart w p q := by
  obtain ⟨x, hx, hmarks, rfl⟩ := of_getElem?_refinements_succ ht
  have hexact := isExact_of_getElem?_refinements hd hx
  have hpasses : x.passes = k := passes_of_getElem?_refinements hx
  obtain ⟨i, j, hj, hi, hnone, hsome⟩ := hexact.exists_new_mark hd hmarks
  have hj' : j < d.states.length := Nat.lt_trans hj hi
  obtain ⟨w, hlen, hw⟩ := ((hexact.refine hd).isSome_mark_iff hi hj').mp hsome
  rw [passes_of_getElem?_refinements ht] at hlen
  refine ⟨i, j, w, hi, hj', fun v hv happart => ?_, hlen, hw⟩
  -- before the pass a short word would have left a mark
  have hmark := hexact.isSome_mark i j v hi hj' (hpasses ▸ hv) happart
  rw [hnone] at hmark
  cases hmark

/-- Each pass makes one class more at least. -/
theorem add_two_le_classCount (hd : d.IsComplete) (hzero : 2 ≤ d.classCount 0)
    (ht : d.refinements[k]? = some t) : k + 2 ≤ d.classCount k := by
  induction k generalizing t with
  | zero => exact hzero
  | succ k ih =>
    obtain ⟨p, q, w, hp, hq, hshort, hlen, hw⟩ :=
      exists_tellsApart_of_getElem?_refinements_succ hd ht
    have hsame : d.shortWords k p = d.shortWords k q := shortWords_eq_iff.mpr hshort
    have hdiffer : d.shortWords (k + 1) p ≠ d.shortWords (k + 1) q :=
      fun heq => shortWords_eq_iff.mp heq w hlen hw
    have hlt : d.classCount k < d.classCount (k + 1) :=
      classCount_lt (Nat.le_succ k) hp hq hsame hdiffer
    obtain ⟨x, hx, -, -⟩ := of_getElem?_refinements_succ ht
    have hle : k + 2 ≤ d.classCount k := ih hx
    omega

theorem passes_minimize_le (hd : d.IsComplete) : d.minimize.passes ≤ d.names.length - 2 := by
  have hlast := getElem?_refinements_passes d
  cases hpasses : d.minimize.passes with
  | zero => exact Nat.zero_le _
  | succ k =>
    rw [hpasses] at hlast
    obtain ⟨p, q, w, hp, hq, -, -, hw⟩ := exists_tellsApart_of_getElem?_refinements_succ hd hlast
    -- the end of the word makes the first two classes
    obtain ⟨p', q', hp', hq', hnil⟩ := hd.exists_tellsApart_nil hp hq hw
    have hclasses : k + 1 + 2 ≤ d.classCount (k + 1) :=
      add_two_le_classCount hd (two_le_classCount hp' hq' hnil 0) hlast
    rw [length_names]
    exact Nat.le_sub_of_add_le (hclasses.trans (classCount_le d _))

theorem length_le_of_witness_minimize (hd : d.IsComplete) {p q : String}
    (hw : d.minimize.witness p q = some w) : w.length ≤ d.minimize.passes := by
  obtain ⟨i, j, -, -, hmark⟩ := Table.witness_eq_some_iff.mp hw
  exact ((isExact_minimize hd).tellsApart i j w hmark).2

/-! ## An automaton that needs all passes -/

/-- A name for each number. -/
def tally (i : Nat) : String := String.ofList (List.replicate i '|')

theorem tally_inj {i j : Nat} : tally i = tally j ↔ i = j := by
  rw [tally, tally, String.ofList_inj, List.replicate_inj]
  simp

/-- A chain of `n` states: its symbol leads from each to the next one, and the last is not left. -/
def chainEdges (n : Nat) : List Edge :=
  (List.range n).map fun i => ⟨tally i, 'a', tally (min (i + 1) (n - 1))⟩

theorem mem_chainEdges {n : Nat} {e : Edge} :
    e ∈ chainEdges n ↔ ∃ i < n, ⟨tally i, 'a', tally (min (i + 1) (n - 1))⟩ = e := by
  simp [chainEdges]

theorem agree_chainEdges (n : Nat) : Agree (chainEdges n) := by
  intro e he f hf hsource _
  obtain ⟨i, -, rfl⟩ := mem_chainEdges.mp he
  obtain ⟨j, -, rfl⟩ := mem_chainEdges.mp hf
  rw [tally_inj.mp hsource]

theorem mem_namesOf_chainEdges {n : Nat} (hn : 0 < n) {p : String} :
    p ∈ namesOf (tally 0) [tally (n - 1)] (chainEdges n) ↔ ∃ i < n, tally i = p := by
  rw [mem_namesOf]
  constructor
  · rintro (rfl | ⟨e, he, hp⟩ | hp)
    · exact ⟨0, hn, rfl⟩
    · obtain ⟨i, hi, rfl⟩ := mem_chainEdges.mp he
      rcases hp with rfl | rfl
      · exact ⟨i, hi, rfl⟩
      · exact ⟨min (i + 1) (n - 1), by omega, rfl⟩
    · rw [List.mem_singleton.mp hp]
      exact ⟨n - 1, by omega, rfl⟩
  · rintro ⟨i, hi, rfl⟩
    exact .inr (.inl ⟨_, mem_chainEdges.mpr ⟨i, hi, rfl⟩, .inl rfl⟩)

theorem mem_alphabetOf_chainEdges {n : Nat} (hn : 0 < n) {c : Char} :
    c ∈ alphabetOf none (chainEdges n) ↔ c = 'a' := by
  rw [alphabetOf, mem_ascending, Option.getD_none, List.mem_map]
  constructor
  · rintro ⟨e, he, rfl⟩
    obtain ⟨i, -, rfl⟩ := mem_chainEdges.mp he
    rfl
  · rintro rfl
    exact ⟨_, mem_chainEdges.mpr ⟨0, hn, rfl⟩, rfl⟩

theorem exists_chain {n : Nat} (hn : 0 < n) :
    ∃ d, ofEdges (tally 0) [tally (n - 1)] none (chainEdges n) = .ok d := by
  refine exists_ofEdges_iff.mpr ⟨fun e he => ?_, agree_chainEdges n, fun p hp c hc => ?_⟩
  · obtain ⟨i, -, rfl⟩ := mem_chainEdges.mp he
    exact (mem_alphabetOf_chainEdges hn).mpr rfl
  · obtain ⟨i, hi, rfl⟩ := (mem_namesOf_chainEdges hn).mp hp
    rw [(mem_alphabetOf_chainEdges hn).mp hc]
    exact ⟨_, mem_chainEdges.mpr ⟨i, hi, rfl⟩⟩

section

variable {n i : Nat} (h : ofEdges (tally 0) [tally (n - 1)] none (chainEdges n) = .ok d)

include h

theorem length_names_chain (hn : 0 < n) : d.names.length = n := by
  have hnodup : ((List.range n).map tally).Nodup :=
    List.Nodup.map (fun i j hij => tally_inj.mp hij) List.nodup_range
  have hperm : d.names.Perm ((List.range n).map tally) := by
    refine (List.perm_ext_iff_of_nodup (nodup_names_of_ofEdges h) hnodup).mpr fun p => ?_
    rw [names_of_ofEdges h, mem_namesOf_chainEdges hn]
    simp
  simpa using hperm.length_eq

theorem next?_chain {q : String} {c : Char} (hi : i < n) :
    d.next? (tally i) c = some q ↔ c = 'a' ∧ q = tally (min (i + 1) (n - 1)) := by
  rw [next?_eq_some_iff h, mem_chainEdges]
  constructor
  · rintro ⟨j, -, he⟩
    obtain ⟨hj, rfl, rfl⟩ := Edge.mk.inj he
    rw [tally_inj.mp hj]
    exact ⟨rfl, rfl⟩
  · rintro ⟨rfl, rfl⟩
    exact ⟨i, hi, rfl⟩

/-- A word is accepted if it is long enough for the end of the chain. -/
theorem acceptsFrom_chain_iff (hi : i < n) :
    d.acceptsFrom (tally i) w = true ↔ (∀ c ∈ w, c = 'a') ∧ n - 1 ≤ i + w.length := by
  induction w generalizing i with
  | nil =>
    rw [acceptsFrom_nil, isAccepting_eq_contains h, List.contains_iff_mem, List.mem_singleton,
      tally_inj]
    have heq : i = n - 1 ↔ n - 1 ≤ i := by omega
    simpa using heq
  | cons c w ih =>
    rw [(isComplete_of_ofEdges h).acceptsFrom_cons (nodup_names_of_ofEdges h), Option.any_eq_true]
    simp only [next?_chain h hi, and_assoc, exists_and_left, exists_eq_left]
    rw [ih (by omega), List.forall_mem_cons, List.length_cons, and_assoc]
    have hle : n - 1 ≤ min (i + 1) (n - 1) + w.length ↔ n - 1 ≤ i + (w.length + 1) := by omega
    rw [hle]

/-- Only long words tell the first two states of a chain apart. -/
theorem le_length_of_acceptsFrom_ne (hn : 2 ≤ n)
    (hw : d.acceptsFrom (tally 0) w ≠ d.acceptsFrom (tally 1) w) : n - 2 ≤ w.length := by
  have hzero := acceptsFrom_chain_iff (w := w) h (by omega : 0 < n)
  have hone := acceptsFrom_chain_iff (w := w) h (by omega : 1 < n)
  refine Nat.le_of_not_lt fun hlt => hw (Bool.eq_iff_iff.mpr ?_)
  rw [hzero, hone]
  omega

theorem acceptsFrom_replicate_ne (hn : 2 ≤ n) :
    d.acceptsFrom (tally 0) (List.replicate (n - 2) 'a') ≠
      d.acceptsFrom (tally 1) (List.replicate (n - 2) 'a') := by
  -- it is one symbol short of leading from the first state to the last
  have hzero : ¬ n - 1 ≤ 0 + (n - 2) := by omega
  have hone : n - 1 ≤ 1 + (n - 2) := by omega
  rw [ne_eq, Bool.eq_iff_iff, acceptsFrom_chain_iff h (by omega), acceptsFrom_chain_iff h (by omega),
    List.length_replicate]
  exact fun heq => hzero (heq.mpr ⟨fun c hc => List.eq_of_mem_replicate hc, hone⟩).2

/-- The witness of the first two states of a chain takes all passes that there can be. -/
theorem exists_witness_chain (hn : 2 ≤ n) :
    ∃ w, d.minimize.witness (tally 0) (tally 1) = some w ∧ n - 2 ≤ w.length := by
  have hmem : ∀ i < n, tally i ∈ d.names := by
    intro i hi
    rw [names_of_ofEdges h]
    exact (mem_namesOf_chainEdges (by omega)).mpr ⟨i, hi, rfl⟩
  obtain ⟨w, hw, -, hne⟩ := exists_witness_le_passes h (hmem 0 (by omega)) (hmem 1 (by omega))
    (acceptsFrom_replicate_ne h hn)
  exact ⟨w, hw, le_length_of_acceptsFrom_ne h hn hne⟩

end

/-- **Two passes fewer than states suffice, and are needed.** Of an automaton that is built from edges
and has `n` states, a minimization marks pairs in at most `n - 2` passes, and tries one more that
changes nothing. No witness has more than `n - 2` characters. For every `n` there is an automaton
that takes these passes and has a witness of this length. -/
theorem passes_bound_is_sharp {n : Nat} (hn : 2 ≤ n) :
    (∀ (initial : String) (accepting : List String) (given : Option (List Char))
        (edges : List Edge) (d : Dfa),
      ofEdges initial accepting given edges = .ok d → d.names.length = n →
        (d.refine d.minimize).marks = d.minimize.marks ∧ d.refinements.length ≤ n - 1 ∧
          d.minimize.passes ≤ n - 2 ∧
            ∀ p q w, d.minimize.witness p q = some w → w.length ≤ n - 2) ∧
    ∃ (initial : String) (accepting : List String) (given : Option (List Char))
        (edges : List Edge) (d : Dfa),
      ofEdges initial accepting given edges = .ok d ∧ d.names.length = n ∧
        d.minimize.passes = n - 2 ∧
          ∃ p q w, d.minimize.witness p q = some w ∧ w.length = n - 2 := by
  refine ⟨fun initial accepting given edges d h hlength => ?bound, ?attained⟩
  case bound =>
    have hd := isComplete_of_ofEdges h
    have hpasses : d.minimize.passes ≤ n - 2 := hlength ▸ passes_minimize_le hd
    refine ⟨marks_refine_minimize d, ?_, hpasses, fun p q w hw => ?_⟩
    · rw [length_refinements]
      omega
    · exact (length_le_of_witness_minimize hd hw).trans hpasses
  case attained =>
    obtain ⟨d, h⟩ := exists_chain (by omega : 0 < n)
    have hd := isComplete_of_ofEdges h
    have hlength : d.names.length = n := length_names_chain h (by omega)
    have hle : d.minimize.passes ≤ n - 2 := hlength ▸ passes_minimize_le hd
    obtain ⟨w, hw, hge⟩ := exists_witness_chain h hn
    have hlen : w.length ≤ d.minimize.passes := length_le_of_witness_minimize hd hw
    exact ⟨_, _, _, _, d, h, hlength, by omega, _, _, w, hw, by omega⟩

/-- Counting up to three takes four states and two passes. -/
theorem count_passes_attain_bound :
    2 ≤ 4 ∧ ofEdges "none" ["many"] none countEdges = .ok count ∧ count.names.length = 4 ∧
      count.minimize.passes = 4 - 2 ∧
        ∀ p q w, count.minimize.witness p q = some w → w.length ≤ 4 - 2 := by
  have h : ofEdges "none" ["many"] none countEdges = .ok count := rfl
  obtain ⟨hbound, -⟩ := passes_bound_is_sharp (by decide : 2 ≤ 4)
  obtain ⟨-, -, -, hwitness⟩ := hbound "none" ["many"] none countEdges count h rfl
  exact ⟨by decide, h, rfl, by decide +kernel, hwitness⟩

end Dfa

end Acceptors
