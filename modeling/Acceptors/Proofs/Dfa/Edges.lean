import Acceptors.Proofs.Dfa.Names

/-!
# What an automaton keeps of its edges

The checks of a list of edges are statements about all its edges, whatever their order: no symbol is
outside the alphabet, no two edges disagree, and an edge leaves each state on each symbol. An
automaton that is built from edges has exactly these edges: its targets are theirs. A word is then
accepted from a state if its first symbol leads to a state that accepts the rest of it.

## Main definitions

* `Dfa.Agree`: no two edges of a list disagree

## Main results

* `conflict?_eq_none_iff`, `exists_ofEdges_iff`: the checks as statements about all edges
* `next?_eq_some_iff`: the targets are those of the edges
* `isAccepting_eq_contains`: the accepting states are those that were named
* `acceptsFrom_nil`, `IsComplete.acceptsFrom_cons`: acceptance by symbols
-/

namespace Acceptors

namespace Dfa

variable {d : Dfa} {initial : String} {accepting : List String} {given : Option (List Char)}
  {edges : List Edge} {names : List String} {symbols : List Char} {p q : String} {c : Char}

/-! ## The checks -/

/-- Edges from one state on one symbol have one target. -/
def Agree (edges : List Edge) : Prop :=
  ∀ e ∈ edges, ∀ f ∈ edges, e.source = f.source → e.symbol = f.symbol → e.target = f.target

theorem Edge.disagrees_eq_true_iff {e f : Edge} :
    e.disagrees f = true ↔ e.source = f.source ∧ e.symbol = f.symbol ∧ e.target ≠ f.target := by
  simp [disagrees, and_assoc]

theorem Agree.cons {e : Edge} (h : Agree edges) (he : ∀ f ∈ edges, ¬ e.disagrees f = true) :
    Agree (e :: edges) := by
  have htarget : ∀ f ∈ edges, e.source = f.source → e.symbol = f.symbol → e.target = f.target := by
    intro f hf hsource hsymbol
    refine Classical.byContradiction fun hne => he f hf ?_
    exact Edge.disagrees_eq_true_iff.mpr ⟨hsource, hsymbol, hne⟩
  intro f hf g hg hsource hsymbol
  rcases List.mem_cons.mp hf with rfl | hf'
  · rcases List.mem_cons.mp hg with rfl | hg'
    · rfl
    · exact htarget g hg' hsource hsymbol
  · rcases List.mem_cons.mp hg with rfl | hg'
    · exact (htarget f hf' hsource.symm hsymbol.symm).symm
    · exact h f hf' g hg' hsource hsymbol

theorem Agree.iff_of_perm {l : List Edge} (h : edges.Perm l) : Agree edges ↔ Agree l := by
  simp only [Agree, h.mem_iff]

theorem conflictAfter?_eq_none_iff {earlier : List Edge} (hearlier : Agree earlier) :
    conflictAfter? earlier edges = none ↔ Agree (edges ++ earlier) := by
  induction edges generalizing earlier with
  | nil => exact iff_of_true rfl hearlier
  | cons e es ih =>
    rw [conflictAfter?]
    split
    · next hany =>
      obtain ⟨f, hf, hef⟩ := List.any_eq_true.mp hany
      obtain ⟨hsource, hsymbol, hne⟩ := Edge.disagrees_eq_true_iff.mp hef
      refine iff_of_false (Option.some_ne_none e) fun h => hne ?_
      exact h e (by simp) f (by simp [hf]) hsource hsymbol
    · next hany =>
      have hcons : Agree (e :: earlier) :=
        hearlier.cons fun f hf hef => hany (List.any_eq_true.mpr ⟨f, hf, hef⟩)
      rw [ih hcons, List.cons_append]
      exact Agree.iff_of_perm List.perm_middle

theorem conflict?_eq_none_iff : conflict? edges = none ↔ Agree edges := by
  rw [conflict?, conflictAfter?_eq_none_iff (fun e he => absurd he List.not_mem_nil),
    List.append_nil]

theorem strayEdge?_eq_none_iff :
    strayEdge? symbols edges = none ↔ ∀ e ∈ edges, e.symbol ∈ symbols := by
  simp [strayEdge?]

theorem isSome_target?_iff :
    (target? edges p c).isSome ↔ ∃ q, (⟨p, c, q⟩ : Edge) ∈ edges := by
  rw [target?, Option.isSome_map, List.find?_isSome]
  constructor
  · rintro ⟨⟨p, c, q⟩, he, hpc⟩
    simp only [Bool.and_eq_true, decide_eq_true_eq] at hpc
    obtain ⟨rfl, rfl⟩ := hpc
    exact ⟨q, he⟩
  · rintro ⟨q, he⟩
    exact ⟨_, he, by simp⟩

theorem Agree.target?_eq_some_iff (h : Agree edges) :
    target? edges p c = some q ↔ (⟨p, c, q⟩ : Edge) ∈ edges := by
  refine ⟨edge_of_target?_eq_some, fun he => ?_⟩
  obtain ⟨r, hr⟩ := Option.isSome_iff_exists.mp (isSome_target?_iff.mpr ⟨q, he⟩)
  have hqr : q = r := h _ he _ (edge_of_target?_eq_some hr) rfl rfl
  rw [hr, hqr]

/-- An automaton is built exactly if the edges stay within the alphabet, agree and leave each state on
each symbol, in whatever order they are listed. -/
theorem exists_ofEdges_iff :
    (∃ d, ofEdges initial accepting given edges = .ok d) ↔
      (∀ e ∈ edges, e.symbol ∈ alphabetOf given edges) ∧ Agree edges ∧
        ∀ p ∈ namesOf initial accepting edges, ∀ c ∈ alphabetOf given edges,
          ∃ q, (⟨p, c, q⟩ : Edge) ∈ edges := by
  simp only [ofEdges_eq_ok_iff, exists_and_left, exists_eq', and_true, check_eq_ok_iff,
    strayEdge?_eq_none_iff, conflict?_eq_none_iff, gap?_eq_none_iff, isSome_target?_iff]

/-! ## Targets -/

/-- If nothing is left out, each element stands at its place. -/
theorem getElem?_filterMap_of_isSome {α β : Type} {f : α → Option β} {l : List α}
    (h : ∀ a ∈ l, (f a).isSome) (i : Nat) : (l.filterMap f)[i]? = (l[i]?).bind f := by
  induction l generalizing i with
  | nil => rfl
  | cons a l ih =>
    obtain ⟨ha, hl⟩ := List.forall_mem_cons.mp h
    obtain ⟨b, hb⟩ := Option.isSome_iff_exists.mp ha
    rw [List.filterMap_cons_some hb]
    cases i with
    | zero => exact hb.symm
    | succ i => exact ih hl i

theorem step?_onStates (hgap : gap? names symbols edges = none) {s : Nat}
    (hs : names[s]? = some p) (hc : c ∈ symbols) :
    (onStates names accepting symbols edges).step? s c = (target? edges p c).map names.idxOf := by
  obtain ⟨a, ha⟩ := Option.isSome_iff_exists.mp (List.isSome_idxOf?.mpr hc)
  obtain ⟨halt, hac, -⟩ := List.idxOf?_eq_some_iff.mp ha
  have hsome : ∀ b ∈ symbols, ((target? edges p b).map names.idxOf).isSome := by
    intro b hb
    rw [Option.isSome_map]
    exact gap?_eq_none_iff.mp hgap p (List.mem_of_getElem? hs) b hb
  simp only [step?, onStates, ha, Option.bind_eq_bind, Option.bind_some, List.getElem?_map, hs,
    Option.map_some, getElem?_filterMap_of_isSome hsome, List.getElem?_eq_getElem halt, hac]

theorem nameOf_idxOf (hq : q ∈ d.names) : d.nameOf (d.names.idxOf q) = q := by
  rw [nameOf, List.getElem?_eq_getElem (List.idxOf_lt_length_iff.mpr hq), List.getElem_idxOf,
    Option.getD_some]

theorem index?_eq_none_iff : d.index? p = none ↔ p ∉ d.names := by
  rw [index?, List.idxOf?_eq_none_iff]

theorem symbol_mem_alphabet (h : ofEdges initial accepting given edges = .ok d) {e : Edge}
    (he : e ∈ edges) : e.symbol ∈ d.alphabet := by
  have hsymbols := (exists_ofEdges_iff.mp ⟨d, h⟩).1
  obtain ⟨-, rfl⟩ := ofEdges_eq_ok_iff.mp h
  exact hsymbols e he

/-- The target of a state, by name. -/
theorem map_nameOf_step? (h : ofEdges initial accepting given edges = .ok d) {s : Nat}
    (hs : s < d.states.length) (hc : c ∈ d.alphabet) :
    (d.step? s c).map d.nameOf = target? edges (d.nameOf s) c := by
  have hnames := names_of_ofEdges h
  have hstep : d.step? s c = (target? edges (d.nameOf s) c).map d.names.idxOf := by
    have hget := getElem?_names hs
    obtain ⟨hcheck, hd⟩ := ofEdges_eq_ok_iff.mp h
    rw [hnames] at hget ⊢
    subst hd
    exact step?_onStates (check_eq_ok_iff.mp hcheck).2.2 hget hc
  rw [hstep]
  cases htarget : target? edges (d.nameOf s) c with
  | none => rfl
  | some q =>
    have hq : q ∈ d.names := by
      rw [hnames]
      exact target_mem_namesOf (edge_of_target?_eq_some htarget)
    exact congrArg some (nameOf_idxOf hq)

/-- The targets are those of the edges. -/
theorem next?_eq_some_iff (h : ofEdges initial accepting given edges = .ok d) :
    d.next? p c = some q ↔ (⟨p, c, q⟩ : Edge) ∈ edges := by
  have hd := isComplete_of_ofEdges h
  have hagree : Agree edges := (exists_ofEdges_iff.mp ⟨d, h⟩).2.1
  by_cases hp : p ∈ d.names
  case neg =>
    have hedge : (⟨p, c, q⟩ : Edge) ∉ edges := by
      rw [names_of_ofEdges h] at hp
      exact fun he => hp (mem_namesOf.mpr (.inr (.inl ⟨_, he, .inl rfl⟩)))
    simp [next?, index?_eq_none_iff.mpr hp, hedge]
  obtain ⟨s, hs, rfl⟩ := exists_nameOf_eq hp
  rw [next?_nameOf (nodup_names_of_ofEdges h) hs]
  by_cases hc : c ∈ d.alphabet
  case neg =>
    have hedge : (⟨d.nameOf s, c, q⟩ : Edge) ∉ edges := fun he => hc (symbol_mem_alphabet h he)
    simp [hd.step?_eq_none hs hc, hedge]
  rw [map_nameOf_step? h hs hc, hagree.target?_eq_some_iff]

/-! ## Acceptance -/

theorem acceptsAt_onStates {s : Nat} (hs : names[s]? = some p) :
    (onStates names accepting symbols edges).acceptsAt s = accepting.contains p := by
  simp [acceptsAt, onStates, hs]

/-- The accepting states are those that were named. -/
theorem isAccepting_eq_contains (h : ofEdges initial accepting given edges = .ok d) :
    d.isAccepting p = accepting.contains p := by
  have hnames := names_of_ofEdges h
  by_cases hp : p ∈ d.names
  case neg =>
    have hnot : p ∉ accepting := by
      rw [hnames] at hp
      exact fun hacc => hp (mem_namesOf.mpr (.inr (.inr hacc)))
    simp [isAccepting, index?_eq_none_iff.mpr hp, hnot]
  obtain ⟨s, hs, rfl⟩ := exists_nameOf_eq hp
  have hget := getElem?_names hs
  rw [hnames] at hget
  rw [isAccepting_nameOf (nodup_names_of_ofEdges h) hs, ← acceptsAt_onStates hget,
    (ofEdges_eq_ok_iff.mp h).2]

theorem acceptsFrom_nil (d : Dfa) (p : String) : d.acceptsFrom p [] = d.isAccepting p := by
  rw [acceptsFrom, runFrom]
  cases hindex : d.index? p with
  | none => simp [isAccepting, hindex]
  | some s =>
    obtain ⟨hs, hget, -⟩ := List.idxOf?_eq_some_iff.mp hindex
    have hname : d.nameOf s = p := by rw [← getElem_names hs, hget]
    simp [Except.map, hname]

/-- A word is accepted if its first symbol leads to a state from which the rest of it is. -/
theorem IsComplete.acceptsFrom_cons (hd : d.IsComplete) (hnames : d.names.Nodup) (w : Word) :
    d.acceptsFrom p (c :: w) = (d.next? p c).any fun q => d.acceptsFrom q w := by
  by_cases hp : p ∈ d.names
  case neg => simp [acceptsFrom, runFrom, next?, index?_eq_none_iff.mpr hp]
  obtain ⟨s, hs, rfl⟩ := exists_nameOf_eq hp
  rw [hd.acceptsFrom_nameOf hnames hs, acceptsAfter_cons, next?_nameOf hnames hs, Option.any_map]
  cases ht : d.step? s c with
  | none => rfl
  | some t => exact (hd.acceptsFrom_nameOf hnames (hd.step?_lt ht)).symm

end Dfa

end Acceptors
