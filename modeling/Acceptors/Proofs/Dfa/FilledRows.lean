import Acceptors.Gather
import Acceptors.Proofs.Dfa.Edges
import Mathlib.Data.List.Basic
import Mathlib.Data.List.Induction

/-!
# Filling in the targets

An automaton can be put together place by place. Each state has a row with a place for each symbol,
and nothing stands there at first. One edge after the other enters its target at its place, where it
replaces what an earlier edge has entered. In the end each place is read, and one that is still
empty is reported. Behind the check of the edges none is: edges that agree enter the same targets,
in whatever order, and each state has an edge on each symbol.

## Main definitions

* `Dfa.enter`, `Dfa.filledRows`: what an edge enters, and what all edges enter
* `Dfa.ofRows`: the automaton with the targets of the rows, or what the rows lack
* `Dfa.ofEdgesByRows`: the automaton that is put together in this way

## Main results

* `enter_eq`, `filledRows_eq`: what stands at each place
* `ofRows_eq_onStates`: full rows are those of the automaton on the states
* `ofEdgesByRows_eq`: putting an automaton together reports nothing behind the check
-/

namespace Acceptors

namespace Dfa

variable {initial : String} {accepting : List String} {given : Option (List Char)}
  {edges : List Edge} {names : List String} {symbols : List Char} {e : Edge}

/-! ## Rows -/

/-- Enters the target of an edge in the row of its source, if its states and its symbol have their
places there. -/
def enter (names : List String) (symbols : List Char) (rows : List (List (Option Nat))) (e : Edge) :
    List (List (Option Nat)) :=
  match names.idxOf? e.source, symbols.idxOf? e.symbol, names.idxOf? e.target with
  | some s, some a, some t => rows.modify s fun row => row.set a (some t)
  | _, _, _ => rows

/-- The rows after all edges, each with a place for each symbol. -/
def filledRows (names : List String) (symbols : List Char) (edges : List Edge) :
    List (List (Option Nat)) :=
  edges.foldl (enter names symbols) (names.map fun _ => symbols.map fun _ => none)

/-- The targets in the row of a state, or the first symbol that has none. -/
def targetsIn (symbols : List Char) (name : String) (row : List (Option Nat)) :
    Except Defect (List Nat) :=
  gather (List.zipWith (fun c t? => t?.elim (.error (.missingTransition name c)) .ok) symbols row)

/-- The automaton with the targets in the rows, or the first state and symbol that have none. -/
def ofRows (names : List String) (accepting : List String) (symbols : List Char)
    (rows : List (List (Option Nat))) : Except Defect Dfa :=
  (gather (List.zipWith (fun q row =>
    (targetsIn symbols q row).map (State.mk q (accepting.contains q))) names rows)).map
      fun states => ⟨symbols, states, 0⟩

/-- The automaton with the given edges, put together from rows behind the check of the edges. -/
def ofEdgesByRows (initial : String) (accepting : List String) (given : Option (List Char))
    (edges : List Edge) : Except Defect Dfa :=
  let names := namesOf initial accepting edges
  let symbols := alphabetOf given edges
  check names symbols edges >>= fun _ =>
    ofRows names accepting symbols (filledRows names symbols edges)

/-! ## What stands at each place -/

theorem modify_map_of_idxOf? {α β : Type} [DecidableEq α] {l : List α} (hl : l.Nodup) {a : α}
    {i : Nat} (ha : l.idxOf? a = some i) (f : α → β) (g : β → β) :
    (l.map f).modify i g = l.map fun b => if a = b then g (f b) else f b := by
  obtain ⟨hi, hget, -⟩ := List.idxOf?_eq_some_iff.mp ha
  refine List.ext_getElem? fun j => ?_
  rw [List.getElem?_modify, List.getElem?_map, List.getElem?_map]
  by_cases hij : i = j
  · subst hij
    simp [List.getElem?_eq_getElem hi, hget]
  · cases hj : l[j]? with
    | none => simp [hij]
    | some b =>
      -- the element stands at one place only
      have hne : a ≠ b := by
        rintro rfl
        obtain ⟨hjlt, hjget⟩ := List.getElem?_eq_some_iff.mp hj
        exact hij ((List.getElem_inj hl).mp (hget.trans hjget.symm))
      simp [hij, hne]

/-- An edge enters its target for its source and its symbol, and leaves all other places. -/
theorem enter_eq (hnames : names.Nodup) (hsymbols : symbols.Nodup) (hsource : e.source ∈ names)
    (hsymbol : e.symbol ∈ symbols) (htarget : e.target ∈ names) (f : String → Char → Option Nat) :
    enter names symbols (names.map fun q => symbols.map (f q)) e =
      names.map fun q => symbols.map fun c =>
        if e.source = q ∧ e.symbol = c then some (names.idxOf e.target) else f q c := by
  obtain ⟨s, hs⟩ := Option.isSome_iff_exists.mp (List.isSome_idxOf?.mpr hsource)
  obtain ⟨a, ha⟩ := Option.isSome_iff_exists.mp (List.isSome_idxOf?.mpr hsymbol)
  obtain ⟨t, ht⟩ := Option.isSome_iff_exists.mp (List.isSome_idxOf?.mpr htarget)
  have hrow : ∀ q, (symbols.map (f q)).set a (some t) =
      symbols.map fun c => if e.symbol = c then some t else f q c := fun q => by
    rw [List.set_eq_modify, modify_map_of_idxOf? hsymbols ha]
  rw [enter, hs, ha, ht]
  simp only [modify_map_of_idxOf? hnames hs, hrow]
  rw [List.idxOf_eq_getD_idxOf?, ht, Option.getD_some]
  refine List.map_congr_left fun q _ => ?_
  by_cases hq : e.source = q
  · simp [hq]
  · simp [hq]

theorem target?_cons (l : List Edge) (q : String) (c : Char) :
    target? (e :: l) q c =
      if e.source = q ∧ e.symbol = c then some e.target else target? l q c := by
  rw [target?, target?, List.find?_cons]
  by_cases h : e.source = q ∧ e.symbol = c
  · simp [h]
  · have hpair : (decide (e.source = q) && decide (e.symbol = c)) = false := by simpa using h
    rw [if_neg h, hpair]

/-- What stands at each place is the target of the last edge for it. -/
theorem filledRows_eq (hnames : names.Nodup) (hsymbols : symbols.Nodup)
    (hedges : ∀ e ∈ edges, e.source ∈ names ∧ e.symbol ∈ symbols ∧ e.target ∈ names) :
    filledRows names symbols edges = names.map fun q => symbols.map fun c =>
      (target? edges.reverse q c).map names.idxOf := by
  -- the last edge is entered last, so it comes first when the edges are searched backwards
  induction edges using List.reverseRecOn with
  | nil => rfl
  | append_singleton edges e ih =>
    obtain ⟨hbefore, he⟩ := List.forall_mem_append.mp hedges
    obtain ⟨hsource, hsymbol, htarget⟩ := he e List.mem_cons_self
    rw [filledRows, List.foldl_append, List.foldl_cons, List.foldl_nil]
    change enter names symbols (filledRows names symbols edges) e = _
    rw [ih hbefore, enter_eq hnames hsymbols hsource hsymbol htarget, List.reverse_append]
    refine List.map_congr_left fun q _ => List.map_congr_left fun c _ => ?_
    rw [List.reverse_singleton, List.singleton_append, target?_cons]
    split <;> rfl

/-! ## What is read -/

theorem targetsIn_eq_ok {f : Char → Option Nat} (q : String)
    (h : ∀ c ∈ symbols, (f c).isSome) :
    targetsIn symbols q (symbols.map f) = .ok (symbols.filterMap f) := by
  have hvalues : List.zipWith
      (fun c t? => (t? : Option Nat).elim (.error (.missingTransition q c)) .ok) symbols
        (symbols.map f) = (symbols.filterMap f).map (Except.ok (ε := Defect)) := by
    induction symbols with
    | nil => rfl
    | cons c symbols ih =>
      obtain ⟨hc, hsymbols⟩ := List.forall_mem_cons.mp h
      obtain ⟨t, ht⟩ := Option.isSome_iff_exists.mp hc
      rw [List.map_cons, List.zipWith_cons_cons, ih hsymbols, List.filterMap_cons_some ht, ht]
      rfl
  rw [targetsIn, hvalues, gather_map_ok]

/-- Rows in which an edge of each state on each symbol stands are read as its targets. -/
theorem ofRows_eq_onStates (hgap : gap? names symbols edges = none) :
    ofRows names accepting symbols (names.map fun q => symbols.map fun c =>
      (target? edges q c).map names.idxOf) = .ok (onStates names accepting symbols edges) := by
  have hstates : List.zipWith (fun q row =>
      (targetsIn symbols q row).map (State.mk q (accepting.contains q))) names
        (names.map fun q => symbols.map fun c => (target? edges q c).map names.idxOf) =
      (onStates names accepting symbols edges).states.map Except.ok := by
    rw [List.zipWith_map_right, List.zipWith_self, onStates, List.map_map]
    refine List.map_congr_left fun q hq => ?_
    rw [targetsIn_eq_ok q fun c hc => by
      rw [Option.isSome_map]
      exact gap?_eq_none_iff.mp hgap q hq c hc]
    rfl
  rw [ofRows, hstates, gather_map_ok]
  rfl

/-- **Putting an automaton together reports nothing behind the check.** It gives the automaton of
the edges, or what the check reports. -/
theorem ofEdgesByRows_eq (initial : String) (accepting : List String) (given : Option (List Char))
    (edges : List Edge) :
    ofEdgesByRows initial accepting given edges = ofEdges initial accepting given edges := by
  rw [ofEdgesByRows, ofEdges]
  cases hcheck : check (namesOf initial accepting edges) (alphabetOf given edges) edges with
  | error defect => rfl
  | ok u =>
    obtain ⟨hstray, hconflict, hgap⟩ := check_eq_ok_iff.mp hcheck
    have hagree : Agree edges := conflict?_eq_none_iff.mp hconflict
    -- the last edge for a place has the target of the first one
    have htarget : ∀ q c, target? edges.reverse q c = target? edges q c := fun q c => by
      refine Option.ext fun t => ?_
      rw [hagree.target?_eq_some_iff, ((Agree.iff_of_perm edges.reverse_perm.symm).mp
        hagree).target?_eq_some_iff, List.mem_reverse]
    have hnames : (namesOf initial accepting edges).Nodup := nodup_distinct _
    have hsymbols : (alphabetOf given edges).Nodup :=
      (pairwise_alphabetOf given).imp fun h => Char.ne_of_lt h
    have hnamed : ∀ e ∈ edges, e.source ∈ namesOf initial accepting edges ∧
        e.symbol ∈ alphabetOf given edges ∧ e.target ∈ namesOf initial accepting edges := fun e he =>
      ⟨mem_namesOf.mpr (.inr (.inl ⟨e, he, .inl rfl⟩)), strayEdge?_eq_none_iff.mp hstray e he,
        target_mem_namesOf he⟩
    have hfilled := filledRows_eq hnames hsymbols hnamed
    simp only [htarget] at hfilled
    show ofRows _ _ _ (filledRows _ _ edges) = _
    rw [hfilled]
    exact ofRows_eq_onStates hgap

end Dfa

end Acceptors
