import Acceptors.Proofs.Machine.TableOrder

/-!
# Tables as ordered maps

A table of transitions can be kept as an ordered map: to each state and the symbols that are read in
it belong the transitions with them, the last one inserted behind the others. This map holds what the
sorted list of a table holds. Its groups are what the insertions hold for their keys, so going
through the groups in the order of the keys gives the stable sort of the insertions.

## Main definitions

* `Grouped`: elements that are grouped by keys in order
* `GroupedTable`: transitions that are grouped by state and symbols
* `GroupedTable.Agrees`: a map and a table hold the same

## Main results

* `Grouped.getElem?_push`, `Grouped.getElem?_ofList`: one insertion, and any number of them
* `Grouped.elements_ofList`: the elements are the stable sort of the insertions
* `GroupedTable.agrees_ofRules`: the map of some insertions holds what their table holds
-/

namespace Acceptors

/-! ## Groups in the order of their keys -/

/-- In groups with different keys, the elements with one of the keys are those of its group. -/
theorem filter_flatMap_of_distinct {κ α : Type} [DecidableEq κ] {k : κ} {group : List α}
    {groups : List (κ × List α)} (hgroups : groups.Pairwise fun x y => x.1 ≠ y.1)
    (h : (k, group) ∈ groups) :
    (groups.flatMap fun x => x.2.map (Prod.mk x.1)).filter (fun e => e.1 = k) =
      group.map (Prod.mk k) := by
  -- an element has the key of its group
  have hkey : ∀ x : κ × List α, ∀ e ∈ x.2.map (Prod.mk x.1), e.1 = x.1 := fun x e he => by
    obtain ⟨_, -, rfl⟩ := List.mem_map.mp he
    rfl
  induction groups with
  | nil => cases h
  | cons x groups ih =>
    obtain ⟨hx, hrest⟩ := List.pairwise_cons.mp hgroups
    rw [List.flatMap_cons, List.filter_append]
    rcases List.mem_cons.mp h with rfl | h
    · have hself : (group.map (Prod.mk k)).filter (fun e => e.1 = k) = group.map (Prod.mk k) :=
        List.filter_eq_self.mpr fun e he => decide_eq_true (hkey (k, group) e he)
      have hothers : (groups.flatMap fun x => x.2.map (Prod.mk x.1)).filter (fun e => e.1 = k) =
          [] := by
        refine List.filter_eq_nil_iff.mpr fun e he hek => ?_
        obtain ⟨y, hy, hmem⟩ := List.mem_flatMap.mp he
        exact hx y hy ((of_decide_eq_true hek).symm.trans (hkey y e hmem))
      rw [hself, hothers, List.append_nil]
    · have hfirst : (x.2.map (Prod.mk x.1)).filter (fun e => e.1 = k) = [] :=
        List.filter_eq_nil_iff.mpr fun e he hek =>
          hx _ h ((hkey x e he).symm.trans (of_decide_eq_true hek))
      rw [hfirst, List.nil_append, ih hrest h]

/-- Elements that are grouped by keys, the groups in increasing order of the keys. -/
structure Grouped (κ α : Type) [LinearOrder κ] where
  groups : Std.TreeMap κ (List α)

namespace Grouped

variable {κ α : Type} [LinearOrder κ]

/-- No elements. -/
def empty : Grouped κ α := ⟨∅⟩

/-- Adds an element to the group of a key, as the last one. -/
def push (g : Grouped κ α) (k : κ) (a : α) : Grouped κ α :=
  ⟨g.groups.alter k fun group => some (group.getD [] ++ [a])⟩

/-- The group of a key, if there is an element in it. -/
def find? (g : Grouped κ α) (k : κ) : Option (List α) :=
  g.groups[k]?.filter fun group => !group.isEmpty

/-- The elements with their keys, one group after the other. -/
def elements (g : Grouped κ α) : List (κ × α) :=
  g.groups.toList.flatMap fun x => x.2.map (Prod.mk x.1)

/-- The number of elements. -/
def size (g : Grouped κ α) : Nat := g.groups.foldl (fun n _ group => n + group.length) 0

/-- The elements with the given keys, added one after the other. -/
def ofList (l : List (κ × α)) : Grouped κ α := l.foldl (fun g e => g.push e.1 e.2) empty

variable {g : Grouped κ α} {k : κ} {group : List α}

theorem mem_toList_iff : (k, group) ∈ g.groups.toList ↔ g.groups[k]? = some group :=
  Std.TreeMap.mem_toList_iff_getElem?_eq_some

theorem pairwise_elements (g : Grouped κ α) : g.elements.Pairwise fun e f => e.1 ≤ f.1 := by
  refine List.pairwise_flatMap.mpr ⟨fun x _ => ?_, ?_⟩
  · exact List.pairwise_map.mpr (List.pairwise_of_forall fun _ _ => le_rfl)
  · refine (Std.TreeMap.ordered_keys_toList (t := g.groups)).imp fun {x y} hxy e he f hf => ?_
    obtain ⟨_, -, rfl⟩ := List.mem_map.mp he
    obtain ⟨_, -, rfl⟩ := List.mem_map.mp hf
    exact (compare_lt_iff_lt.mp hxy).le

theorem size_eq_length (g : Grouped κ α) : g.size = g.elements.length := by
  have hfold : ∀ (l : List (κ × List α)) (n : Nat), l.foldl (fun n x => n + x.2.length) n =
      n + (l.flatMap fun x => x.2.map (Prod.mk x.1)).length := by
    intro l
    induction l with
    | nil => simp
    | cons x l ih =>
      intro n
      rw [List.foldl_cons, ih, List.flatMap_cons, List.length_append, List.length_map,
        Nat.add_assoc]
  rw [size, Std.TreeMap.foldl_eq_foldl_toList, hfold, Nat.zero_add, elements]

/-! ## What the groups hold -/

variable [DecidableEq κ]

theorem getElem?_push (k k' : κ) (a : α) :
    (g.push k a).groups[k']? =
      if k = k' then some (g.groups[k]?.getD [] ++ [a]) else g.groups[k']? := by
  rw [push, Std.TreeMap.getElem?_alter]
  simp only [compare_eq_iff_eq]

/-- The group of a key are the elements that were added with it, in their order. -/
theorem getElem?_ofList (l : List (κ × α)) (k : κ) :
    (ofList l).groups[k]? =
      if l.filter (fun e => e.1 = k) = [] then none
      else some ((l.filter fun e => e.1 = k).map Prod.snd) := by
  induction l using List.reverseRecOn with
  | nil => rfl
  | append_singleton l e ih =>
    have hlast : ofList (l ++ [e]) = (ofList l).push e.1 e.2 := by
      rw [ofList, List.foldl_append]
      rfl
    rw [hlast, getElem?_push]
    -- the last insertion changes the group of its own key only
    by_cases hk : e.1 = k
    · subst hk
      rw [if_pos rfl, ih]
      split
      · next hnone => simp [hnone]
      · next hsome => simp
    · rw [if_neg hk, ih, List.filter_append, List.filter_cons_of_neg (by simpa using hk),
        List.filter_nil, List.append_nil]

theorem find?_ofList (l : List (κ × α)) (k : κ) :
    (ofList l).find? k =
      if l.filter (fun e => e.1 = k) = [] then none
      else some ((l.filter fun e => e.1 = k).map Prod.snd) := by
  rw [find?, getElem?_ofList]
  split
  · rfl
  · next h => simpa [Option.filter] using h

theorem filter_elements (g : Grouped κ α) (k : κ) :
    g.elements.filter (fun e => e.1 = k) = (g.groups[k]?.getD []).map (Prod.mk k) := by
  cases hgroup : g.groups[k]? with
  | none =>
    refine List.filter_eq_nil_iff.mpr fun e he => ?_
    obtain ⟨x, hx, hmem⟩ := List.mem_flatMap.mp he
    obtain ⟨a, -, rfl⟩ := List.mem_map.mp hmem
    have hsome : g.groups[x.1]? = some x.2 := mem_toList_iff.mp hx
    intro hk
    rw [of_decide_eq_true hk, hgroup] at hsome
    cases hsome
  | some group =>
    have hdistinct : g.groups.toList.Pairwise fun x y => x.1 ≠ y.1 :=
      (Std.TreeMap.distinct_keys_toList (t := g.groups)).imp fun hxy heq =>
        hxy (compare_eq_iff_eq.mpr heq)
    exact filter_flatMap_of_distinct hdistinct (mem_toList_iff.mpr hgroup)

/-- The elements are the stable sort of what was added. -/
theorem elements_ofList (l : List (κ × α)) :
    (ofList l).elements = l.mergeSort fun e f => e.1 ≤ f.1 := by
  refine eq_of_filter_eq (pairwise_elements _) (pairwise_mergeSort_key l) fun k => ?_
  have hpairs : ((l.filter fun e => e.1 = k).map Prod.snd).map (Prod.mk k) =
      l.filter fun e => e.1 = k := by
    rw [List.map_map]
    refine (List.map_congr_left fun e he => ?_).trans (List.map_id _)
    rw [← of_decide_eq_true (List.mem_filter.mp he).2]
    rfl
  rw [filter_elements, filter_mergeSort, getElem?_ofList]
  split
  · next hnone => rw [hnone]; rfl
  · exact hpairs

end Grouped

/-! ## Transitions in the order of state and symbols -/

/-- Transitions that are grouped by the state that they leave and the symbols that they read. -/
abbrev GroupedTable := Grouped (String ×ₗ List Char) Transition

namespace GroupedTable

/-- Adds a transition that leaves the given state. -/
def insert (g : GroupedTable) (state : String) (transition : Transition) : GroupedTable :=
  g.push (toLex (state, transition.read)) transition

/-- The transitions of a state that read the given symbols, if there is one. -/
def get? (g : GroupedTable) (state : String) (symbols : List Char) : Option (List Transition) :=
  g.find? (toLex (state, symbols))

/-- The transitions in order, each with the state that it leaves. -/
def entries (g : GroupedTable) : List (String × Transition) :=
  g.elements.map fun x => ((ofLex x.1).1, x.2)

/-- The transitions, inserted one after the other. -/
def ofRules (rules : List (String × Transition)) : GroupedTable :=
  rules.foldl (fun g e => insert g e.1 e.2) Grouped.empty

/-- The map and the table hold the same: what is found in the map, if anything is, is what is found
in the table, and both list the same transitions in the same order. -/
structure Agrees (g : GroupedTable) (t : TransitionTable) : Prop where
  get?_eq : ∀ state symbols, get? g state symbols =
    if t.find state symbols = [] then none else some (t.find state symbols)
  entries_eq : entries g = t.entries
  size_eq : g.size = t.size

theorem ofRules_eq_ofList (rules : List (String × Transition)) :
    ofRules rules = Grouped.ofList (rules.map fun e => (TransitionTable.key e, e.2)) := by
  rw [Grouped.ofList, List.foldl_map]
  rfl

theorem entries_ofRules (rules : List (String × Transition)) :
    (ofRules rules).entries = (TransitionTable.ofList rules).entries := by
  have hkeys : ((rules.mergeSort fun e f => TransitionTable.key e ≤ TransitionTable.key f).map
      fun e => (TransitionTable.key e, e.2)) =
        (rules.map fun e => (TransitionTable.key e, e.2)).mergeSort fun x y => x.1 ≤ y.1 :=
    List.map_mergeSort fun _ _ _ _ => rfl
  rw [entries, ofRules_eq_ofList, Grouped.elements_ofList, ← hkeys, List.map_map,
    TransitionTable.entries_ofList]
  exact List.map_id _

/-- The map of some insertions holds what their table holds. -/
theorem agrees_ofRules (rules : List (String × Transition)) :
    (ofRules rules).Agrees (TransitionTable.ofList rules) where
  get?_eq state symbols := by
    rw [get?, ofRules_eq_ofList, Grouped.find?_ofList, TransitionTable.find_ofList_eq_filter_key,
      List.filter_map, List.map_map]
    simp only [List.map_eq_nil_iff]
    rfl
  entries_eq := entries_ofRules rules
  size_eq := by
    rw [TransitionTable.size, ← entries_ofRules, Grouped.size_eq_length, entries, List.length_map]

end GroupedTable

end Acceptors
