import Acceptors.Proofs.Dfa.Distinguish

/-!
# Passes and lengths

A pass reads the marks of the table as it was, so it marks exactly the pairs that a word of one more
character tells apart. The tables of a minimization are therefore one for each length: from the empty
word on, up to the length that suffices for all pairs that any word tells apart. No length is left
out, as a pass that marks nothing is the last one. An observer is handed these tables.

## Main results

* `minimizeWith_eq`: what the observer of a minimization is handed
* `of_getElem?_refinements`: what the first table has and a pass keeps, the tables have
* `length_refinements`, `getElem?_refinements_passes`: the number of tables, and the last one
* `Table.IsExact.isSome_mark_iff`: the marks of a table and the lengths of words
* `Table.IsExact.exists_new_mark`: a pass that changes a table marks a new pair
* `refinements_are_levels`: the tables of a minimization are the levels of word lengths
-/

namespace Acceptors

namespace Dfa

variable {d : Dfa} {t x y : Table} {i j k l p q : Nat} {w : Word}

/-! ## The tables of a minimization -/

theorem getElem?_refinementsFrom_zero (d : Dfa) (t : Table) :
    (d.refinementsFrom t)[0]? = some t := by
  rw [refinementsFrom_eq]
  split <;> rfl

/-- Every table but the first comes from the one before it, by a pass that marks a pair. -/
theorem of_getElem?_refinementsFrom_succ (h : (d.refinementsFrom t)[k + 1]? = some y) :
    ∃ x, (d.refinementsFrom t)[k]? = some x ∧ (d.refine x).marks ≠ x.marks ∧ d.refine x = y := by
  induction k generalizing t with
  | zero =>
    rw [refinementsFrom_eq] at h
    split at h
    · cases h
    · next hmarks =>
      rw [List.getElem?_cons_succ, getElem?_refinementsFrom_zero] at h
      exact ⟨t, getElem?_refinementsFrom_zero d t, hmarks, Option.some.inj h⟩
  | succ k ih =>
    rw [refinementsFrom_eq] at h ⊢
    split at h
    · cases h
    · next hmarks =>
      rw [if_neg hmarks, List.getElem?_cons_succ]
      exact ih h

theorem of_getElem?_refinements_succ (h : d.refinements[k + 1]? = some y) :
    ∃ x, d.refinements[k]? = some x ∧ (d.refine x).marks ≠ x.marks ∧ d.refine x = y :=
  of_getElem?_refinementsFrom_succ h

/-- What the first table has and a pass hands on, every table of a minimization has, with the number
of passes before it. -/
theorem of_getElem?_refinements {P : Nat → Table → Prop} (hzero : P 0 d.initialTable)
    (hsucc : ∀ k t, P k t → P (k + 1) (d.refine t)) (h : d.refinements[k]? = some t) : P k t := by
  induction k generalizing t with
  | zero =>
    obtain rfl : d.initialTable = t :=
      Option.some.inj ((getElem?_refinementsFrom_zero d _).symm.trans h)
    exact hzero
  | succ k ih =>
    obtain ⟨x, hx, -, rfl⟩ := of_getElem?_refinements_succ h
    exact hsucc k x (ih hx)

theorem passes_of_getElem?_refinements (h : d.refinements[k]? = some t) : t.passes = k :=
  of_getElem?_refinements (P := fun k t => t.passes = k) rfl
    (fun _ _ hk => congrArg (· + 1) hk) h

theorem isExact_of_getElem?_refinements (hd : d.IsComplete) (h : d.refinements[k]? = some t) :
    t.IsExact d :=
  of_getElem?_refinements (P := fun _ t => t.IsExact d) (Table.IsExact.initial d)
    (fun _ _ ht => ht.refine hd) h

theorem refinements_ne_nil (d : Dfa) : d.refinements ≠ [] := by
  rw [refinements, refinementsFrom_eq]
  split <;> exact List.cons_ne_nil _ _

theorem getLast?_refinements (d : Dfa) : d.refinements.getLast? = some d.minimize := by
  rw [minimize, List.getLastD_eq_getLast?, List.getLast?_eq_some_getLast (refinements_ne_nil d),
    Option.getD_some]

/-- There is one table more than passes. -/
theorem length_refinements (d : Dfa) : d.refinements.length = d.minimize.passes + 1 := by
  have hlast := getLast?_refinements d
  rw [List.getLast?_eq_getElem?] at hlast
  have hpasses := passes_of_getElem?_refinements hlast
  have hpos := List.length_pos_iff.mpr (refinements_ne_nil d)
  omega

theorem getElem?_refinements_passes (d : Dfa) :
    d.refinements[d.minimize.passes]? = some d.minimize := by
  rw [← getLast?_refinements d, List.getLast?_eq_getElem?, length_refinements, Nat.add_sub_cancel]

/-! ## Observers -/

section

variable {σ : Type} (observe : σ → Table → σ)

theorem refineWith_eq (s : σ) (t x : Table) :
    d.refineWith observe (observe s t) t =
      ((d.refinementsFrom t).foldl observe s, (d.refinementsFrom t).getLastD x) := by
  induction t using refinementsFrom.induct d generalizing s x with
  | case1 t hmarks =>
    rw [refineWith, refinementsFrom_eq, dif_pos hmarks, if_pos hmarks]
    rfl
  | case2 t hmarks ih =>
    rw [refineWith, refinementsFrom_eq, dif_neg hmarks, if_neg hmarks, List.foldl_cons,
      List.getLastD_cons]
    exact ih (observe s t) t

/-- An observer does not change the complete table, and is handed the tables of the minimization in
their order. -/
theorem minimizeWith_eq (start : σ) :
    d.minimizeWith observe start = (d.refinements.foldl observe start, d.minimize) :=
  refineWith_eq observe start d.initialTable d.initialTable

end

/-! ## Marks from pass to pass -/

namespace Table

/-- A table marks the pairs that some word of at most as many characters as it counts passes tells
apart. -/
theorem IsExact.isSome_mark_iff (h : t.IsExact d) (hp : p < d.states.length)
    (hq : q < d.states.length) :
    (t.mark p q).isSome ↔ ∃ w, w.length ≤ t.passes ∧ d.TellsApart w p q := by
  constructor
  · intro hmark
    obtain ⟨w, hw⟩ := Option.isSome_iff_exists.mp hmark
    obtain ⟨happart, hlen⟩ := h.tellsApart p q w hw
    exact ⟨w, hlen, happart⟩
  · rintro ⟨w, hlen, happart⟩
    exact h.isSome_mark p q w hp hq hlen happart

/-- A pass leaves the marks that are there. -/
theorem IsExact.mark_refine_of_eq_some (h : t.IsExact d) (hw : t.mark p q = some w) :
    (d.refine t).mark p q = some w := by
  refine of_mark_eq_some (P := fun p q w => (d.refine t).mark p q = some w) h.length_row ?_ ?_ hw
  · intro p q w hw
    rwa [mark_comm]
  · intro i j w hj hi hw
    rw [h.mark_refine (h.length_marks ▸ hi) hj, hw, Option.some_or]

/-- Two tables of one shape are alike if their marks are. -/
theorem marks_eq_of_mark_eq {n : Nat} (hx : x.marks.length = n) (hy : y.marks.length = n)
    (hxrow : ∀ i (row : List (Option Word)), x.marks[i]? = some row → row.length = i)
    (hyrow : ∀ i (row : List (Option Word)), y.marks[i]? = some row → row.length = i)
    (h : ∀ i j, j < i → i < n → x.mark i j = y.mark i j) : x.marks = y.marks := by
  refine List.ext_getElem (hx.trans hy.symm) fun i hi hi' => ?_
  have hrow := hxrow i _ (List.getElem?_eq_getElem hi)
  have hrow' := hyrow i _ (List.getElem?_eq_getElem hi')
  refine List.ext_getElem (hrow.trans hrow'.symm) fun j hj hj' => ?_
  have hmark := h i j (hrow ▸ hj) (hx ▸ hi)
  rw [mark_of_lt (hrow ▸ hj), mark_of_lt (hrow ▸ hj)] at hmark
  simpa [hi, hi', hj, hj'] using hmark

/-- A pass that changes a table marks a pair that had no mark. -/
theorem IsExact.exists_new_mark (h : t.IsExact d) (hd : d.IsComplete)
    (hmarks : (d.refine t).marks ≠ t.marks) :
    ∃ i j, j < i ∧ i < d.states.length ∧ t.mark i j = none ∧ ((d.refine t).mark i j).isSome := by
  have hrefine := h.refine hd
  refine Classical.byContradiction fun hnone => hmarks ?_
  refine marks_eq_of_mark_eq hrefine.length_marks h.length_marks hrefine.length_row h.length_row
    fun i j hj hi => ?_
  cases hmark : t.mark i j with
  | some w => exact h.mark_refine_of_eq_some hmark
  | none =>
    rw [← Option.not_isSome_iff_eq_none]
    exact fun hsome => hnone ⟨i, j, hj, hi, hmark, hsome⟩

end Table

theorem mark_of_getElem?_refinements (hd : d.IsComplete) (hkl : k ≤ l)
    (hx : d.refinements[k]? = some x) (hy : d.refinements[l]? = some y)
    (hw : x.mark p q = some w) : y.mark p q = some w := by
  induction l generalizing y with
  | zero =>
    obtain rfl := Nat.le_zero.mp hkl
    rwa [← Option.some.inj (hx.symm.trans hy)]
  | succ l ih =>
    rcases Nat.le_succ_iff.mp hkl with hle | rfl
    · obtain ⟨z, hz, -, rfl⟩ := of_getElem?_refinements_succ hy
      exact (isExact_of_getElem?_refinements hd hz).mark_refine_of_eq_some (ih hle hz)
    · rwa [← Option.some.inj (hx.symm.trans hy)]

/-! ## Levels by name -/

theorem Table.witness_eq_some_iff {p q : String} :
    t.witness p q = some w ↔ ∃ i j, t.names.idxOf? p = some i ∧ t.names.idxOf? q = some j ∧
      t.mark i j = some w := by
  simp only [witness, Option.bind_eq_bind, Option.bind_eq_some_iff]
  constructor
  · rintro ⟨i, hi, j, hj, hw⟩
    exact ⟨i, j, hi, hj, hw⟩
  · rintro ⟨i, j, hi, hj, hw⟩
    exact ⟨i, hi, j, hj, hw⟩

section

variable {initial : String} {accepting : List String} {given : Option (List Char)}
  {edges : List Edge}

/-- The table after `k` passes distinguishes the states that some word of at most `k` characters
tells apart. -/
theorem isDistinguished_iff_of_getElem?_refinements (h : ofEdges initial accepting given edges = .ok d)
    (ht : d.refinements[k]? = some t) {p q : String} (hp : p ∈ d.names) (hq : q ∈ d.names) :
    t.isDistinguished p q = true ↔
      ∃ w : Word, w.length ≤ k ∧ d.acceptsFrom p w ≠ d.acceptsFrom q w := by
  have hd := isComplete_of_ofEdges h
  have hnames := nodup_names_of_ofEdges h
  have hexact := isExact_of_getElem?_refinements hd ht
  obtain ⟨i, hi, rfl⟩ := exists_nameOf_eq hp
  obtain ⟨j, hj, rfl⟩ := exists_nameOf_eq hq
  rw [Table.isDistinguished, Table.witness_nameOf hexact.names_eq hnames hi hj,
    hexact.isSome_mark_iff hi hj, passes_of_getElem?_refinements ht]
  exact exists_congr fun w => and_congr_right fun _ => (hd.acceptsFrom_ne_iff hnames hi hj).symm

/-- A witness is kept in all later tables. -/
theorem witness_of_getElem?_refinements (hd : d.IsComplete) (hkl : k ≤ l)
    (hx : d.refinements[k]? = some x) (hy : d.refinements[l]? = some y) {p q : String}
    (hw : x.witness p q = some w) : y.witness p q = some w := by
  have hnames : y.names = x.names :=
    (isExact_of_getElem?_refinements hd hy).names_eq.trans
      (isExact_of_getElem?_refinements hd hx).names_eq.symm
  obtain ⟨i, j, hi, hj, hmark⟩ := Table.witness_eq_some_iff.mp hw
  rw [Table.witness_eq_some_iff, hnames]
  exact ⟨i, j, hi, hj, mark_of_getElem?_refinements hd hkl hx hy hmark⟩

/-- Every pass that is counted distinguishes states that were not distinguished before. -/
theorem exists_newly_distinguished (h : ofEdges initial accepting given edges = .ok d)
    (hx : d.refinements[k]? = some x) (hy : d.refinements[k + 1]? = some y) :
    ∃ p ∈ d.names, ∃ q ∈ d.names,
      x.isDistinguished p q = false ∧ y.isDistinguished p q = true := by
  have hd := isComplete_of_ofEdges h
  have hnames := nodup_names_of_ofEdges h
  have hexact := isExact_of_getElem?_refinements hd hx
  obtain ⟨z, hz, hmarks, rfl⟩ := of_getElem?_refinements_succ hy
  obtain rfl : x = z := Option.some.inj (hx.symm.trans hz)
  obtain ⟨i, j, hj, hi, hnone, hsome⟩ := hexact.exists_new_mark hd hmarks
  have hj' : j < d.states.length := Nat.lt_trans hj hi
  refine ⟨d.nameOf i, nameOf_mem hi, d.nameOf j, nameOf_mem hj', ?_, ?_⟩
  · rw [Table.isDistinguished, Table.witness_nameOf hexact.names_eq hnames hi hj', hnone]
    rfl
  · rw [Table.isDistinguished, Table.witness_nameOf (hexact.refine hd).names_eq hnames hi hj']
    exact hsome

/-- If any word tells two states apart, their witness is no longer than the number of passes. -/
theorem exists_witness_le_passes (h : ofEdges initial accepting given edges = .ok d) {p q : String}
    (hp : p ∈ d.names) (hq : q ∈ d.names) (hw : d.acceptsFrom p w ≠ d.acceptsFrom q w) :
    ∃ v, d.minimize.witness p q = some v ∧ v.length ≤ d.minimize.passes ∧
      d.acceptsFrom p v ≠ d.acceptsFrom q v := by
  have hd := isComplete_of_ofEdges h
  have hnames := nodup_names_of_ofEdges h
  obtain ⟨i, hi, rfl⟩ := exists_nameOf_eq hp
  obtain ⟨j, hj, rfl⟩ := exists_nameOf_eq hq
  have hmark : (d.minimize.mark i j).isSome :=
    (isSome_mark_minimize_iff hd hi hj).mpr ⟨w, (hd.acceptsFrom_ne_iff hnames hi hj).mp hw⟩
  obtain ⟨v, hv⟩ := Option.isSome_iff_exists.mp hmark
  obtain ⟨happart, hlen⟩ := (isExact_minimize hd).tellsApart i j v hv
  rw [witness_minimize_nameOf hd hnames hi hj]
  exact ⟨v, hv, hlen, (hd.acceptsFrom_ne_iff hnames hi hj).mpr happart⟩

/-- **The tables of a minimization are the levels of word lengths.** The observer of a minimization is
handed one table more than passes are counted, in order. The table after `k` passes counts `k` and
distinguishes the states that a word of at most `k` characters tells apart. A pair keeps its witness
in all later tables, and every pass distinguishes a pair that was not distinguished before it. No
pair of states needs a word that is longer than the number of passes. -/
theorem refinements_are_levels (h : ofEdges initial accepting given edges = .ok d) :
    (∀ {σ : Type} (observe : σ → Table → σ) (start : σ),
      d.minimizeWith observe start = (d.refinements.foldl observe start, d.minimize)) ∧
    d.refinements.length = d.minimize.passes + 1 ∧
    (∀ k t, d.refinements[k]? = some t → t.passes = k ∧
      ∀ p ∈ d.names, ∀ q ∈ d.names, t.isDistinguished p q = true ↔
        ∃ w : Word, w.length ≤ k ∧ d.acceptsFrom p w ≠ d.acceptsFrom q w) ∧
    (∀ (k l : Nat) (x y : Table), k ≤ l → d.refinements[k]? = some x → d.refinements[l]? = some y →
      ∀ p q w, x.witness p q = some w → y.witness p q = some w) ∧
    (∀ k x y, d.refinements[k]? = some x → d.refinements[k + 1]? = some y →
      ∃ p ∈ d.names, ∃ q ∈ d.names,
        x.isDistinguished p q = false ∧ y.isDistinguished p q = true) ∧
    ∀ p ∈ d.names, ∀ q ∈ d.names, (∃ w, d.acceptsFrom p w ≠ d.acceptsFrom q w) →
      ∃ w : Word, w.length ≤ d.minimize.passes ∧ d.acceptsFrom p w ≠ d.acceptsFrom q w := by
  have hd := isComplete_of_ofEdges h
  refine ⟨minimizeWith_eq, length_refinements d, ?levels, ?kept, ?marking, ?enough⟩
  case levels =>
    intro k t ht
    exact ⟨passes_of_getElem?_refinements ht, fun p hp q hq =>
      isDistinguished_iff_of_getElem?_refinements h ht hp hq⟩
  case kept =>
    intro k l x y hkl hx hy p q w hw
    exact witness_of_getElem?_refinements hd hkl hx hy hw
  case marking =>
    intro k x y hx hy
    exact exists_newly_distinguished h hx hy
  case enough =>
    rintro p hp q hq ⟨w, hw⟩
    obtain ⟨v, -, hv⟩ := exists_witness_le_passes h hp hq hw
    exact ⟨v, hv⟩

end

/-- A state for each number of characters up to three. -/
def countEdges : List Edge := [
  ⟨"none", 'a', "one"⟩,
  ⟨"none", 'b', "one"⟩,
  ⟨"one", 'a', "two"⟩,
  ⟨"one", 'b', "two"⟩,
  ⟨"two", 'a', "many"⟩,
  ⟨"two", 'b', "many"⟩,
  ⟨"many", 'a', "many"⟩,
  ⟨"many", 'b', "many"⟩]

/-- The automaton with these edges that accepts the words of three characters or more. -/
def count : Dfa := onStates ["none", "one", "two", "many"] ["many"] ['a', 'b'] countEdges

theorem count_levels :
    ofEdges "none" ["many"] none countEdges = .ok count ∧ count.refinements.length = 3 ∧
      (∀ w : Word, w.length ≤ 1 → count.acceptsFrom "none" w = count.acceptsFrom "one" w) ∧
        ∃ w : Word, w.length ≤ 2 ∧ count.acceptsFrom "none" w ≠ count.acceptsFrom "one" w := by
  have h : ofEdges "none" ["many"] none countEdges = .ok count := rfl
  obtain ⟨-, hlength, hlevels, -, -, henough⟩ := refinements_are_levels h
  have hpasses : count.minimize.passes = 2 := by decide +kernel
  have hfirst : count.refinements[1]? = some (count.refine count.initialTable) := by
    decide +kernel
  rw [hpasses] at hlength henough
  refine ⟨h, hlength, fun w hw => ?_,
    henough "none" (by decide +kernel) "one" (by decide +kernel)
      ⟨['a', 'a'], by decide +kernel⟩⟩
  -- the first pass leaves the two states together
  by_cases heq : count.acceptsFrom "none" w = count.acceptsFrom "one" w
  · exact heq
  · have hmarked := ((hlevels 1 _ hfirst).2 "none" (by decide +kernel) "one"
      (by decide +kernel)).mpr ⟨w, hw, heq⟩
    exact absurd hmarked (by decide +kernel)

end Dfa

end Acceptors
