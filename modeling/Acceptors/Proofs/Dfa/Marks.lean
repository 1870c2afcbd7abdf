import Acceptors.Proofs.Dfa.Names

/-!
# Marks and words

After a number of passes the table marks exactly the pairs of states that some word of at most as
many characters tells apart, each with such a word. A word that starts with a symbol tells two
states apart if the rest of it tells their targets apart, so a pass reaches the words that are one
character longer. When a pass changes nothing, the rest of a word of any length has a mark.

## Main definitions

* `Dfa.Table.IsExact`: the marks of a table are those of as many passes as it counts

## Main results

* `Table.IsExact.initial`, `Table.IsExact.refine`: the first table, and one more pass
* `Table.IsExact.isSome_mark_of_tellsApart`: a table that a pass does not change marks all pairs that
  any word tells apart
* `isExact_minimize`, `marks_refine_minimize`: the complete table
-/

namespace Acceptors

namespace Dfa

variable {d : Dfa} {t : Table} {i j p q : Nat} {c : Char} {v w : Word}

/-! ## Words that tell states apart -/

theorem TellsApart.symm (h : d.TellsApart w p q) : d.TellsApart w q p := Ne.symm h

theorem not_tellsApart_self : ¬ d.TellsApart w p p := fun h => h rfl

theorem tellsApart_nil_iff : d.TellsApart [] i j ↔ d.acceptsAt i ≠ d.acceptsAt j := Iff.rfl

theorem tellsApart_cons_iff (hp : d.step? i c = some p) (hq : d.step? j c = some q) :
    d.TellsApart (c :: v) i j ↔ d.TellsApart v p q := by
  rw [TellsApart, acceptsAfter_cons, acceptsAfter_cons, hp, hq]
  rfl

/-- A word that tells states of a complete automaton apart starts with a symbol of the alphabet. -/
theorem IsComplete.steps_of_tellsApart (h : d.IsComplete) (hi : i < d.states.length)
    (hj : j < d.states.length) (hcv : d.TellsApart (c :: v) i j) :
    ∃ p q, c ∈ d.alphabet ∧ d.step? i c = some p ∧ d.step? j c = some q ∧ d.TellsApart v p q := by
  by_cases hc : c ∈ d.alphabet
  · obtain ⟨p, hp⟩ := h.exists_step? hi hc
    obtain ⟨q, hq⟩ := h.exists_step? hj hc
    exact ⟨p, q, hc, hp, hq, (tellsApart_cons_iff hp hq).mp hcv⟩
  · -- outside the alphabet both states reject
    refine absurd ?_ hcv
    rw [acceptsAfter_cons, acceptsAfter_cons, h.step?_eq_none hi hc, h.step?_eq_none hj hc]

/-! ## Extending a mark by a symbol -/

theorem isSome_shortest_of_mem {l : List Word} (h : w ∈ l) : (shortest l).isSome := by
  cases l with
  | nil => cases h
  | cons u l =>
    rw [shortest]
    split
    · rfl
    · split <;> rfl

/-- The words in front of the first of the shortest are longer, and none behind it is shorter. -/
theorem exists_append_of_shortest {l : List Word} (h : shortest l = some w) :
    ∃ before after, l = before ++ w :: after ∧ (∀ u ∈ before, w.length < u.length) ∧
      ∀ u ∈ after, w.length ≤ u.length := by
  induction l generalizing w with
  | nil => cases h
  | cons u l ih =>
    rw [shortest] at h
    cases hl : shortest l with
    | none =>
      obtain rfl : u = w := by simpa [hl] using h
      refine ⟨[], l, rfl, by simp, fun x hx => ?_⟩
      simpa [hl] using isSome_shortest_of_mem hx
    | some v =>
      obtain ⟨before, after, rfl, hbefore, hafter⟩ := ih hl
      simp only [hl] at h
      split at h
      · next hlt =>
        obtain rfl := Option.some.inj h
        exact ⟨u :: before, after, rfl, by simpa using ⟨hlt, hbefore⟩, hafter⟩
      · next hge =>
        obtain rfl := Option.some.inj h
        refine ⟨[], _, rfl, by simp, fun x hx => ?_⟩
        rcases List.mem_append.mp hx with hx | hx
        · exact Nat.le_trans (Nat.le_of_not_lt hge) (Nat.le_of_lt (hbefore x hx))
        · rcases List.mem_cons.mp hx with rfl | hx
          · exact Nat.le_of_not_lt hge
          · exact Nat.le_trans (Nat.le_of_not_lt hge) (hafter x hx)

theorem mem_of_shortest_eq_some {l : List Word} (h : shortest l = some w) : w ∈ l := by
  obtain ⟨before, after, rfl, -, -⟩ := exists_append_of_shortest h
  exact List.mem_append_right before List.mem_cons_self

theorem of_extension?_eq_some (h : d.extension? t i j = some w) :
    ∃ c p q v, c ∈ d.alphabet ∧ d.step? i c = some p ∧ d.step? j c = some q ∧
      t.mark p q = some v ∧ w = c :: v := by
  obtain ⟨c, hc, hw⟩ := List.mem_filterMap.mp (mem_of_shortest_eq_some h)
  obtain ⟨p, hp, hw⟩ := Option.bind_eq_some_iff.mp hw
  obtain ⟨q, hq, hw⟩ := Option.bind_eq_some_iff.mp hw
  obtain ⟨v, hv, hw⟩ := Option.bind_eq_some_iff.mp hw
  exact ⟨c, p, q, v, hc, hp, hq, hv, (Option.some.inj hw).symm⟩

theorem isSome_extension?_of_mark (hc : c ∈ d.alphabet) (hp : d.step? i c = some p)
    (hq : d.step? j c = some q) (hv : t.mark p q = some v) : (d.extension? t i j).isSome := by
  refine isSome_shortest_of_mem (w := c :: v) (List.mem_filterMap.mpr ⟨c, hc, ?_⟩)
  rw [hp, hq]
  simp [hv]

/-! ## The places of a table -/

namespace Table

/-- The marks of a table are those of as many passes as it counts: its places are the pairs of
states, a mark tells its pair apart, and a pair that a short word tells apart has a mark. -/
structure IsExact (d : Dfa) (t : Table) : Prop where
  names_eq : t.names = d.names
  length_marks : t.marks.length = d.states.length
  length_row : ∀ i (row : List (Option Word)), t.marks[i]? = some row → row.length = i
  tellsApart : ∀ p q w, t.mark p q = some w → d.TellsApart w p q ∧ w.length ≤ t.passes
  isSome_mark : ∀ p q w, p < d.states.length → q < d.states.length → w.length ≤ t.passes →
    d.TellsApart w p q → (t.mark p q).isSome

theorem mark_of_lt (h : j < i) :
    t.mark i j = ((t.marks[i]?).bind fun row => row[j]?).join := by
  rw [mark, Nat.max_eq_left (Nat.le_of_lt h), Nat.min_eq_right (Nat.le_of_lt h)]

theorem lt_of_mark_eq_some (h : t.mark p q = some w) : p < t.marks.length ∧ q < t.marks.length := by
  rw [mark] at h
  obtain ⟨row, hrow, -⟩ := Option.bind_eq_some_iff.mp (Option.join_eq_some_iff.mp h)
  have hlt := (List.getElem?_eq_some_iff.mp hrow).1
  omega

/-- A state has no place beside itself. -/
theorem mark_self
    (hrows : ∀ i (row : List (Option Word)), t.marks[i]? = some row → row.length = i) (p : Nat) :
    t.mark p p = none := by
  rw [mark, Nat.max_self, Nat.min_self]
  cases hrow : t.marks[p]? with
  | none => rfl
  | some row =>
    rw [Option.bind_some, List.getElem?_eq_none (Nat.le_of_eq (hrows p row hrow))]
    rfl

/-- What does not depend on the order of a pair holds of all marks if it holds in the order of the
table. -/
theorem of_mark_eq_some {P : Nat → Nat → Word → Prop}
    (hrows : ∀ i (row : List (Option Word)), t.marks[i]? = some row → row.length = i)
    (hsymm : ∀ p q w, P p q w → P q p w)
    (h : ∀ i j w, j < i → i < t.marks.length → t.mark i j = some w → P i j w)
    (hw : t.mark p q = some w) : P p q w := by
  obtain ⟨hp, hq⟩ := lt_of_mark_eq_some hw
  rcases Nat.lt_trichotomy p q with hlt | rfl | hlt
  · rw [mark_comm] at hw
    exact hsymm q p w (h q p w hlt hq hw)
  · rw [mark_self hrows] at hw
    cases hw
  · exact h p q w hlt hp hw

/-- It is enough to look at the pairs in the order of the table. -/
theorem IsExact.of_lt (hnames : t.names = d.names) (hlength : t.marks.length = d.states.length)
    (hrows : ∀ i (row : List (Option Word)), t.marks[i]? = some row → row.length = i)
    (htells : ∀ i j w, j < i → i < d.states.length → t.mark i j = some w →
      d.TellsApart w i j ∧ w.length ≤ t.passes)
    (hmark : ∀ i j w, j < i → i < d.states.length → w.length ≤ t.passes → d.TellsApart w i j →
      (t.mark i j).isSome) : t.IsExact d := by
  refine ⟨hnames, hlength, hrows, fun p q w => ?_, ?_⟩
  · rw [← hlength] at htells
    exact of_mark_eq_some (P := fun p q w => d.TellsApart w p q ∧ w.length ≤ t.passes) hrows
      (fun p q w h => ⟨h.1.symm, h.2⟩) htells
  · intro p q w hp hq hw h
    rcases Nat.lt_trichotomy p q with hlt | rfl | hlt
    · rw [mark_comm]
      exact hmark q p w hlt hq hw h.symm
    · exact absurd h not_tellsApart_self
    · exact hmark p q w hlt hp hw h

/-! ## The first table -/

theorem mark_initialTable_of_lt (hi : i < d.states.length) (h : j < i) :
    d.initialTable.mark i j = if d.acceptsAt i = d.acceptsAt j then none else some [] := by
  rw [mark_of_lt h]
  simp [initialTable, hi, h]

theorem IsExact.initial (d : Dfa) : d.initialTable.IsExact d := by
  apply IsExact.of_lt
  case hnames => rfl
  case hlength => simp [initialTable]
  case hrows =>
    intro i row hrow
    simp only [initialTable, List.getElem?_map, Option.map_eq_some_iff] at hrow
    obtain ⟨k, hk, rfl⟩ := hrow
    obtain ⟨hlt, rfl⟩ := List.getElem?_eq_some_iff.mp hk
    simp
  case htells =>
    intro i j w h hi hw
    rw [mark_initialTable_of_lt hi h] at hw
    split at hw
    · cases hw
    · next hne =>
      obtain rfl : [] = w := Option.some.inj hw
      exact ⟨hne, Nat.le_refl 0⟩
  case hmark =>
    -- before the first pass only the empty word is short enough
    intro i j w h hi hlen hw
    obtain rfl : w = [] := List.length_eq_zero_iff.mp (Nat.le_zero.mp hlen)
    rw [mark_initialTable_of_lt hi h, if_neg (tellsApart_nil_iff.mp hw)]
    rfl

/-! ## One more pass -/

theorem mark_refine_of_lt {row : List (Option Word)} (hi : t.marks[i]? = some row)
    (hrow : row.length = i) (h : j < i) :
    (d.refine t).mark i j = (t.mark i j).or (d.extension? t i j) := by
  rw [mark_of_lt h, mark_of_lt h]
  have hj : j < row.length := by omega
  simp [Dfa.refine, hi, hj]

theorem IsExact.mark_refine (h : t.IsExact d) (hi : i < d.states.length) (hj : j < i) :
    (d.refine t).mark i j = (t.mark i j).or (d.extension? t i j) := by
  have hlt : i < t.marks.length := by rwa [h.length_marks]
  have hrow := List.getElem?_eq_getElem hlt
  exact mark_refine_of_lt hrow (h.length_row i _ hrow) hj

/-- A symbol in front of a word that has a mark. -/
theorem IsExact.isSome_mark_refine (h : t.IsExact d) (hi : i < d.states.length) (hj : j < i)
    (hc : c ∈ d.alphabet) (hp : d.step? i c = some p) (hq : d.step? j c = some q)
    (hpq : (t.mark p q).isSome) : ((d.refine t).mark i j).isSome := by
  obtain ⟨v, hv⟩ := Option.isSome_iff_exists.mp hpq
  rw [h.mark_refine hi hj, Option.isSome_or, isSome_extension?_of_mark hc hp hq hv, Bool.or_true]

theorem IsExact.refine (h : t.IsExact d) (hd : d.IsComplete) : (d.refine t).IsExact d := by
  apply IsExact.of_lt
  case hnames => exact h.names_eq
  case hlength => simp [Dfa.refine, h.length_marks]
  case hrows =>
    intro i row hrow
    simp only [Dfa.refine, List.getElem?_mapIdx, Option.map_eq_some_iff] at hrow
    obtain ⟨row, hrow, rfl⟩ := hrow
    rw [List.length_mapIdx, h.length_row i row hrow]
  case htells =>
    intro i j w hj hi hw
    change d.TellsApart w i j ∧ w.length ≤ t.passes + 1
    rw [h.mark_refine hi hj, Option.or_eq_some_iff] at hw
    rcases hw with hw | ⟨-, hw⟩
    · obtain ⟨happart, hle⟩ := h.tellsApart i j w hw
      exact ⟨happart, by omega⟩
    · obtain ⟨c, p, q, v, -, hp, hq, hv, rfl⟩ := of_extension?_eq_some hw
      obtain ⟨happart, hle⟩ := h.tellsApart p q v hv
      exact ⟨(tellsApart_cons_iff hp hq).mpr happart, Nat.succ_le_succ hle⟩
  case hmark =>
    intro i j w hj hi hlen hw
    have hj' : j < d.states.length := Nat.lt_trans hj hi
    cases w with
    | nil =>
      have hmark := h.isSome_mark i j [] hi hj' (Nat.zero_le _) hw
      rw [h.mark_refine hi hj, Option.isSome_or, hmark, Bool.true_or]
    | cons c v =>
      -- the rest of the word is short enough for a mark of the table as it was
      obtain ⟨p, q, hc, hp, hq, hv⟩ := hd.steps_of_tellsApart hi hj' hw
      exact h.isSome_mark_refine hi hj hc hp hq <|
        h.isSome_mark p q v (hd.step?_lt hp) (hd.step?_lt hq) (Nat.le_of_succ_le_succ hlen) hv

/-- If a pass changes nothing, every pair that a word tells apart has a mark. -/
theorem IsExact.isSome_mark_of_tellsApart (h : t.IsExact d) (hd : d.IsComplete)
    (hfix : (d.refine t).marks = t.marks) (hp : p < d.states.length) (hq : q < d.states.length)
    (hw : d.TellsApart w p q) : (t.mark p q).isSome := by
  have hmark : ∀ i j, (d.refine t).mark i j = t.mark i j := by
    intro i j
    rw [mark, mark, hfix]
  induction w generalizing p q with
  | nil => exact h.isSome_mark p q [] hp hq (Nat.zero_le _) hw
  | cons c v ih =>
    obtain ⟨p', q', hc, hp', hq', hv⟩ := hd.steps_of_tellsApart hp hq hw
    have hrest : (t.mark p' q').isSome := ih (hd.step?_lt hp') (hd.step?_lt hq') hv
    rcases Nat.lt_trichotomy p q with hlt | rfl | hlt
    · rw [mark_comm] at hrest ⊢
      rw [← hmark]
      exact h.isSome_mark_refine hq hlt hc hq' hp' hrest
    · exact absurd hw not_tellsApart_self
    · rw [← hmark]
      exact h.isSome_mark_refine hp hlt hc hp' hq' hrest

end Table

/-! ## The complete table -/

/-- The last table of a refinement keeps what a pass keeps, and a pass does not change it. -/
theorem getLastD_refinementsFrom {P : Table → Prop} (hstep : ∀ t, P t → P (d.refine t)) (x : Table)
    (h : P t) :
    P ((d.refinementsFrom t).getLastD x) ∧
      (d.refine ((d.refinementsFrom t).getLastD x)).marks =
        ((d.refinementsFrom t).getLastD x).marks := by
  induction hn : t.unmarked using Nat.strongRecOn generalizing t x with
  | _ n ih =>
    rw [refinementsFrom_eq]
    by_cases hfix : (d.refine t).marks = t.marks
    · rw [if_pos hfix]
      exact ⟨h, hfix⟩
    · rw [if_neg hfix, List.getLastD_cons]
      exact ih _ (hn ▸ unmarked_refine_lt d hfix) t (hstep t h) rfl

theorem isExact_minimize (hd : d.IsComplete) : d.minimize.IsExact d :=
  (getLastD_refinementsFrom (fun _ ht => ht.refine hd) _ (Table.IsExact.initial d)).1

theorem marks_refine_minimize (d : Dfa) : (d.refine d.minimize).marks = d.minimize.marks :=
  (getLastD_refinementsFrom (P := fun _ => True) (fun _ _ => trivial) _ trivial).2

/-- The complete table marks the pairs of states that some word tells apart. -/
theorem isSome_mark_minimize_iff (hd : d.IsComplete) (hp : p < d.states.length)
    (hq : q < d.states.length) : (d.minimize.mark p q).isSome ↔ ∃ w, d.TellsApart w p q := by
  have hexact := isExact_minimize hd
  constructor
  · intro h
    obtain ⟨w, hw⟩ := Option.isSome_iff_exists.mp h
    exact ⟨w, (hexact.tellsApart p q w hw).1⟩
  · rintro ⟨w, hw⟩
    exact hexact.isSome_mark_of_tellsApart hd (marks_refine_minimize d) hp hq hw

/-- The complete table leaves the equivalent pairs of states unmarked. -/
theorem mark_minimize_eq_none_iff (hd : d.IsComplete) (hp : p < d.states.length)
    (hq : q < d.states.length) : d.minimize.mark p q = none ↔ d.Equivalent p q := by
  rw [← Option.not_isSome_iff_eq_none, isSome_mark_minimize_iff hd hp hq, not_exists]
  apply forall_congr'
  intro w
  exact Classical.not_not

end Dfa

end Acceptors
