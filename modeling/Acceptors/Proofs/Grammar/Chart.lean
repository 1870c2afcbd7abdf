import Acceptors.Grammar.Chart
import Acceptors.Proofs.Grammar.NormalForm

/-!
# The cells of a chart

A cell of the chart of a word belongs to a stretch of the word. For a grammar in normal form it
holds the numbers of exactly those nonterminals that derive the stretch. The rows are filled one
above the other and never change, so a cell is what was written when its row was filled.

## Main definitions

* `Word.stretch`: a part of a word by its start and its span

## Main results

* `getElem?_nonterminals_numberOf`, `numberOf_inj`: numbers and names of nonterminals
* `RuleIndex.mem_cell_one_iff`, `RuleIndex.mem_cell_iff_split`: what a cell holds, from the rows
  below
* `IsNormal.numberOf_mem_cell_iff`: a cell holds the nonterminals that derive its stretch
-/

namespace Acceptors

namespace Word

/-- The stretch of `span` characters at `start`. -/
def stretch (w : Word) (start span : Nat) : Word := (w.drop start).take span

section

variable {w : Word} {start span : Nat}

theorem length_stretch (h : start + span ≤ w.length) : (w.stretch start span).length = span := by
  rw [stretch, List.length_take, List.length_drop]
  omega

theorem stretch_add (k l : Nat) :
    w.stretch start (k + l) = w.stretch start k ++ w.stretch (start + k) l := by
  rw [stretch, stretch, stretch, List.take_add, List.drop_drop]

theorem stretch_split {k : Nat} (h : k ≤ span) :
    w.stretch start span = w.stretch start k ++ w.stretch (start + k) (span - k) := by
  rw [← stretch_add, Nat.add_sub_cancel' h]

theorem stretch_one {c : Char} (h : w[start]? = some c) : w.stretch start 1 = [c] := by
  rw [stretch, List.take_one, List.head?_drop, h]
  rfl

@[simp] theorem stretch_zero_length : w.stretch 0 w.length = w := by simp [stretch]

/-- Two parts that make up a stretch are the stretches on both sides of a split. -/
theorem stretch_eq_append {u v : Word} (h : start + span ≤ w.length)
    (huv : w.stretch start span = u ++ v) :
    w.stretch start u.length = u ∧
      w.stretch (start + u.length) (span - u.length) = v := by
  have hspan : span = u.length + (span - u.length) := by
    have hlen := length_stretch h
    rw [huv, List.length_append] at hlen
    omega
  have hu : (w.stretch start u.length).length = u.length := length_stretch (by omega)
  rw [hspan, stretch_add] at huv
  exact List.append_inj huv hu

end

end Word

namespace Grammar

section

variable {g : Grammar}

/-! ## Numbers of nonterminals -/

theorem head_mem_nonterminals {p : Production} (hp : p ∈ g.productions) :
    p.head ∈ g.nonterminals := by
  simp only [nonterminals, mem_distinct, List.mem_cons, List.mem_flatMap]
  exact .inr ⟨p, hp, .inl rfl⟩

theorem body_mem_nonterminals {p : Production} (hp : p ∈ g.productions) {a : String}
    (ha : .nonterminal a ∈ p.body) : a ∈ g.nonterminals := by
  simp only [nonterminals, mem_distinct, List.mem_cons, List.mem_flatMap]
  exact .inr ⟨p, hp, .inr (List.mem_filterMap.mpr ⟨_, ha, rfl⟩)⟩

theorem getElem?_nonterminals_numberOf {a : String} (h : a ∈ g.nonterminals) :
    g.nonterminals[g.numberOf a]? = some a := by
  have hlt : g.numberOf a < g.nonterminals.length := List.idxOf_lt_length_of_mem h
  rw [List.getElem?_eq_getElem hlt]
  exact congrArg some (List.getElem_idxOf hlt)

theorem numberOf_eq_of_getElem? {n : Nat} {a : String} (h : g.nonterminals[n]? = some a) :
    g.numberOf a = n := by
  obtain ⟨hlt, rfl⟩ := List.getElem?_eq_some_iff.mp h
  exact List.Nodup.idxOf_getElem g.nodup_nonterminals n hlt

theorem numberOf_inj {a b : String} (ha : a ∈ g.nonterminals) (h : g.numberOf a = g.numberOf b) :
    a = b := by
  have hb : g.nonterminals[g.numberOf b]? = some a := h ▸ getElem?_nonterminals_numberOf ha
  have hlt := (List.getElem?_eq_some_iff.mp hb).1
  have hmem : b ∈ g.nonterminals := List.idxOf_lt_length_iff.mp hlt
  rw [getElem?_nonterminals_numberOf hmem] at hb
  exact (Option.some.inj hb).symm

@[simp] theorem getElem?_nonterminals_zero : g.nonterminals[0]? = some g.start := rfl

/-! ## The productions by shape -/

theorem unitRule?_eq_some_iff {p : Production} {u : UnitRule} :
    g.unitRule? p = some u ↔ ∃ c, p.body = [.terminal c] ∧ u = ⟨g.numberOf p.head, c, p⟩ := by
  unfold unitRule?
  constructor
  · intro h
    split at h
    · next c hp => exact ⟨c, hp, (Option.some.inj h).symm⟩
    · cases h
  · rintro ⟨c, hp, rfl⟩
    rw [hp]

theorem binaryRule?_eq_some_iff {p : Production} {b : BinaryRule} :
    g.binaryRule? p = some b ↔ ∃ l r, p.body = [.nonterminal l, .nonterminal r] ∧
      b = ⟨g.numberOf p.head, g.numberOf l, g.numberOf r, p⟩ := by
  unfold binaryRule?
  constructor
  · intro h
    split at h
    · next l r hp => exact ⟨l, r, hp, (Option.some.inj h).symm⟩
    · cases h
  · rintro ⟨l, r, hp, rfl⟩
    rw [hp]

theorem mem_units_iff {u : UnitRule} :
    u ∈ g.ruleIndex.units ↔
      ∃ p ∈ g.productions, ∃ c, p.body = [.terminal c] ∧ u = ⟨g.numberOf p.head, c, p⟩ := by
  simp only [ruleIndex, List.mem_filterMap, unitRule?_eq_some_iff]

theorem mem_binaries_iff {b : BinaryRule} :
    b ∈ g.ruleIndex.binaries ↔
      ∃ p ∈ g.productions, ∃ l r, p.body = [.nonterminal l, .nonterminal r] ∧
        b = ⟨g.numberOf p.head, g.numberOf l, g.numberOf r, p⟩ := by
  simp only [ruleIndex, List.mem_filterMap, binaryRule?_eq_some_iff]

end

namespace RuleIndex

section

variable (r : RuleIndex)

/-! ## The rows of a chart -/

theorem size_chartUpTo (w : Word) (n : Nat) : (r.chartUpTo w n).size = n + 1 := by
  induction n with
  | zero => rfl
  | succ n ih => rw [chartUpTo, Array.size_push, ih]

/-- A row stays as it was filled. -/
theorem getElem?_chartUpTo_of_le {w : Word} {i n : Nat} (h : i ≤ n) :
    (r.chartUpTo w n)[i]? = (r.chartUpTo w i)[i]? := by
  induction n with
  | zero => rw [Nat.le_zero.mp h]
  | succ n ih =>
    rcases Nat.le_succ_iff.mp h with hle | rfl
    · rw [chartUpTo, Array.getElem?_push_lt (by rw [size_chartUpTo]; omega), ← ih hle,
        Array.getElem?_eq_getElem]
    · rfl

theorem cell_chartUpTo_of_le {w : Word} {n span start : Nat} (hpos : 1 ≤ span)
    (h : span ≤ n + 1) :
    (r.chartUpTo w n).cell span start = (r.chartUpTo w (span - 1)).cell span start := by
  rw [Chart.cell, Chart.cell, r.getElem?_chartUpTo_of_le (by omega)]

@[simp] theorem mem_toCell {heads : List Nat} {a : Nat} :
    a ∈ r.toCell heads ↔ a < r.names.length ∧ a ∈ heads := by
  simp [toCell]

theorem mem_cell_one_iff {w : Word} {n start a : Nat} :
    a ∈ (r.chartUpTo w n).cell 1 start ↔
      a < r.names.length ∧ ∃ u ∈ r.units, w[start]? = some u.terminal ∧ u.head = a := by
  have hcell : (r.chartUpTo w n).cell 1 start = ((r.firstRow w)[start]?).getD [] := by
    rw [r.cell_chartUpTo_of_le (Nat.le_refl 1) (by omega)]
    rfl
  rw [hcell, firstRow, List.getElem?_toArray, List.getElem?_map]
  cases w[start]? with
  | none => simp
  | some c =>
    simp only [Option.map_some, Option.getD_some, mem_toCell, List.mem_map, List.mem_filter,
      decide_eq_true_eq, Option.some.injEq]
    grind

theorem mem_joinedCell_iff {chart : Chart} {span start a : Nat} :
    a ∈ r.joinedCell chart span start ↔
      a < r.names.length ∧ ∃ k, 1 ≤ k ∧ k < span ∧ ∃ b ∈ r.binaries,
        b.left ∈ chart.cell k start ∧ b.right ∈ chart.cell (span - k) (start + k) ∧
          b.head = a := by
  simp only [joinedCell, joinedHeads, mem_toCell, List.mem_flatMap, List.mem_range, List.mem_map,
    List.mem_filter, Bool.and_eq_true, List.contains_iff_mem]
  refine and_congr_right fun _ => ?_
  constructor
  · rintro ⟨k, hk, b, ⟨hb, hl, hr⟩, hhead⟩
    exact ⟨k + 1, by omega, by omega, b, hb, hl, hr, hhead⟩
  · rintro ⟨k, hpos, hk, b, hb, hl, hr, hhead⟩
    obtain ⟨j, rfl⟩ : ∃ j, k = j + 1 := ⟨k - 1, by omega⟩
    exact ⟨j, by omega, b, ⟨hb, hl, hr⟩, hhead⟩

/-- What a cell above the first row holds, from the cells of both sides of a split. -/
theorem mem_cell_iff_split {w : Word} {n span start a : Nat} (hspan : 2 ≤ span)
    (hn : span ≤ n + 1) (hend : start + span ≤ w.length) :
    a ∈ (r.chartUpTo w n).cell span start ↔
      a < r.names.length ∧ ∃ k, 1 ≤ k ∧ k < span ∧ ∃ b ∈ r.binaries,
        b.left ∈ (r.chartUpTo w n).cell k start ∧
          b.right ∈ (r.chartUpTo w n).cell (span - k) (start + k) ∧ b.head = a := by
  obtain ⟨j, rfl⟩ : ∃ j, span = j + 2 := ⟨span - 2, by omega⟩
  have hcell : (r.chartUpTo w n).cell (j + 2) start =
      r.joinedCell (r.chartUpTo w j) (j + 2) start := by
    rw [r.cell_chartUpTo_of_le (by omega) hn]
    have hrow : (r.chartUpTo w (j + 1))[j + 1]? =
        some (r.joinedRow w.length (r.chartUpTo w j) (j + 2)) := by
      rw [chartUpTo, ← r.size_chartUpTo w j, Array.getElem?_push_size]
    have hstart : start < w.length + 1 - (j + 2) := by omega
    change ((r.chartUpTo w (j + 1))[j + 1]?.bind fun row => row[start]?).getD [] = _
    rw [hrow, Option.bind_some, joinedRow, List.getElem?_toArray, List.getElem?_map,
      List.getElem?_range hstart]
    rfl
  rw [hcell, mem_joinedCell_iff]
  -- the rows below were the same when the row was filled
  have hbelow : ∀ k s, 1 ≤ k → k ≤ j + 1 →
      (r.chartUpTo w n).cell k s = (r.chartUpTo w j).cell k s := by
    intro k s hpos hk
    rw [r.cell_chartUpTo_of_le hpos (by omega), r.cell_chartUpTo_of_le hpos hk]
  refine and_congr_right fun _ => exists_congr fun k => and_congr_right fun hpos =>
    and_congr_right fun hk => ?_
  rw [hbelow k start hpos (by omega), hbelow (j + 2 - k) (start + k) (by omega) (by omega)]

end

end RuleIndex

section

variable {g : Grammar}

/-! ## What the cells hold -/

theorem numberOf_mem_cell_one_iff {w : Word} {n start : Nat} {name : String}
    (hname : name ∈ g.nonterminals) :
    g.numberOf name ∈ (g.ruleIndex.chartUpTo w n).cell 1 start ↔
      ∃ c, w[start]? = some c ∧ ∃ p ∈ g.productions, p.head = name ∧ p.body = [.terminal c] := by
  rw [RuleIndex.mem_cell_one_iff]
  constructor
  · rintro ⟨-, u, hu, hc, hhead⟩
    obtain ⟨p, hp, c, hbody, rfl⟩ := mem_units_iff.mp hu
    exact ⟨c, hc, p, hp, numberOf_inj (head_mem_nonterminals hp) hhead, hbody⟩
  · rintro ⟨c, hc, p, hp, rfl, hbody⟩
    exact ⟨List.idxOf_lt_length_of_mem hname, _, mem_units_iff.mpr ⟨p, hp, c, hbody, rfl⟩, hc, rfl⟩

theorem numberOf_mem_cell_iff_split {w : Word} {n span start : Nat} {name : String}
    (hname : name ∈ g.nonterminals) (hspan : 2 ≤ span) (hn : span ≤ n + 1)
    (hend : start + span ≤ w.length) :
    g.numberOf name ∈ (g.ruleIndex.chartUpTo w n).cell span start ↔
      ∃ k, 1 ≤ k ∧ k < span ∧ ∃ p ∈ g.productions, p.head = name ∧ ∃ l r,
        p.body = [.nonterminal l, .nonterminal r] ∧
          g.numberOf l ∈ (g.ruleIndex.chartUpTo w n).cell k start ∧
            g.numberOf r ∈ (g.ruleIndex.chartUpTo w n).cell (span - k) (start + k) := by
  rw [RuleIndex.mem_cell_iff_split _ hspan hn hend]
  constructor
  · rintro ⟨-, k, hpos, hk, b, hb, hl, hr, hhead⟩
    obtain ⟨p, hp, l, r, hbody, rfl⟩ := mem_binaries_iff.mp hb
    exact ⟨k, hpos, hk, p, hp, numberOf_inj (head_mem_nonterminals hp) hhead, l, r, hbody, hl, hr⟩
  · rintro ⟨k, hpos, hk, p, hp, rfl, l, r, hbody, hl, hr⟩
    exact ⟨List.idxOf_lt_length_of_mem hname, k, hpos, hk, _,
      mem_binaries_iff.mpr ⟨p, hp, l, r, hbody, rfl⟩, hl, hr, rfl⟩

/-- How a body derives a stretch of two or more characters, by the place of the split. -/
theorem IsNormal.derives_body_stretch_iff (h : g.IsNormal) {p : Production}
    (hp : p ∈ g.productions) {w : Word} {span start : Nat} (hspan : 2 ≤ span)
    (hend : start + span ≤ w.length) :
    g.Derives p.body (Word.form (w.stretch start span)) ↔
      ∃ l r, p.body = [.nonterminal l, .nonterminal r] ∧ ∃ k, 1 ≤ k ∧ k < span ∧
        g.Derives [.nonterminal l] (Word.form (w.stretch start k)) ∧
          g.Derives [.nonterminal r] (Word.form (w.stretch (start + k) (span - k))) := by
  have hlen : (w.stretch start span).length = span := Word.length_stretch hend
  have hne : w.stretch start span ≠ [] := List.ne_nil_of_length_pos (by omega)
  rw [h.derives_body_iff hp hne]
  constructor
  · rintro (⟨c, -, hc⟩ | ⟨l, r, hbody, u, v, hu, hv, huv, hdl, hdr⟩)
    · rw [hc, List.length_singleton] at hlen
      omega
    · have hpos := List.length_pos_iff.mpr hu
      have hpos' := List.length_pos_iff.mpr hv
      rw [huv, List.length_append] at hlen
      obtain ⟨hsu, hsv⟩ := Word.stretch_eq_append hend huv
      refine ⟨l, r, hbody, u.length, hpos, by omega, ?_, ?_⟩
      · rwa [hsu]
      · rwa [hsv]
  · rintro ⟨l, r, hbody, k, hpos, hk, hdl, hdr⟩
    have hl : (w.stretch start k).length = k := Word.length_stretch (by omega)
    have hr : (w.stretch (start + k) (span - k)).length = span - k :=
      Word.length_stretch (by omega)
    exact .inr ⟨l, r, hbody, _, _, List.ne_nil_of_length_pos (by omega),
      List.ne_nil_of_length_pos (by omega), Word.stretch_split (Nat.le_of_lt hk), hdl, hdr⟩

/-- How a nonterminal derives a stretch of two or more characters, by the place of the split. -/
theorem IsNormal.derives_stretch_iff (h : g.IsNormal) {w : Word} {span start : Nat}
    {name : String} (hspan : 2 ≤ span) (hend : start + span ≤ w.length) :
    g.Derives [.nonterminal name] (Word.form (w.stretch start span)) ↔
      ∃ k, 1 ≤ k ∧ k < span ∧ ∃ p ∈ g.productions, p.head = name ∧ ∃ l r,
        p.body = [.nonterminal l, .nonterminal r] ∧
          g.Derives [.nonterminal l] (Word.form (w.stretch start k)) ∧
            g.Derives [.nonterminal r] (Word.form (w.stretch (start + k) (span - k))) := by
  rw [derives_word_iff]
  constructor
  · rintro ⟨p, hp, hhead, hd⟩
    obtain ⟨l, r, hbody, k, hpos, hk, hdl, hdr⟩ :=
      (h.derives_body_stretch_iff hp hspan hend).mp hd
    exact ⟨k, hpos, hk, p, hp, hhead, l, r, hbody, hdl, hdr⟩
  · rintro ⟨k, hpos, hk, p, hp, hhead, l, r, hbody, hdl, hdr⟩
    exact ⟨p, hp, hhead,
      (h.derives_body_stretch_iff hp hspan hend).mpr ⟨l, r, hbody, k, hpos, hk, hdl, hdr⟩⟩

/-- A cell holds the nonterminals that derive its stretch. -/
theorem IsNormal.numberOf_mem_cell_iff (h : g.IsNormal) {w : Word} {n span start : Nat}
    {name : String} (hname : name ∈ g.nonterminals) (hpos : 1 ≤ span) (hn : span ≤ n + 1)
    (hend : start + span ≤ w.length) :
    g.numberOf name ∈ (g.ruleIndex.chartUpTo w n).cell span start ↔
      g.Derives [.nonterminal name] (Word.form (w.stretch start span)) := by
  induction span using Nat.strongRecOn generalizing start name with
  | _ span ih =>
    rcases (by omega : span = 1 ∨ 2 ≤ span) with rfl | hspan
    · obtain ⟨c, hc⟩ : ∃ c, w[start]? = some c := ⟨_, List.getElem?_eq_getElem (by omega)⟩
      rw [numberOf_mem_cell_one_iff hname, Word.stretch_one hc, h.derives_char_iff]
      simp only [hc, Option.some.injEq, exists_eq_left']
    · rw [numberOf_mem_cell_iff_split hname hspan hn hend, h.derives_stretch_iff hspan hend]
      refine exists_congr fun k => and_congr_right fun hk => and_congr_right fun hlt =>
        exists_congr fun p => and_congr_right fun hp => and_congr_right fun _ =>
        exists_congr fun l => exists_congr fun r => and_congr_right fun hbody => ?_
      -- both parts are shorter, and their nonterminals stand in a body
      have hl : l ∈ g.nonterminals := body_mem_nonterminals hp (by simp [hbody])
      have hr : r ∈ g.nonterminals := body_mem_nonterminals hp (by simp [hbody])
      rw [ih k hlt hl hk (by omega) (by omega),
        ih (span - k) (by omega) hr (by omega) (by omega) (by omega)]

end

end Grammar

end Acceptors
