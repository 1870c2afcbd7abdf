import Acceptors.Proofs.Grammar.Membership
import Acceptors.Proofs.Simulation.Observers

/-!
# Observed rows

A cell holds numbers in increasing order, and nonterminals are numbered in order of first
appearance. So the names in a cell are the nonterminals of the grammar in their order, less those
that do not derive the stretch of the cell. An observer is handed these names row by row, and there
is a row for each span of the word.

## Main definitions

* `Grammar.derivers`: the nonterminals that derive a word
* `Grammar.derivedRow`: for each stretch of a span its derivers, as they are shown

## Main results

* `map_filter_range`: numbers that are left from a list without repetition, as its elements
* `IsNormal.names_cell`: the names in a cell are the derivers of its stretch
* `parseWith_observes_derivers`: what an observer is handed, and the result
-/

namespace Acceptors

namespace Grammar

section

variable (g : Grammar)

open Classical in
/-- The nonterminals that derive a word, in order of first appearance. -/
noncomputable def derivers (w : Word) : List String :=
  g.nonterminals.filter fun a => g.Derives [.nonterminal a] w.form

/-- The row of a span: for each place where a stretch of that span starts the nonterminals that
derive the stretch, as they are shown. -/
noncomputable def derivedRow (w : Word) (span : Nat) : List (List String) :=
  (List.range (w.length + 1 - span)).map fun start =>
    (g.derivers (w.stretch start span)).map displayLabel

end

/-! ## Names of numbers -/

/-- Numbers that are left from a list without repetition, read as its elements. -/
theorem map_filter_range {l : List String} (hl : l.Nodup) (p : Nat → Bool) :
    ((List.range l.length).filter p).map (fun i => (l[i]?).getD "") =
      l.filter fun a => p (l.idxOf a) := by
  have hself : (List.range l.length).map (fun i => (l[i]?).getD "") = l := by
    refine List.ext_getElem (by simp) fun i _ hi => ?_
    simp [hi]
  have hnumber : ∀ i ∈ List.range l.length, p i = p (l.idxOf ((l[i]?).getD "")) := by
    intro i hi
    have hlt := List.mem_range.mp hi
    rw [List.getElem?_eq_getElem hlt, Option.getD_some, hl.idxOf_getElem i hlt]
  rw [List.filter_congr hnumber]
  calc _ = ((List.range l.length).map fun i => (l[i]?).getD "").filter fun a => p (l.idxOf a) :=
        List.filter_map.symm
    _ = l.filter fun a => p (l.idxOf a) := by rw [hself]

namespace RuleIndex

section

variable (r : RuleIndex) (w : Word)

/-- The name of a number, as it stands in the rows. -/
def nameAt (a : Nat) : String := (r.names[a]?).getD ""

/-! ## The shape of a chart -/

/-- There is a cell for each place where a stretch of the span of the row starts. -/
theorem exists_row {i n : Nat} (h : i ≤ n) :
    ∃ row, (r.chartUpTo w n)[i]? = some row ∧ row.size = w.length - i := by
  rw [r.getElem?_chartUpTo_of_le h]
  cases i with
  | zero => exact ⟨r.firstRow w, rfl, by simp [firstRow]⟩
  | succ j =>
    refine ⟨r.joinedRow w.length (r.chartUpTo w j) (j + 2), ?_, ?_⟩
    · rw [chartUpTo, ← r.size_chartUpTo w j, Array.getElem?_push_size]
    · simp only [joinedRow, List.size_toArray, List.length_map, List.length_range]
      omega

/-- The names in a row, cell by cell. -/
theorem shown_eq {chart : Chart} {row : Array Cell} {i : Nat} (h : chart[i]? = some row) :
    r.shown row = (List.range row.size).map fun start =>
      (chart.cell (i + 1) start).map fun a => displayLabel (r.nameAt a) := by
  have hcell : ∀ start, chart.cell (i + 1) start = (row[start]?).getD [] := by
    intro start
    rw [Chart.cell, Nat.add_sub_cancel, h, Option.bind_some]
  simp only [hcell]
  refine List.ext_getElem (by simp [shown]) fun k hk _ => ?_
  have hlt : k < row.size := by simpa [shown] using hk
  simp [shown, nameAt, hlt]

/-- The rows of a chart as events, cell by cell. -/
theorem rowEvents_chartUpTo (n : Nat) :
    r.rowEvents (r.chartUpTo w n) = (List.range' 1 (n + 1)).map fun span =>
      .row span ((List.range (w.length + 1 - span)).map fun start =>
        ((r.chartUpTo w n).cell span start).map fun a => displayLabel (r.nameAt a)) := by
  refine List.ext_getElem (by simp [rowEvents, size_chartUpTo]) fun i hi _ => ?_
  have hle : i ≤ n := by simpa [rowEvents, size_chartUpTo, Nat.lt_succ_iff] using hi
  obtain ⟨row, hrow, hsize⟩ := r.exists_row w hle
  obtain ⟨hlt, hget⟩ := Array.getElem?_eq_some_iff.mp hrow
  have hspan : w.length + 1 - (i + 1) = row.size := by omega
  simp only [rowEvents, List.getElem_mapIdx, List.getElem_map, List.getElem_range',
    Array.getElem_toList, hget, r.shown_eq hrow, Nat.one_mul, Nat.add_comm 1 i, hspan]

/-- Whatever stands in a row was put there as a list of numbers in increasing order. -/
theorem exists_eq_toCell {n : Nat} {row : Array Cell} {cell : Cell}
    (hrow : row ∈ r.chartUpTo w n) (hcell : cell ∈ row) : ∃ heads, cell = r.toCell heads := by
  induction n with
  | zero =>
    obtain rfl : row = r.firstRow w := by simpa [chartUpTo] using hrow
    obtain ⟨c, -, rfl⟩ := List.mem_map.mp (List.mem_toArray.mp hcell)
    exact ⟨_, rfl⟩
  | succ n ih =>
    rcases Array.mem_push.mp hrow with hrow | rfl
    · exact ih hrow
    · obtain ⟨start, -, rfl⟩ := List.mem_map.mp (List.mem_toArray.mp hcell)
      exact ⟨_, rfl⟩

/-- A cell lists its numbers in increasing order, each once. -/
theorem cell_chartUpTo_eq_filter (n span start : Nat) :
    (r.chartUpTo w n).cell span start =
      (List.range r.names.length).filter fun a =>
        ((r.chartUpTo w n).cell span start).contains a := by
  obtain ⟨heads, hheads⟩ : ∃ heads, (r.chartUpTo w n).cell span start = r.toCell heads := by
    cases hcell : ((r.chartUpTo w n)[span - 1]?).bind fun row => row[start]? with
    | none => exact ⟨[], by simp [Chart.cell, hcell, toCell]⟩
    | some cell =>
      obtain ⟨row, hrow, hstart⟩ := Option.bind_eq_some_iff.mp hcell
      rw [Chart.cell, hcell, Option.getD_some]
      exact r.exists_eq_toCell w (Array.mem_of_getElem? hrow) (Array.mem_of_getElem? hstart)
  rw [hheads]
  refine List.filter_congr fun a ha => ?_
  rw [Bool.eq_iff_iff, List.contains_iff_mem, List.contains_iff_mem, mem_toCell]
  exact ⟨fun h => ⟨List.mem_range.mp ha, h⟩, And.right⟩

end

end RuleIndex

/-! ## Names in cells -/

section

variable {g : Grammar}

open Classical in
/-- The names in a cell are the derivers of its stretch. -/
theorem IsNormal.names_cell (h : g.IsNormal) {w : Word} {n span start : Nat} (hpos : 1 ≤ span)
    (hn : span ≤ n + 1) (hend : start + span ≤ w.length) :
    ((g.ruleIndex.chartUpTo w n).cell span start).map g.ruleIndex.nameAt =
      g.derivers (w.stretch start span) := by
  rw [RuleIndex.cell_chartUpTo_eq_filter]
  refine (map_filter_range g.nodup_nonterminals _).trans (List.filter_congr fun a ha => ?_)
  rw [Bool.eq_iff_iff, List.contains_iff_mem, decide_eq_true_iff]
  exact h.numberOf_mem_cell_iff ha hpos hn hend

/-- The rows of a chart with a row for each span are the rows of derivers. -/
theorem IsNormal.rowEvents_chartUpTo (h : g.IsNormal) {w : Word} {n : Nat}
    (hn : n + 1 = w.length) :
    g.ruleIndex.rowEvents (g.ruleIndex.chartUpTo w n) =
      (List.range' 1 w.length).map fun span => .row span (g.derivedRow w span) := by
  rw [RuleIndex.rowEvents_chartUpTo, hn]
  refine List.map_congr_left fun span hspan => ?_
  obtain ⟨hpos, hle⟩ := List.mem_range'_1.mp hspan
  rw [derivedRow]
  congr 1
  refine List.map_congr_left fun start hstart => ?_
  have hlt := List.mem_range.mp hstart
  have hnames := h.names_cell (n := n) hpos (by omega) (by omega : start + span ≤ w.length)
  rw [← hnames, List.map_map]
  rfl

/-- **Observed rows are exact.** If the check of a grammar passes, an observer of its chart is
handed a row for each span of the word, from one to its length, and nothing else; the empty word has
no rows. The row of a span has a cell for each place where a stretch of that span starts, and the
cell lists the nonterminals that derive the stretch, each once and in order of first appearance, as
they are shown. The result is what it is without an observer. -/
theorem parseWith_observes_derivers {r : RuleIndex} (h : g.indexed = .ok r) {σ : Type}
    (observe : σ → Event → σ) (w : Word) (start : σ) :
    r.parseWith observe w start =
        (((List.range' 1 w.length).map fun span => Event.row span (g.derivedRow w span)).foldl
          observe start, r.parse w) ∧
      (∀ span ∈ List.range' 1 w.length, (g.derivedRow w span).length = w.length - span + 1) ∧
        ∀ v, (g.derivers v).Nodup := by
  obtain ⟨hg, rfl⟩ := indexed_eq_ok_iff.mp h
  refine ⟨?_, ?_, fun v => g.nodup_nonterminals.filter _⟩
  · rw [RuleIndex.parseWith_eq, RuleIndex.mapIdx_rows]
    cases w with
    -- no chart is filled for the empty word, and there is no span from one to zero
    | nil => rfl
    | cons c w => rw [List.isEmpty_cons, if_neg Bool.false_ne_true, RuleIndex.chart,
        hg.rowEvents_chartUpTo rfl]
  · intro span hspan
    obtain ⟨hpos, hle⟩ := List.mem_range'_1.mp hspan
    rw [derivedRow, List.length_map, List.length_range]
    omega

end

/-- On `ab` an observer that keeps a list is handed two rows, of two cells and of one. -/
theorem nested_observed : nested.indexed = .ok nested.ruleIndex ∧
    (nested.ruleIndex.parseWith (fun seen e => seen ++ [e]) ['a', 'b'] []).1 =
        [.row 1 [(nested.derivers ['a']).map displayLabel, (nested.derivers ['b']).map displayLabel],
          .row 2 [(nested.derivers ['a', 'b']).map displayLabel]] ∧
      (nested.ruleIndex.parseWith (fun seen e => seen ++ [e]) ['a', 'b'] []).1 =
        [.row 1 [["A"], ["B"]], .row 2 [["S", "T"]]] := by
  have h : nested.indexed = .ok nested.ruleIndex := rfl
  refine ⟨h, ?_, ?_⟩
  · rw [(parseWith_observes_derivers h _ _ _).1]
    rfl
  · rfl

end Grammar

end Acceptors
