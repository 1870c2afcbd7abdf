import Acceptors.Machine.Transition
import Mathlib.Data.List.Induction
import Mathlib.Data.Prod.Lex
import Mathlib.Data.String.Basic

/-!
# The order of a transition table

A table keeps the transitions that were inserted, sorted by the state that they leave and then by
what they read, and among those that agree in both it keeps the order of insertion: it is the stable
sort of the insertions. A list in this order is determined by what it holds for each key, so it is
enough to see what one insertion adds for each key.

## Main definitions

* `TransitionTable.key`: what an entry is sorted by
* `TransitionTable.Holds`: a table is an ordered multimap of what was inserted

## Main results

* `eq_of_filter_eq`: sorted lists that hold the same for each key are equal
* `filter_mergeSort`: a stable sort holds for each key what it was given
* `filter_insertEntry`, `pairwise_insertEntry`: one insertion
* `entries_ofList`, `find_ofList`, `holds_ofList`: any number of insertions
-/

namespace Acceptors

/-! ## Lists sorted by a key -/

section

variable {α κ : Type} {key : α → κ} {l m : List α} {a : α}

theorem pairwise_mergeSort_key [LinearOrder κ] (l : List α) :
    (l.mergeSort fun a b => key a ≤ key b).Pairwise fun a b => key a ≤ key b := by
  simpa using @List.pairwise_mergeSort α (fun a b => decide (key a ≤ key b))
    (fun a b c hab hbc => by simpa using le_trans (of_decide_eq_true hab) (of_decide_eq_true hbc))
    (fun a b => by simpa using le_total (key a) (key b)) l

variable [DecidableEq κ]

theorem mem_iff_of_filter_eq
    (h : ∀ k, l.filter (fun a => key a = k) = m.filter fun a => key a = k) : a ∈ l ↔ a ∈ m := by
  have hmem : a ∈ (l.filter fun b => key b = key a) ↔ a ∈ m.filter fun b => key b = key a := by
    rw [h]
  simpa using hmem

variable [LinearOrder κ]

/-- Sorted lists that hold the same elements in the same order for each key are equal. -/
theorem eq_of_filter_eq (hl : l.Pairwise fun a b => key a ≤ key b)
    (hm : m.Pairwise fun a b => key a ≤ key b)
    (h : ∀ k, l.filter (fun a => key a = k) = m.filter fun a => key a = k) : l = m := by
  induction l generalizing m with
  | nil => exact (List.eq_nil_iff_forall_not_mem.mpr fun a ha => by
      simpa using (mem_iff_of_filter_eq h).mpr ha).symm
  | cons a l ih =>
    cases m with
    | nil => simpa using (mem_iff_of_filter_eq h).mp (List.mem_cons_self (a := a) (l := l))
    | cons b m =>
      obtain ⟨hal, hl'⟩ := List.pairwise_cons.mp hl
      obtain ⟨hbm, hm'⟩ := List.pairwise_cons.mp hm
      -- both heads have the least key, and the same element comes first for this key
      have hab : key a ≤ key b := by
        rcases List.mem_cons.mp ((mem_iff_of_filter_eq h).mpr List.mem_cons_self) with hb | hb
        · rw [hb]
        · exact hal b hb
      have hba : key b ≤ key a := by
        rcases List.mem_cons.mp ((mem_iff_of_filter_eq h).mp List.mem_cons_self) with ha | ha
        · rw [ha]
        · exact hbm a ha
      have hkey : key b = key a := le_antisymm hba hab
      have hhead := h (key a)
      rw [List.filter_cons_of_pos (by simp), List.filter_cons_of_pos (by simp [hkey])] at hhead
      obtain rfl : a = b := (List.cons.inj hhead).1
      refine congrArg (a :: ·) (ih hl' hm' fun k => ?_)
      have hk := h k
      by_cases hak : key a = k
      · rw [List.filter_cons_of_pos (by simp [hak]), List.filter_cons_of_pos (by simp [hak])] at hk
        exact (List.cons.inj hk).2
      · rwa [List.filter_cons_of_neg (by simp [hak]), List.filter_cons_of_neg (by simp [hak])] at hk

/-- A stable sort holds for each key what it was given, in the same order. -/
theorem filter_mergeSort (l : List α) (k : κ) :
    (l.mergeSort fun a b => key a ≤ key b).filter (fun a => key a = k) =
      l.filter fun a => key a = k := by
  have hsub : (l.filter fun a => key a = k).Sublist (l.mergeSort fun a b => key a ≤ key b) := by
    apply List.sublist_mergeSort
    · exact fun a b c hab hbc => by
        simpa using le_trans (of_decide_eq_true hab) (of_decide_eq_true hbc)
    · exact fun a b => by simpa using le_total (key a) (key b)
    · refine List.pairwise_of_forall_mem_list fun a ha b hb => ?_
      rw [of_decide_eq_true (List.mem_filter.mp ha).2, of_decide_eq_true (List.mem_filter.mp hb).2]
      simp
    · exact List.filter_sublist
  have hfilter := hsub.filter fun a => key a = k
  simp only [List.filter_filter, Bool.and_self] at hfilter
  exact (hfilter.eq_of_length ((List.mergeSort_perm l _).filter _).length_eq.symm).symm

end

/-! ## Insertions -/

namespace TransitionTable

variable {l : List (String × Transition)} {e f : String × Transition}

/-- What an entry is sorted by: the state that it leaves, then what it reads. -/
def key (e : String × Transition) : String ×ₗ List Char := toLex (e.1, e.2.read)

theorem precedes_iff : precedes e f = true ↔ key e < key f := by
  rw [key, key, Prod.Lex.toLex_lt_toLex, precedes, Bool.or_eq_true, Bool.and_eq_true,
    decide_eq_true_eq, decide_eq_true_eq, decide_eq_true_eq]

/-- An entry is put in front of the first entry that it precedes. -/
theorem pairwise_insertEntry (h : l.Pairwise fun e f => key e ≤ key f) :
    (insertEntry e l).Pairwise fun e f => key e ≤ key f := by
  induction l with
  | nil => exact List.pairwise_singleton _ e
  | cons f l ih =>
    obtain ⟨hf, hl⟩ := List.pairwise_cons.mp h
    rw [insertEntry]
    split
    · next hef =>
      have hlt := precedes_iff.mp hef
      refine List.pairwise_cons.mpr ⟨fun g hg => ?_, h⟩
      rcases List.mem_cons.mp hg with rfl | hg
      · exact hlt.le
      · exact hlt.le.trans (hf g hg)
    · next hef =>
      have hle := not_lt.mp fun hlt => hef (precedes_iff.mpr hlt)
      refine List.pairwise_cons.mpr ⟨fun g hg => ?_, ih hl⟩
      rcases mem_insertEntry.mp hg with rfl | hg
      · exact hle
      · exact hf g hg

/-- For each key an insertion comes last. -/
theorem filter_insertEntry (h : l.Pairwise fun e f => key e ≤ key f) (k : String ×ₗ List Char) :
    (insertEntry e l).filter (fun e => key e = k) = (l ++ [e]).filter fun e => key e = k := by
  induction l with
  | nil => rfl
  | cons f l ih =>
    obtain ⟨hf, hl⟩ := List.pairwise_cons.mp h
    rw [insertEntry]
    split
    · next hef =>
      have hlt := precedes_iff.mp hef
      by_cases hk : key e = k
      · -- all that stands behind has a larger key
        have hnone : (f :: l).filter (fun e => key e = k) = [] := by
          refine List.filter_eq_nil_iff.mpr fun g hg => ?_
          have hfg : key f ≤ key g := by
            rcases List.mem_cons.mp hg with rfl | hg
            · exact le_rfl
            · exact hf g hg
          simpa [← hk] using (hlt.trans_le hfg).ne'
        rw [List.filter_append, hnone, List.filter_cons_of_pos (by simpa using hk), hnone,
          List.filter_cons_of_pos (by simpa using hk)]
        rfl
      · rw [List.filter_append, List.filter_cons_of_neg (by simpa using hk),
          List.filter_cons_of_neg (a := e) (by simpa using hk), List.filter_nil, List.append_nil]
    · rw [List.cons_append, List.filter_cons, List.filter_cons, ih hl]

/-- The entries are the stable sort of what was inserted. -/
theorem entries_ofList (rules : List (String × Transition)) :
    (ofList rules).entries = rules.mergeSort fun e f => key e ≤ key f := by
  have h : (ofList rules).entries.Pairwise (fun e f => key e ≤ key f) ∧
      ∀ k, (ofList rules).entries.filter (fun e => key e = k) =
        rules.filter fun e => key e = k := by
    -- one insertion after the other, the last one first
    induction rules using List.reverseRecOn with
    | nil => exact ⟨List.Pairwise.nil, fun k => rfl⟩
    | append_singleton rules e ih =>
      obtain ⟨hsorted, hfilter⟩ := ih
      have hlast : (ofList (rules ++ [e])).entries = insertEntry e (ofList rules).entries := by
        rw [ofList, List.foldl_append]
        rfl
      rw [hlast]
      refine ⟨pairwise_insertEntry hsorted, fun k => ?_⟩
      rw [filter_insertEntry hsorted, List.filter_append, hfilter, List.filter_append]
  refine eq_of_filter_eq h.1 (pairwise_mergeSort_key rules) fun k => ?_
  rw [h.2, filter_mergeSort]

theorem size_ofList (rules : List (String × Transition)) :
    (ofList rules).size = rules.length := by
  rw [size, entries_ofList, List.length_mergeSort]

theorem key_eq_iff {state : String} {symbols : List Char} :
    key e = toLex (state, symbols) ↔ e.1 = state ∧ e.2.read = symbols := by
  simp [key]

/-- What is found are the insertions with the key, in their order. -/
theorem find_ofList_eq_filter_key (rules : List (String × Transition)) (state : String)
    (symbols : List Char) : (ofList rules).find state symbols =
      (rules.filter fun e => key e = toLex (state, symbols)).map Prod.snd := by
  have hkey : (fun e : String × Transition => decide (e.1 = state) && decide (e.2.read = symbols)) =
      fun e => decide (key e = toLex (state, symbols)) := by
    funext e
    simp [key_eq_iff]
  rw [find, entries_ofList, hkey, filter_mergeSort]

theorem find_ofList (rules : List (String × Transition)) (state : String) (symbols : List Char) :
    (ofList rules).find state symbols =
      (rules.filter fun e => e.1 = state && e.2.read = symbols).map Prod.snd := by
  simp only [find_ofList_eq_filter_key, key_eq_iff, Bool.decide_and]

/-- The table holds the insertions as an ordered multimap: what is found for a state and symbols are
the insertions with them in their order, nothing is lost, and the entries are listed in increasing
order of their keys, each key in the order of insertion. -/
structure Holds (t : TransitionTable) (inserted : List (String × Transition)) : Prop where
  find_eq : ∀ state symbols, t.find state symbols =
    (inserted.filter fun e => e.1 = state && e.2.read = symbols).map Prod.snd
  find_eq_nil_iff : ∀ state symbols, t.find state symbols = [] ↔
    ∀ e ∈ inserted, ¬ (e.1 = state ∧ e.2.read = symbols)
  size_eq : t.size = inserted.length
  entries_eq : t.entries = inserted.mergeSort fun e f => key e ≤ key f

theorem holds_ofList (inserted : List (String × Transition)) :
    (ofList inserted).Holds inserted where
  find_eq := find_ofList inserted
  find_eq_nil_iff state symbols := by simp [find_ofList]
  size_eq := size_ofList inserted
  entries_eq := entries_ofList inserted

end TransitionTable

end Acceptors
