import Acceptors.Machine.Level
import Acceptors.Machine.TwoWayTape

/-!
# Tapes split at the head

While a machine walks over its tape, the stretch is best seen as what lies left of the head and what
lies from the head on. A write replaces the first symbol of the second part, and a move hands a
symbol from one part to the other. Only a head that stands left of the stretch is not of this form;
it comes back with the first write.

## Main definitions

* `Tape.between`: the tape with a word left of the head and a word from the head on

## Main results

* `write_between`, `shift_right_between`, `shift_left_between`: writes and moves of a split tape
* `write_shift_left_between`: a write left of the stretch
* `content_eq_of_padded`, `represents_of_padded`: a word with blanks at both ends
* `Machine.step_of_mem`: a step by an entry of the table
* `Machine.reaches_of_walk`: a walk to the right in one state, symbol by symbol
-/

namespace Acceptors

namespace Tape

/-- The tape with a word left of the head and a word from the head on. -/
def between (u v : Word) (blank : Char) : Tape := ⟨u ++ v, u.length, blank⟩

section

variable (u v : Word) (blank s : Char)

@[simp] theorem symbols_between : (between u v blank).symbols = u ++ v := rfl

@[simp] theorem read_between : (between u v blank).read = v.headD blank := by
  have hread : (between u v blank).read = ((u ++ v)[u.length]?).getD blank :=
    symbolAt_of_nonneg (Int.natCast_nonneg u.length)
  rw [hread]
  cases v with
  | nil => simp
  | cons c v => simp

@[simp] theorem write_between :
    (between u v blank).write s = between u (s :: v.tail) blank := by
  unfold write between
  rw [if_neg (Int.not_lt.mpr (Int.natCast_nonneg _))]
  cases v with
  | nil => simp
  | cons c v => simp

@[simp] theorem shift_right_between :
    (between u (s :: v) blank).shift .right = between (u ++ [s]) v blank := by
  simp [shift, between, Direction.offset]

@[simp] theorem shift_left_between :
    (between (u ++ [s]) v blank).shift .left = between u (s :: v) blank := by
  have hhead : ((u ++ [s]).length : Int) + Direction.left.offset = u.length := by
    rw [List.length_append, List.length_singleton, Direction.offset]
    omega
  simp only [shift, between, hhead, List.append_assoc, List.singleton_append]

@[simp] theorem shift_stay (t : Tape) : t.shift .stay = t := by
  simp [shift, Direction.offset]

/-! ## One cell left of the stretch -/

@[simp] theorem read_shift_left_between : ((between [] v blank).shift .left).read = blank :=
  symbolAt_of_neg (show (-1 : Int) < 0 by decide)

@[simp] theorem write_shift_left_between :
    ((between [] v blank).shift .left).write s = between [] (s :: v) blank := by
  simp [write, shift, between, Direction.offset]

end

/-! ## Content -/

/-- The content of a word without blanks is the word, however many blanks stand at its ends. -/
theorem content_eq_of_padded {t : Tape} {k l : Nat} {u : Word}
    (h : t.symbols = List.replicate k t.blank ++ u ++ List.replicate l t.blank)
    (hu : t.blank ∉ u) : t.content = u := by
  have hdrop : ∀ (k : Nat) (v : Word), v.head? ≠ some t.blank →
      (List.replicate k t.blank ++ v).dropWhile (· = t.blank) = v := by
    intro k v hv
    rw [List.dropWhile_append_of_pos fun c hc => decide_eq_true (List.eq_of_mem_replicate hc)]
    cases v with
    | nil => rfl
    | cons c v => exact List.dropWhile_cons_of_neg (by simpa using hv)
  unfold content
  rw [h]
  cases u with
  | nil =>
    have hnil := hdrop (k + l) [] (by simp)
    rw [List.append_nil, ← List.replicate_append_replicate] at hnil
    rw [List.append_nil, hnil]
    rfl
  | cons c u =>
    have hhead : (c :: u ++ List.replicate l t.blank).head? ≠ some t.blank :=
      fun heq => hu (by simp_all)
    have hlast : (c :: u).reverse.head? ≠ some t.blank := by
      rw [List.head?_reverse]
      exact fun heq => hu (List.mem_of_getLast? heq)
    rw [List.append_assoc, hdrop k _ hhead, List.reverse_append, List.reverse_replicate,
      hdrop l _ hlast, List.reverse_reverse]

/-- Blanks at both ends of a word do not matter, as long as the head stands on its first symbol. -/
theorem represents_of_padded (k l : Nat) (w : Word) (blank : Char) :
    (between (.replicate k blank) (w ++ .replicate l blank) blank).Represents
      (.ofWord w blank) := by
  intro i
  show symbolAt _ ((List.replicate k blank).length + i) = _
  rw [List.length_replicate]
  simp only [TwoWayTape.ofWord, Int.zero_add]
  by_cases hneg : i < 0
  · -- the head does not see how many of the blanks before the word are stored
    rw [if_pos hneg]
    by_cases hout : (k : Int) + i < 0
    · rw [symbolAt_of_neg hout]
      rfl
    · rw [symbolAt_of_nonneg (by omega), symbols_between,
        List.getElem?_append_left (by rw [List.length_replicate]; omega), List.getElem?_replicate]
      split <;> rfl
  · have hplace : ((k : Int) + i).toNat = (List.replicate k blank).length + i.toNat := by
      rw [List.length_replicate]
      omega
    rw [if_neg hneg, symbolAt_of_nonneg (by omega), symbols_between, hplace,
      List.getElem?_append_right (Nat.le_add_right _ _), Nat.add_sub_cancel_left,
      List.getElem?_append, List.getElem?_replicate]
    split
    · rfl
    · next hend =>
      rw [List.getElem?_eq_none (Nat.le_of_not_lt hend)]
      split <;> rfl

end Tape

namespace Machine

variable {m : Machine} {state next : String} {tapes tapes' : List Tape} {n : Nat}

/-- An entry of the table that reads what stands under the heads makes a step. -/
theorem step_of_mem {read write : List Char} {directions : List Direction}
    (hmem : (state, ⟨read, write, directions, next⟩) ∈ m.table.entries)
    (hread : tapes.map Tape.read = read)
    (hmoved : Configuration.moved tapes write directions = tapes') :
    m.Step ⟨state, tapes, n⟩ ⟨next, tapes', n + 1⟩ :=
  ⟨_, m.table.mem_find.mpr ⟨hmem, hread.symm⟩, by rw [← hmoved]; rfl⟩

theorem transitions_eq_nil (h : ∀ e ∈ m.table.entries, e.1 ≠ state) :
    m.transitions ⟨state, tapes, n⟩ = [] := by
  refine List.eq_nil_iff_forall_not_mem.mpr fun t ht => ?_
  exact h _ (m.table.mem_find.mp ht).1 rfl

/-- A machine with one tape that rewrites each symbol of a word and moves on in the same state walks
over the word. -/
theorem reaches_of_walk {f : Char → Char} {blank : Char} {v : Word}
    (h : ∀ s ∈ v, (state, ⟨[s], [f s], [.right], state⟩) ∈ m.table.entries) (u r : Word) (n : Nat) :
    m.Reaches v.length ⟨state, [.between u (v ++ r) blank], n⟩
      ⟨state, [.between (u ++ v.map f) r blank], n + v.length⟩ := by
  induction v generalizing u n with
  | nil => simpa using Reaches.refl _
  | cons s v ih =>
    have hfirst : m.Step ⟨state, [.between u (s :: v ++ r) blank], n⟩
        ⟨state, [.between (u ++ [f s]) (v ++ r) blank], n + 1⟩ :=
      step_of_mem (h s List.mem_cons_self) (by simp) (by simp [Configuration.moved])
    have hrest := ih (fun x hx => h x (List.mem_cons_of_mem s hx)) (u ++ [f s]) (n + 1)
    simpa [Nat.add_assoc, Nat.add_comm 1] using Reaches.head hfirst hrest

end Machine

end Acceptors
