import Mathlib.Data.List.DropRight
import Acceptors.Proofs.Machine.TapeHistory

/-!
# What is shown of a tape

The stretch that a tape stores depends on its history: it may begin or end with blanks, or with none
of them, and the head may stand outside it. What is shown does not depend on the history. The text
of a tape is a stretch of the two-way tape around the head, outside of which everything is blank,
and the content is the shortest word that holds what is not blank.

## Main definitions

* `TwoWayTape.HoldsAt`: a word stands at a place, and everything outside it is blank
* `TwoWayTape.IsPicture`: a text shows the tape around its head
* `TwoWayTape.IsContent`: a word is the shortest one that the tape holds
* `Tape.reached`, `TwoWayTape.reached`: the tape that held a word, after a history

## Main results

* `holdsAt_append_replicate`, `holdsAt_replicate_append`: blanks at the ends of a word
* `isContent_of_isTrimmed`: a word without blanks at its ends is the shortest one
* `Represents.isPicture_text`, `Represents.isContent_content`: what is shown of one tape
* `reached_shows`: what is shown of a tape after any history
-/

namespace Acceptors

/-! ## Words on a two-way tape -/

namespace TwoWayTape

section

variable (r : TwoWayTape) (blank : Char)

/-- The word stands on the tape from a place on, and everything outside it is blank. -/
def HoldsAt (place : Int) (u : Word) : Prop := ∀ i, r.cells (place + i) = (ofWord u blank).cells i

/-- The text shows what stands left of the head, the symbol under it in brackets, and what stands
right of it. What is not shown is blank. -/
def IsPicture (text : String) : Prop :=
  ∃ left right, text = String.ofList (left ++ ['[', r.read, ']'] ++ right) ∧
    r.HoldsAt blank (r.head - left.length) (left ++ r.read :: right)

/-- The word is the shortest one that stands somewhere on the tape with only blanks outside it. -/
structure IsContent (u : Word) : Prop where
  holds : ∃ place, r.HoldsAt blank place u
  shortest : ∀ place v, r.HoldsAt blank place v → u.length < v.length ∨ v = u

end

section

variable {r r' : TwoWayTape} {blank : Char} {u v : Word} {place : Int}

@[simp] theorem cells_ofWord_of_neg {i : Int} (h : i < 0) :
    (ofWord u blank).cells i = blank := by
  simp [ofWord, h]

@[simp] theorem cells_ofWord_natCast (k : Nat) :
    (ofWord u blank).cells k = (u[k]?).getD blank := by
  show (if (k : Int) < 0 then blank else (u[(k : Int).toNat]?).getD blank) = _
  rw [if_neg (Int.not_lt.mpr (Int.natCast_nonneg k)), Int.toNat_natCast]

theorem HoldsAt.cells_eq (h : r.HoldsAt blank place u) (i : Int) :
    r.cells i = (ofWord u blank).cells (i - place) := by
  rw [← h, show place + (i - place) = i by omega]

/-- Blanks behind a word are there anyway. -/
@[simp] theorem holdsAt_append_replicate {k : Nat} :
    r.HoldsAt blank place (u ++ List.replicate k blank) ↔ r.HoldsAt blank place u := by
  have hcells : ∀ i, (ofWord (u ++ List.replicate k blank) blank).cells i =
      (ofWord u blank).cells i := by
    intro i
    rcases Int.lt_or_le i 0 with hneg | hpos
    · rw [cells_ofWord_of_neg hneg, cells_ofWord_of_neg hneg]
    · obtain ⟨n, rfl⟩ := Int.eq_ofNat_of_zero_le hpos
      simp only [cells_ofWord_natCast, List.getElem?_append, List.getElem?_replicate]
      split
      · rfl
      · next hn =>
        rw [List.getElem?_eq_none (Nat.le_of_not_lt hn)]
        split <;> rfl
  simp only [HoldsAt, hcells]

/-- Blanks before a word are there anyway. -/
@[simp] theorem holdsAt_replicate_append {k : Nat} :
    r.HoldsAt blank place (List.replicate k blank ++ u) ↔ r.HoldsAt blank (place + k) u := by
  have hcells : ∀ i, (ofWord (List.replicate k blank ++ u) blank).cells (k + i) =
      (ofWord u blank).cells i := by
    intro i
    rcases Int.lt_or_le i 0 with hneg | hpos
    · rw [cells_ofWord_of_neg hneg]
      rcases Int.lt_or_le (k + i) 0 with hbefore | hin
      · rw [cells_ofWord_of_neg hbefore]
      · -- the place is one of the blanks that are put before the word
        obtain ⟨n, hn⟩ := Int.eq_ofNat_of_zero_le hin
        rw [hn, cells_ofWord_natCast, List.getElem?_append_left (by simp; omega),
          List.getElem?_replicate]
        split <;> rfl
    · obtain ⟨n, rfl⟩ := Int.eq_ofNat_of_zero_le hpos
      rw [cells_ofWord_natCast, ← Int.natCast_add, cells_ofWord_natCast,
        List.getElem?_append_right (by simp), List.length_replicate, Nat.add_sub_cancel_left]
  constructor
  · intro h i
    rw [Int.add_assoc, h, hcells]
  · intro h i
    rw [h.cells_eq, ← hcells]
    congr 1
    omega

/-- What is not blank stands in the word. -/
theorem HoldsAt.bounds (h : r.HoldsAt blank place u) {i : Int} (hi : r.cells i ≠ blank) :
    place ≤ i ∧ i < place + u.length := by
  have hcell := h.cells_eq i
  refine ⟨Int.not_lt.mp fun hlt => hi ?_, Int.not_le.mp fun hle => hi ?_⟩
  · rw [hcell, cells_ofWord_of_neg (by omega)]
  · obtain ⟨n, hn⟩ := Int.eq_ofNat_of_zero_le (by omega : 0 ≤ i - place)
    rw [hcell, hn, cells_ofWord_natCast, List.getElem?_eq_none (by omega), Option.getD_none]

theorem HoldsAt.getElem_eq (h : r.HoldsAt blank place u) {k : Nat} (hk : k < u.length) :
    r.cells (place + k) = u[k] := by
  rw [h, cells_ofWord_natCast, List.getElem?_eq_getElem hk, Option.getD_some]

/-- No place holds two words of one length. -/
theorem HoldsAt.unique (hu : r.HoldsAt blank place u) (hv : r.HoldsAt blank place v)
    (hlength : v.length = u.length) : v = u := by
  refine List.ext_getElem hlength fun k hkv hku => ?_
  rw [← hu.getElem_eq hku, hv.getElem_eq hkv]

/-- A word without blanks at its ends is the shortest one: any other that stands on the tape begins
no later and ends no earlier. -/
theorem isContent_of_isTrimmed (h : r.HoldsAt blank place u)
    (htrimmed : ∀ hne : u ≠ [], u.head hne ≠ blank ∧ u.getLast hne ≠ blank) :
    r.IsContent blank u := by
  refine ⟨⟨place, h⟩, fun place' v hv => ?_⟩
  rcases Nat.eq_zero_or_pos u.length with hzero | hpos
  · obtain rfl := List.length_eq_zero_iff.mp hzero
    rcases Nat.eq_zero_or_pos v.length with hv0 | hvpos
    · exact .inr (List.length_eq_zero_iff.mp hv0)
    · exact .inl hvpos
  · have hne : u ≠ [] := List.ne_nil_of_length_pos hpos
    obtain ⟨hfirst, hlast⟩ := htrimmed hne
    rw [List.head_eq_getElem, ← h.getElem_eq hpos] at hfirst
    rw [List.getLast_eq_getElem, ← h.getElem_eq (Nat.sub_one_lt_of_lt hpos)] at hlast
    have hstart := (hv.bounds hfirst).1
    have hend := (hv.bounds hlast).2
    rcases Nat.lt_or_ge u.length v.length with hlt | hge
    · exact .inl hlt
    · obtain rfl : place' = place := by omega
      exact .inr (h.unique hv (by omega))

/-- A tape has one content. -/
theorem IsContent.unique (hu : r.IsContent blank u) (hv : r.IsContent blank v) : v = u := by
  obtain ⟨place, hplace⟩ := hu.holds
  obtain ⟨place', hplace'⟩ := hv.holds
  rcases hu.shortest _ _ hplace' with hlt | heq
  · rcases hv.shortest _ _ hplace with hgt | heq
    · exact absurd hgt (Nat.lt_asymm hlt)
    · exact heq.symm
  · exact heq

theorem HoldsAt.translate {k : Int} (hk : ∀ i, r'.cells i = r.cells (i + k)) :
    r'.HoldsAt blank place u ↔ r.HoldsAt blank (place + k) u := by
  have hplace : ∀ i, place + i + k = place + k + i := fun i => by omega
  simp only [HoldsAt, hk, hplace]

/-- Where a tape begins to count its places has no part in its content. -/
theorem IsContent.translate (h : r.IsContent blank u) {k : Int}
    (hk : ∀ i, r'.cells i = r.cells (i + k)) : r'.IsContent blank u := by
  obtain ⟨place, hplace⟩ := h.holds
  refine ⟨⟨place - k, ?_⟩, fun place' v hv => ?_⟩
  · rw [HoldsAt.translate hk, Int.sub_add_cancel]
    exact hplace
  · exact h.shortest _ _ ((HoldsAt.translate hk).mp hv)

/-- Two tapes with one content are translates of each other, and the other way round. -/
theorem IsContent.eq_iff (hu : r.IsContent blank u) (hv : r'.IsContent blank v) :
    v = u ↔ ∃ k, ∀ i, r'.cells i = r.cells (i + k) := by
  constructor
  · rintro rfl
    obtain ⟨place, hplace⟩ := hu.holds
    obtain ⟨place', hplace'⟩ := hv.holds
    refine ⟨place - place', fun i => ?_⟩
    rw [hplace.cells_eq, hplace'.cells_eq]
    congr 1
    omega
  · rintro ⟨k, hk⟩
    exact (hu.translate hk).unique hv

/-- There is nothing but blanks on a tape without content. -/
theorem IsContent.eq_nil_iff (h : r.IsContent blank u) :
    u = [] ↔ ∀ i, r.cells i = blank := by
  constructor
  · rintro rfl i
    obtain ⟨place, hplace⟩ := h.holds
    by_contra hi
    have hbounds := hplace.bounds hi
    rw [List.length_nil] at hbounds
    omega
  · intro hblank
    have hnil : r.HoldsAt blank 0 [] := fun i => by simp [hblank, ofWord]
    rcases h.shortest 0 [] hnil with hlt | heq
    · exact absurd hlt (Nat.not_lt_zero _)
    · exact heq.symm

end

end TwoWayTape

/-! ## What is shown of one tape -/

namespace Tape

section

variable {t : Tape} {r : TwoWayTape}

/-- The stretch stands on the two-way tape, as far left of its head as the head is in the
stretch. -/
theorem Represents.holdsAt_symbols (h : t.Represents r) :
    r.HoldsAt t.blank (r.head - t.head) t.symbols := by
  intro i
  have hplace : r.head - t.head + i = r.head + (i - t.head) := by omega
  rw [hplace, ← h (i - t.head), cell, show t.head + (i - t.head) = i by omega]
  rfl

/-- The text of a tape shows the two-way tape it stands for. -/
theorem Represents.isPicture_text (h : t.Represents r) : r.IsPicture t.blank t.text := by
  have hstretch := h.holdsAt_symbols
  rcases Int.lt_or_le t.head 0 with hneg | hpos
  · -- the head stands on the first of the blanks that lie before the stretch
    obtain ⟨k, hk⟩ : ∃ k : Nat, t.head = -(k + 1) := ⟨t.head.natAbs - 1, by omega⟩
    have hread : t.read = t.blank := symbolAt_of_neg hneg
    refine ⟨[], List.replicate k t.blank ++ t.symbols, ?_, ?_⟩
    · have hgap : t.head.natAbs - 1 = k := by omega
      simp only [text, if_pos hneg, hgap, h.read_eq, List.nil_append, List.append_assoc]
    · rw [← h.read_eq, hread, List.nil_append, ← List.cons_append, ← List.replicate_succ,
        TwoWayTape.holdsAt_replicate_append]
      have hplace : r.head - ([] : Word).length + (k + 1 : Nat) = r.head - t.head := by
        rw [List.length_nil]
        omega
      rw [hplace]
      exact hstretch
  · obtain ⟨k, hk⟩ := Int.eq_ofNat_of_zero_le hpos
    have hread : t.read = (t.symbols[k]?).getD t.blank := by
      rw [read, symbolAt_of_nonneg hpos, hk, Int.toNat_natCast]
    refine ⟨t.symbols.take k ++ List.replicate (k - t.symbols.length) t.blank,
      t.symbols.drop (k + 1), ?_, ?_⟩
    · rw [text, if_neg (Int.not_lt.mpr hpos), hk, Int.toNat_natCast, h.read_eq]
    · have hlength : (t.symbols.take k ++
          List.replicate (k - t.symbols.length) t.blank).length = k := by
        simp only [List.length_append, List.length_take, List.length_replicate]
        omega
      rw [hlength, ← h.read_eq, hread, ← hk]
      rcases Nat.lt_or_ge k t.symbols.length with hlt | hge
      · -- the head stands in the stretch, which is shown as it is
        rw [Nat.sub_eq_zero_of_le (Nat.le_of_lt hlt), List.replicate_zero, List.append_nil,
          List.getElem?_eq_getElem hlt, Option.getD_some, List.getElem_cons_drop,
          List.take_append_drop]
        exact hstretch
      · -- the head stands behind the stretch, and the blanks up to it are shown as well
        rw [List.take_of_length_le hge, List.drop_eq_nil_of_le (by omega),
          List.getElem?_eq_none hge, Option.getD_none, List.append_assoc,
          ← List.replicate_succ', TwoWayTape.holdsAt_append_replicate]
        exact hstretch

theorem content_eq (t : Tape) :
    t.content = (t.symbols.dropWhile (· = t.blank)).rdropWhile (· = t.blank) := rfl

/-- The stretch is its content between two runs of blanks. -/
theorem exists_symbols_eq (t : Tape) : ∃ k l,
    t.symbols = List.replicate k t.blank ++ t.content ++ List.replicate l t.blank := by
  have hrun : ∀ s : List Char, (∀ c ∈ s, decide (c = t.blank) = true) →
      s = List.replicate s.length t.blank := fun s hs =>
    List.eq_replicate_of_mem fun c hc => of_decide_eq_true (hs c hc)
  refine ⟨(t.symbols.takeWhile (· = t.blank)).length,
    ((t.symbols.dropWhile (· = t.blank)).rtakeWhile (· = t.blank)).length, ?_⟩
  rw [← hrun _ fun c => List.mem_takeWhile_imp, ← hrun _ fun c => List.mem_rtakeWhile_imp,
    List.append_assoc, content_eq, List.rdropWhile_append_rtakeWhile,
    List.takeWhile_append_dropWhile]

/-- The content has no blanks at its ends. -/
theorem content_isTrimmed (t : Tape) (hne : t.content ≠ []) :
    t.content.head hne ≠ t.blank ∧ t.content.getLast hne ≠ t.blank := by
  constructor
  · -- the content begins as the stretch does without the blanks at its front
    obtain ⟨rest, hrest⟩ : t.content <+: t.symbols.dropWhile (· = t.blank) :=
      List.rdropWhile_prefix _ _
    have hdrop : t.symbols.dropWhile (· = t.blank) ≠ [] := by
      rw [← hrest]
      exact List.append_ne_nil_of_left_ne_nil hne rest
    have hhead : (t.symbols.dropWhile (· = t.blank)).head hdrop = t.content.head hne := by
      simp only [← hrest, List.head_append_of_ne_nil hne]
    rw [← hhead]
    exact of_decide_eq_false (List.head_dropWhile_not (· = t.blank) hdrop)
  · exact fun heq => List.rdropWhile_last_not (· = t.blank) _ hne (decide_eq_true heq)

/-- The content of a tape is the content of the two-way tape it stands for. -/
theorem Represents.isContent_content (h : t.Represents r) : r.IsContent t.blank t.content := by
  obtain ⟨k, l, hsymbols⟩ := t.exists_symbols_eq
  have hstretch := h.holdsAt_symbols
  rw [hsymbols, TwoWayTape.holdsAt_append_replicate, TwoWayTape.holdsAt_replicate_append]
    at hstretch
  exact TwoWayTape.isContent_of_isTrimmed hstretch t.content_isTrimmed

end

end Tape

/-! ## Histories -/

/-- The two-way tape that held a word, after a history. -/
def TwoWayTape.reached (w : Word) (blank : Char) (history : List TapeAction) : TwoWayTape :=
  (ofWord w blank).performAll history

namespace Tape

/-- The tape that held a word, after a history. -/
def reached (w : Word) (blank : Char) (history : List TapeAction) : Tape :=
  (ofWord w blank).performAll history

@[simp] theorem blank_perform (t : Tape) (action : TapeAction) :
    (t.perform action).blank = t.blank := by
  cases action with
  | write c =>
    rw [perform, write]
    split <;> rfl
  | shift d => rfl

@[simp] theorem blank_performAll (t : Tape) (history : List TapeAction) :
    (t.performAll history).blank = t.blank := by
  induction history generalizing t with
  | nil => rfl
  | cons action history ih => exact (ih _).trans (t.blank_perform action)

/-- **What is shown of a tape is what it holds.** Whatever is done to a tape that holds a word, its
text shows the two-way tape to which the same is done, with the symbol under the head in brackets,
and its content is the shortest word with everything that is not blank on that two-way tape. The
content is empty if there are only blanks. Two tapes with the same blank have the same content if
and only if their two-way tapes are translates of each other, whatever their histories. -/
theorem reached_shows (w : Word) (blank : Char) (history : List TapeAction) :
    (reached w blank history).read = (TwoWayTape.reached w blank history).read ∧
      (TwoWayTape.reached w blank history).IsPicture blank (reached w blank history).text ∧
      (TwoWayTape.reached w blank history).IsContent blank (reached w blank history).content ∧
      ((reached w blank history).content = [] ↔
        ∀ i, (TwoWayTape.reached w blank history).cells i = blank) ∧
      ∀ w' history', (reached w' blank history').content = (reached w blank history).content ↔
        ∃ k, ∀ i, (TwoWayTape.reached w' blank history').cells i =
          (TwoWayTape.reached w blank history).cells (i + k) := by
  have hstands : ∀ v actions, (reached v blank actions).Represents
      (TwoWayTape.reached v blank actions) := fun v actions =>
    (represents_ofWord v blank).performAll actions
  have hblank : ∀ v actions, (reached v blank actions).blank = blank := fun v actions =>
    blank_performAll (ofWord v blank) actions
  have hcontent : ∀ v actions, (TwoWayTape.reached v blank actions).IsContent blank
      (reached v blank actions).content := fun v actions => by
    simpa only [hblank] using (hstands v actions).isContent_content
  refine ⟨(hstands w history).read_eq, ?_, hcontent w history,
    (hcontent w history).eq_nil_iff, fun w' history' =>
      (hcontent w history).eq_iff (hcontent w' history')⟩
  simpa only [hblank] using (hstands w history).isPicture_text

-- the same is on both tapes, though one of them stores more blanks and stands elsewhere
example : (reached ['a', 'b'] '_' [.shift .left, .shift .left, .write '_']).content = ['a', 'b'] ∧
    (reached ['_', 'a', 'b', '_'] '_' []).content = ['a', 'b'] ∧
      (reached ['a', 'b'] '_' [.shift .left, .shift .left]).text = "[_]_ab" := by decide

end Tape

end Acceptors
