import Acceptors.Proofs.Machine.LevelOrder

/-!
# How tapes grow

A transition writes on a tape before it moves the head, and the head moves by one cell. So the head
never leaves the stretch by more than one cell: it stands in the stretch or next to one of its ends.
A write then adds at most one symbol, and no gap is filled with blanks. A machine whose transitions
fit its tapes changes every tape in every transition, so after some transitions every tape has grown
by at most as many symbols, and it holds only what was put there at the start or written.

## Main definitions

* `Tape.GrownFrom`: what is known of a tape after some transitions
* `Machine.Writes`: a transition of the machine writes a symbol
* `Machine.IsShaped`: what is known of a configuration on the way from the initial one

## Main results

* `Tape.write_cases`: a write in the stretch or next to it
* `GrownFrom.after`: one transition on one tape
* `IsShaped.step`, `isShaped_of_reaches`: one transition, and any number of them
* `shape_of_mem_visited`: the shape of the configurations that a search visits
-/

namespace Acceptors

/-! ## One tape -/

namespace Tape

variable {t : Tape} {loaded : Word} {blank s : Char} {written : Char → Prop} {steps : Nat}

/-- A write in the stretch replaces a symbol; next to the stretch it adds one. -/
theorem write_cases (hge : -1 ≤ t.head) (hle : t.head ≤ t.symbols.length) (s : Char) :
    (t.head = -1 ∧ t.write s = ⟨s :: t.symbols, 0, t.blank⟩) ∨
      (t.head = t.symbols.length ∧ t.write s = ⟨t.symbols ++ [s], t.head, t.blank⟩) ∨
        (0 ≤ t.head ∧ t.head < t.symbols.length ∧
          t.write s = ⟨t.symbols.set t.head.toNat s, t.head, t.blank⟩) := by
  rcases Int.lt_or_le t.head 0 with hneg | hpos
  · -- one cell left of the stretch there is no gap to fill
    have hhead : t.head = -1 := by omega
    refine .inl ⟨hhead, ?_⟩
    rw [write, if_pos hneg, hhead]
    rfl
  · rw [write, if_neg (Int.not_lt.mpr hpos)]
    dsimp only
    rcases Int.lt_or_eq_of_le hle with hlt | heq
    · have hmissing : t.head.toNat + 1 - t.symbols.length = 0 := by omega
      refine .inr (.inr ⟨hpos, hlt, ?_⟩)
      rw [hmissing, List.replicate_zero, List.append_nil]
    · have hplace : t.head.toNat = t.symbols.length := by omega
      refine .inr (.inl ⟨heq, ?_⟩)
      rw [hplace, Nat.add_sub_cancel_left, List.replicate_one,
        List.set_append_right _ _ (Nat.le_refl _), Nat.sub_self, List.set_cons_zero]

@[simp] theorem blank_write (t : Tape) (s : Char) : (t.write s).blank = t.blank := by
  unfold write
  split <;> rfl

/-- After a write the head stands in the stretch. -/
theorem head_write (hge : -1 ≤ t.head) (hle : t.head ≤ t.symbols.length) (s : Char) :
    0 ≤ (t.write s).head ∧ (t.write s).head < (t.write s).symbols.length := by
  rcases write_cases hge hle s with ⟨-, heq⟩ | ⟨hhead, heq⟩ | ⟨hpos, hlt, heq⟩
  · rw [heq]
    simp only [List.length_cons]
    omega
  · rw [heq]
    simp only [List.length_append, List.length_singleton]
    omega
  · rw [heq]
    simp only [List.length_set]
    exact ⟨hpos, hlt⟩

theorem length_write (hge : -1 ≤ t.head) (hle : t.head ≤ t.symbols.length) (s : Char) :
    t.symbols.length ≤ (t.write s).symbols.length ∧
      (t.write s).symbols.length ≤ t.symbols.length + 1 := by
  rcases write_cases hge hle s with ⟨-, heq⟩ | ⟨-, heq⟩ | ⟨-, -, heq⟩ <;> simp [heq]

theorem mem_of_mem_write (hge : -1 ≤ t.head) (hle : t.head ≤ t.symbols.length) {s x : Char}
    (hx : x ∈ (t.write s).symbols) : x = s ∨ x ∈ t.symbols := by
  rcases write_cases hge hle s with ⟨-, heq⟩ | ⟨-, heq⟩ | ⟨-, -, heq⟩
  · rw [heq] at hx
    exact List.mem_cons.mp hx
  · rw [heq] at hx
    exact (List.mem_append.mp hx).symm.imp_left List.mem_singleton.mp
  · rw [heq] at hx
    exact (List.mem_or_eq_of_mem_set hx).symm

/-- What is known of a tape that held a word some transitions ago: where its head may stand, how
many symbols it holds, and that it holds only symbols of the word and written ones. -/
structure GrownFrom (loaded : Word) (blank : Char) (written : Char → Prop) (steps : Nat)
    (t : Tape) : Prop where
  blank_eq : t.blank = blank
  head_ge : -1 ≤ t.head
  head_le : t.head ≤ t.symbols.length
  length_ge : loaded.length ≤ t.symbols.length
  length_le : t.symbols.length ≤ loaded.length + steps
  mem : ∀ s ∈ t.symbols, s ∈ loaded ∨ written s

theorem grownFrom_ofWord (loaded : Word) (blank : Char) (written : Char → Prop) :
    (ofWord loaded blank).GrownFrom loaded blank written 0 where
  blank_eq := rfl
  head_ge := by simp [ofWord]
  head_le := Int.natCast_nonneg loaded.length
  length_ge := Nat.le_refl _
  length_le := Nat.le_refl _
  mem := fun _ hs => .inl hs

/-- A transition moves the head by one cell at most, after a write. -/
theorem GrownFrom.after (h : t.GrownFrom loaded blank written steps) (hs : written s)
    (d : Direction) : ((t.write s).shift d).GrownFrom loaded blank written (steps + 1) := by
  have hoffset : -1 ≤ d.offset ∧ d.offset ≤ 1 := by cases d <;> decide
  obtain ⟨hpos, hlt⟩ := head_write h.head_ge h.head_le s
  obtain ⟨hmore, hone⟩ := length_write h.head_ge h.head_le s
  refine {
    blank_eq := (blank_write t s).trans h.blank_eq
    head_ge := ?_
    head_le := ?_
    length_ge := h.length_ge.trans hmore
    length_le := hone.trans (Nat.succ_le_succ h.length_le)
    mem := fun x hx => ?_ }
  · show -1 ≤ (t.write s).head + d.offset
    omega
  · show (t.write s).head + d.offset ≤ (t.write s).symbols.length
    omega
  · rcases mem_of_mem_write h.head_ge h.head_le hx with rfl | hx
    · exact .inr hs
    · exact h.mem x hx

end Tape

/-! ## All tapes -/

/-- If a transition fits the tapes, each of them is written and its head is moved. -/
theorem Configuration.moved_eq_zipWith {tapes : List Tape} {symbols : List Char}
    {directions : List Direction} (hsymbols : symbols.length = tapes.length)
    (hdirections : directions.length = tapes.length) :
    moved tapes symbols directions =
      tapes.zipWith (fun t a => (t.write a.1).shift a.2) (symbols.zip directions) := by
  induction tapes generalizing symbols directions with
  | nil => simp [moved]
  | cons t tapes ih =>
    obtain ⟨s, symbols, rfl⟩ := List.exists_cons_of_length_eq_add_one hsymbols
    obtain ⟨d, directions, rfl⟩ := List.exists_cons_of_length_eq_add_one hdirections
    rw [moved, ih (Nat.succ.inj hsymbols) (Nat.succ.inj hdirections), List.zip_cons_cons,
      List.zipWith_cons_cons]

namespace Machine

variable {m : Machine} {w : Word} {c d : Configuration} {n : Nat}

/-- A transition of the machine writes the symbol. -/
def Writes (m : Machine) (s : Char) : Prop := ∃ e ∈ m.table.entries, s ∈ e.2.write

/-- What a tape holds before the first transition: the word is loaded on the first tape only. -/
def loaded (w : Word) (i : Nat) : Word := if i = 0 then w else []

theorem mem_of_mem_loaded {i : Nat} {s : Char} (h : s ∈ loaded w i) : s ∈ w := by
  unfold loaded at h
  split at h
  · exact h
  · cases h

/-- What is known of a configuration on the way from the initial one: there are all tapes, and each
has grown from what was loaded on it. -/
structure IsShaped (m : Machine) (w : Word) (c : Configuration) : Prop where
  length_tapes : c.tapes.length = m.tapeCount
  grown : ∀ i (t : Tape), c.tapes[i]? = some t → t.GrownFrom (loaded w i) m.blank m.Writes c.steps

theorem isShaped_initialConfiguration (m : Machine) (w : Word) :
    m.IsShaped w (m.initialConfiguration w) where
  length_tapes := by simp [initialConfiguration]
  grown i t ht := by
    rw [initialConfiguration, List.getElem?_map, Option.map_eq_some_iff] at ht
    obtain ⟨j, hj, rfl⟩ := ht
    obtain ⟨hlt, rfl⟩ := List.getElem?_eq_some_iff.mp hj
    rw [List.getElem_range]
    exact Tape.grownFrom_ofWord (loaded w i) m.blank m.Writes

/-- A transition that fits the tapes changes each of them. -/
theorem IsShaped.step (hfit : m.IsFitted) (hstep : m.Step c d) (h : m.IsShaped w c) :
    m.IsShaped w d := by
  obtain ⟨transition, hmem, rfl⟩ := hstep
  have hentry := (TransitionTable.mem_find m.table).mp hmem
  have hfits := hfit.fitsTapes _ hentry.1
  simp only [fitsTapes, Bool.and_eq_true, decide_eq_true_eq] at hfits
  obtain ⟨⟨-, hwrite⟩, hdirections⟩ := hfits
  -- no tape is left out, since the transition mentions as many as there are
  have htapes : (c.apply transition).tapes =
      c.tapes.zipWith (fun t a => (t.write a.1).shift a.2)
        (transition.write.zip transition.directions) :=
    Configuration.moved_eq_zipWith (hwrite.trans h.length_tapes.symm)
      (hdirections.trans h.length_tapes.symm)
  constructor
  · rw [htapes, List.length_zipWith, List.length_zip, h.length_tapes, hwrite, hdirections,
      Nat.min_self, Nat.min_self]
  · intro i t ht
    rw [htapes, List.getElem?_zipWith_eq_some] at ht
    obtain ⟨t, a, hi, ha, rfl⟩ := ht
    have hs : a.1 ∈ transition.write :=
      (List.of_mem_zip (List.mem_of_getElem? ha)).1
    exact (h.grown i t hi).after ⟨_, hentry.1, hs⟩ a.2

theorem isShaped_of_reaches (hfit : m.IsFitted)
    (h : m.Reaches n (m.initialConfiguration w) c) : m.IsShaped w c :=
  h.preserves (fun _ _ hstep hshaped => hshaped.step hfit hstep) (m.isShaped_initialConfiguration w)

/-- The first tape has grown from the word and each other tape from nothing. -/
theorem IsShaped.exists_first (hfit : m.IsFitted) (h : m.IsShaped w c) :
    ∃ first others, c.tapes = first :: others ∧
      w.length ≤ first.symbols.length ∧ first.symbols.length ≤ w.length + c.steps ∧
        ∀ t ∈ others, t.symbols.length ≤ c.steps := by
  cases htapes : c.tapes with
  | nil =>
    -- the check has seen that there is a tape
    have hlength := h.length_tapes
    rw [htapes] at hlength
    exact absurd hlength.symm hfit.tapeCount_ne
  | cons first others =>
    have hfirst := h.grown 0 first (by rw [htapes]; rfl)
    refine ⟨first, others, rfl, hfirst.length_ge, hfirst.length_le, fun t ht => ?_⟩
    obtain ⟨i, hi⟩ := List.mem_iff_getElem?.mp ht
    have hother := h.grown (i + 1) t (by rw [htapes]; exact hi)
    simpa [loaded] using hother.length_le

/-! ## Searches -/

theorem exists_rule_of_writes {initial final : String} {blank : Char} {count : Nat}
    {rules : List (String × Transition)} (h : ofRules initial final blank count rules = .ok m)
    {s : Char} (hs : m.Writes s) : ∃ rule ∈ rules, s ∈ (fillBlank blank rule.2).write := by
  obtain ⟨_, -, rfl⟩ := map_eq_ok_iff.mp h
  obtain ⟨e, he, hs⟩ := hs
  obtain ⟨rule, hrule, rfl⟩ := List.mem_map.mp (TransitionTable.mem_entries_ofList.mp he)
  exact ⟨rule, hrule, hs⟩

/-- **The shape of visited configurations.** A configuration that a search visits counts the
transitions on the way to it. It has all tapes of the machine with its blank. No head stands further
than one cell outside the stretch. The first tape holds the symbols of the word or more, but at most
one more for each transition, and each other tape at most one symbol for each transition. All these
symbols come from the word, are blank, or are written by a rule. What a search without end visits is
visited by a search with a large enough bound. -/
theorem shape_of_mem_visited {initial final : String} {blank : Char} {count : Nat}
    {rules : List (String × Transition)} {limit : Option Nat} {e : Exploration} {waiting : Nat}
    (h : ofRules initial final blank count rules = .ok m)
    (he : m.searchWithin w limit = some e) (hc : (c, waiting) ∈ e.visited) :
    (∀ n, m.Reaches n (m.initialConfiguration w) c ↔ n = c.steps) ∧
    c.tapes.length = count ∧
    (∃ first others, c.tapes = first :: others ∧
      w.length ≤ first.symbols.length ∧ first.symbols.length ≤ w.length + c.steps ∧
        ∀ t ∈ others, t.symbols.length ≤ c.steps) ∧
    ∀ t ∈ c.tapes, t.blank = blank ∧ -1 ≤ t.head ∧ t.head ≤ t.symbols.length ∧
      ∀ s ∈ t.symbols,
        s ∈ w ∨ s = blank ∨ ∃ rule ∈ rules, s ∈ (fillBlank blank rule.2).write := by
  have hfit := isFitted_of_ofRules h
  have hreach := reaches_of_mem_visited he hc
  have hshaped := isShaped_of_reaches hfit hreach
  obtain ⟨_, -, hm⟩ := map_eq_ok_iff.mp h
  have hcount : m.tapeCount = count := by rw [← hm]
  have hblank : m.blank = blank := by rw [← hm]
  refine ⟨fun n => ⟨fun hn => (steps_of_reaches_initial hn).symm, ?_⟩,
    hshaped.length_tapes.trans hcount, hshaped.exists_first hfit, fun t ht => ?_⟩
  · rintro rfl
    exact hreach
  · obtain ⟨i, hi⟩ := List.mem_iff_getElem?.mp ht
    have hgrown := hshaped.grown i t hi
    refine ⟨hgrown.blank_eq.trans hblank, hgrown.head_ge, hgrown.head_le, fun s hs => ?_⟩
    -- no gap is filled, so a blank on a tape was loaded or written like any other symbol
    rcases hgrown.mem s hs with hloaded | hwritten
    · exact .inl (mem_of_mem_loaded hloaded)
    · exact .inr (.inr (exists_rule_of_writes h hwritten))

/-- The rules of a machine that marks an `x` on its second tape for each `a` of its word, from right
to left, and a `b` behind the word. -/
def tallyRules : List (String × Transition) :=
  [("read", ⟨['a', '_'], ['a', 'x'], [.right, .left], "read"⟩),
    ("read", ⟨['_', '_'], ['b', 'x'], [.left, .left], "done"⟩)]

/-- The machine with these rules and two tapes. -/
def tallier : Machine where
  initial := "read"
  final := "done"
  blank := '#'
  tapeCount := 2
  table := .ofList (tallyRules.map fun rule => (rule.1, fillBlank '#' rule.2))

/-- On `aa` the last visited configuration has three symbols on each tape, and the second head
stands left of them. -/
theorem tallier_shape :
    ofRules "read" "done" '#' 2 tallyRules = .ok tallier ∧
    (⟨"done", [⟨['a', 'a', 'b'], 1, '#'⟩, ⟨['x', 'x', 'x'], -1, '#'⟩], 3⟩, 0) ∈
      (tallier.search ['a', 'a'] 4).visited ∧
    ∀ n, tallier.Reaches n (tallier.initialConfiguration ['a', 'a'])
      ⟨"done", [⟨['a', 'a', 'b'], 1, '#'⟩, ⟨['x', 'x', 'x'], -1, '#'⟩], 3⟩ ↔ n = 3 := by
  have hbuilt : ofRules "read" "done" '#' 2 tallyRules = .ok tallier := by decide +kernel
  have hvisited : (⟨"done", [⟨['a', 'a', 'b'], 1, '#'⟩, ⟨['x', 'x', 'x'], -1, '#'⟩], 3⟩, 0) ∈
      (tallier.search ['a', 'a'] 4).visited := by decide +kernel
  have hsearch : tallier.searchWithin ['a', 'a'] (some 4) =
      some (tallier.search ['a', 'a'] 4) := rfl
  exact ⟨hbuilt, hvisited, (shape_of_mem_visited hbuilt hsearch hvisited).1⟩

end Machine

end Acceptors
