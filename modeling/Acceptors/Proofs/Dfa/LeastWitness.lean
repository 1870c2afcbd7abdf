import Acceptors.Proofs.Dfa.Levels

/-!
# Least witnesses

Many words may tell two states apart. The recorded one is the first of the shortest in alphabetical
order. A pass only finds pairs whose shortest words are one character longer than the marks before,
so all extensions that it can choose from are equally long, and it takes the one with the smallest
first symbol. Behind this symbol stands the mark of the targets, which is the least one for them.

## Main definitions

* `Word.LexLe`: the alphabetical order of words
* `Dfa.IsLeastWitness`: the first of the shortest words that tell two states apart

## Main results

* `IsComplete.lexLe_of_extension?`: which extension a pass takes
* `Table.IsExact.isLeastWitness_of_extension?`: it is the least witness of its pair
* `isLeastWitness_of_getElem?_refinements`: the marks of all tables are least witnesses
* `witness_minimize_is_least`: so are the witnesses of named states
-/

namespace Acceptors

/-- The alphabetical order of words: where two of them differ first, the code points decide. -/
def Word.LexLe (u v : Word) : Prop := u = v ∨ List.Lex (· < ·) u v

namespace Word.LexLe

variable {u v w : Word}

theorem trans (h : u.LexLe v) (k : v.LexLe w) : u.LexLe w := by
  rcases h with rfl | h
  · exact k
  rcases k with rfl | k
  · exact .inr h
  · exact .inr (List.lex_trans (fun hab hbc => Char.lt_trans hab hbc) h k)

theorem cons (c : Char) (h : u.LexLe v) : Word.LexLe (c :: u) (c :: v) := by
  rcases h with rfl | h
  · exact .inl rfl
  · exact .inr (.cons h)

end Word.LexLe

namespace Dfa

variable {d : Dfa} {t : Table} {i j k p q : Nat} {c : Char} {u v w : Word}

/-- The word tells two states apart, no shorter word does, and of the words of its length that do it
is the first in alphabetical order. -/
structure IsLeastWitness (d : Dfa) (w : Word) (p q : Nat) : Prop where
  tellsApart : d.TellsApart w p q
  length_le : ∀ v, d.TellsApart v p q → w.length ≤ v.length
  lexLe : ∀ v, d.TellsApart v p q → v.length = w.length → w.LexLe v

theorem IsLeastWitness.symm (h : d.IsLeastWitness w p q) : d.IsLeastWitness w q p :=
  ⟨h.tellsApart.symm, fun v hv => h.length_le v hv.symm, fun v hv => h.lexLe v hv.symm⟩

/-! ## The extension that is taken -/

/-- In a list in alphabetical order the first of the shortest words is the first of them in this
order. -/
theorem lexLe_of_shortest {l : List Word} (hl : l.Pairwise (List.Lex (· < ·)))
    (h : shortest l = some w) (hu : u ∈ l) (hlen : u.length = w.length) : w.LexLe u := by
  obtain ⟨before, after, rfl, hbefore, -⟩ := exists_append_of_shortest h
  rcases List.mem_append.mp hu with hu | hu
  · exact absurd hlen (Nat.ne_of_gt (hbefore u hu))
  rcases List.mem_cons.mp hu with rfl | hu
  · exact .inl rfl
  · exact .inr (List.rel_of_pairwise_cons (List.pairwise_append.mp hl).2.1 hu)

/-- Of the equally long extensions a pass takes the first one in alphabetical order. -/
theorem IsComplete.lexLe_of_extension? (hd : d.IsComplete) (h : d.extension? t i j = some w)
    (hc : c ∈ d.alphabet) (hp : d.step? i c = some p) (hq : d.step? j c = some q)
    (hv : t.mark p q = some v) (hlen : v.length + 1 = w.length) : w.LexLe (c :: v) := by
  refine lexLe_of_shortest ?_ h (List.mem_filterMap.mpr ⟨c, hc, by simp [hp, hq, hv]⟩) hlen
  -- the first symbols of the extensions increase as the alphabet does
  rw [List.pairwise_filterMap]
  refine hd.alphabet_increasing.imp fun hab x hx y hy => ?_
  simp only [Option.bind_eq_bind, Option.bind_eq_some_iff, Option.pure_def,
    Option.some.injEq] at hx hy
  obtain ⟨-, -, -, -, -, -, rfl⟩ := hx
  obtain ⟨-, -, -, -, -, -, rfl⟩ := hy
  exact .rel hab

/-- What a pass finds for an unmarked pair is its least witness, if the marks before are least
witnesses. -/
theorem Table.IsExact.isLeastWitness_of_extension? (h : t.IsExact d) (hd : d.IsComplete)
    (hleast : ∀ p q w, t.mark p q = some w → d.IsLeastWitness w p q) (hi : i < d.states.length)
    (hj : j < d.states.length) (hnone : t.mark i j = none) (hw : d.extension? t i j = some w) :
    d.IsLeastWitness w i j := by
  obtain ⟨c, p, q, v, -, hp, hq, hv, rfl⟩ := of_extension?_eq_some hw
  obtain ⟨happart, hle⟩ := h.tellsApart p q v hv
  have htells : d.TellsApart (c :: v) i j := (tellsApart_cons_iff hp hq).mpr happart
  -- the shorter words belong to pairs with a mark
  have hlonger : ∀ u, d.TellsApart u i j → t.passes < u.length := by
    intro u hu
    refine Nat.lt_of_not_le fun hlen => ?_
    have hmark := h.isSome_mark i j u hi hj hlen hu
    rw [hnone] at hmark
    cases hmark
  have hvlen : v.length = t.passes := by
    have hlt := hlonger (c :: v) htells
    rw [List.length_cons] at hlt
    omega
  refine ⟨htells, fun u hu => ?_, fun u hu hulen => ?_⟩
  · rw [List.length_cons, hvlen]
    exact hlonger u hu
  cases u with
  | nil => cases hulen
  | cons c' u =>
    obtain ⟨p', q', hc', hp', hq', hu'⟩ := hd.steps_of_tellsApart hi hj hu
    have hulen : u.length = t.passes := by simpa [hvlen] using hulen
    obtain ⟨m, hm⟩ := Option.isSome_iff_exists.mp <|
      h.isSome_mark p' q' u (hd.step?_lt hp') (hd.step?_lt hq') (Nat.le_of_eq hulen) hu'
    have hmleast := hleast p' q' m hm
    -- the mark of the targets is as long as the rest of the word
    have hmlen : m.length = t.passes := by
      have hlt := hlonger (c' :: m) ((tellsApart_cons_iff hp' hq').mpr hmleast.tellsApart)
      have hle := hmleast.length_le u hu'
      rw [List.length_cons] at hlt
      omega
    have hfirst : Word.LexLe (c :: v) (c' :: m) :=
      hd.lexLe_of_extension? hw hc' hp' hq' hm (by rw [List.length_cons, hmlen, hvlen])
    have hrest : m.LexLe u := hmleast.lexLe u hu' (hulen.trans hmlen.symm)
    exact hfirst.trans (hrest.cons c')

/-! ## The marks of all tables -/

theorem isLeastWitness_initialTable (hw : d.initialTable.mark p q = some w) :
    d.IsLeastWitness w p q := by
  have hexact := Table.IsExact.initial d
  obtain ⟨happart, hlen⟩ := hexact.tellsApart p q w hw
  obtain rfl : w = [] := List.length_eq_zero_iff.mp (Nat.le_zero.mp hlen)
  refine ⟨happart, fun v _ => Nat.zero_le _, fun v _ hv => ?_⟩
  exact .inl (List.length_eq_zero_iff.mp hv).symm

theorem Table.IsExact.isLeastWitness_refine (h : t.IsExact d) (hd : d.IsComplete)
    (hleast : ∀ p q w, t.mark p q = some w → d.IsLeastWitness w p q)
    (hw : (d.refine t).mark p q = some w) : d.IsLeastWitness w p q := by
  have hrefine := h.refine hd
  refine of_mark_eq_some (P := fun p q w => d.IsLeastWitness w p q) hrefine.length_row
    (fun p q w hpq => hpq.symm) (fun i j w hj hi hmark => ?_) hw
  have hi : i < d.states.length := hrefine.length_marks ▸ hi
  rw [h.mark_refine hi hj, Option.or_eq_some_iff] at hmark
  rcases hmark with hmark | ⟨hnone, hext⟩
  · exact hleast i j w hmark
  · exact h.isLeastWitness_of_extension? hd hleast hi (Nat.lt_trans hj hi) hnone hext

/-- The marks of all tables of a minimization are least witnesses. -/
theorem isLeastWitness_of_getElem?_refinements (hd : d.IsComplete)
    (ht : d.refinements[k]? = some t) (hw : t.mark p q = some w) : d.IsLeastWitness w p q := by
  have hall := of_getElem?_refinements
    (P := fun _ t => t.IsExact d ∧ ∀ p q w, t.mark p q = some w → d.IsLeastWitness w p q)
    ⟨Table.IsExact.initial d, fun p q w hw => isLeastWitness_initialTable hw⟩
    (fun _ t h => ⟨h.1.refine hd, fun p q w hw => h.1.isLeastWitness_refine hd h.2 hw⟩) ht
  exact hall.2 p q w hw

/-- A word that tells two states of a complete automaton apart is a word over its alphabet. -/
theorem IsComplete.mem_alphabet_of_tellsApart (hd : d.IsComplete) (hp : p < d.states.length)
    (hq : q < d.states.length) (hw : d.TellsApart w p q) : ∀ c ∈ w, c ∈ d.alphabet := by
  induction w generalizing p q with
  | nil => simp
  | cons c v ih =>
    obtain ⟨p', q', hc, hp', hq', hv⟩ := hd.steps_of_tellsApart hp hq hw
    exact List.forall_mem_cons.mpr ⟨hc, ih (hd.step?_lt hp') (hd.step?_lt hq') hv⟩

/-- **Witnesses are least.** Of an automaton that is built from edges, the complete table records for
each pair of states that it distinguishes a word over the alphabet on which exactly one of them
accepts. No shorter word does so, and of the words of its length that do it is the first in
alphabetical order. -/
theorem witness_minimize_is_least {initial : String} {accepting : List String}
    {given : Option (List Char)} {edges : List Edge}
    (h : ofEdges initial accepting given edges = .ok d) {p q : String} (hp : p ∈ d.names)
    (hq : q ∈ d.names) (hpq : d.minimize.isDistinguished p q = true) :
    ∃ w, d.minimize.witness p q = some w ∧ d.acceptsFrom p w ≠ d.acceptsFrom q w ∧
      (∀ c ∈ w, c ∈ d.alphabet) ∧
        ∀ v : Word, d.acceptsFrom p v ≠ d.acceptsFrom q v →
          w.length ≤ v.length ∧ (v.length = w.length → w.LexLe v) := by
  have hd := isComplete_of_ofEdges h
  have hnames := nodup_names_of_ofEdges h
  obtain ⟨i, hi, rfl⟩ := exists_nameOf_eq hp
  obtain ⟨j, hj, rfl⟩ := exists_nameOf_eq hq
  obtain ⟨w, hw⟩ := Option.isSome_iff_exists.mp hpq
  have hleast : d.IsLeastWitness w i j := by
    rw [witness_minimize_nameOf hd hnames hi hj] at hw
    exact isLeastWitness_of_getElem?_refinements hd (getElem?_refinements_passes d) hw
  refine ⟨w, hw, (hd.acceptsFrom_ne_iff hnames hi hj).mpr hleast.tellsApart,
    hd.mem_alphabet_of_tellsApart hi hj hleast.tellsApart, fun v hv => ?_⟩
  have hv : d.TellsApart v i j := (hd.acceptsFrom_ne_iff hnames hi hj).mp hv
  exact ⟨hleast.length_le v hv, hleast.lexLe v hv⟩

/-- Four words of two characters tell the states for none and for one character apart. -/
theorem count_witness_is_least :
    ofEdges "none" ["many"] none countEdges = .ok count ∧
      count.minimize.isDistinguished "none" "one" = true ∧
        count.minimize.witness "none" "one" = some ['a', 'a'] ∧
          ∀ v : Word, count.acceptsFrom "none" v ≠ count.acceptsFrom "one" v →
            2 ≤ v.length ∧ (v.length = 2 → Word.LexLe ['a', 'a'] v) := by
  have h : ofEdges "none" ["many"] none countEdges = .ok count := rfl
  have hmarked : count.minimize.isDistinguished "none" "one" = true := by decide +kernel
  have hwitness : count.minimize.witness "none" "one" = some ['a', 'a'] := by decide +kernel
  obtain ⟨w, hw, -, -, hleast⟩ :=
    witness_minimize_is_least h (by decide +kernel) (by decide +kernel) hmarked
  obtain rfl : ['a', 'a'] = w := Option.some.inj (hwitness.symm.trans hw)
  exact ⟨h, hmarked, hwitness, hleast⟩

end Dfa

end Acceptors
