import Acceptors.Proofs.Grammar.Explanation

/-!
# The tree that is chosen

A word of an ambiguous grammar has many trees. The one that is built uses, at each node, the first
production in the order of the grammar whose body derives what is below the node, and splits this as
early as the two nonterminals of the body allow. The choice is made by looking into cells, but cells
hold what is derived, so it can be said without a chart. And it leaves nothing open: a word has only
one such tree, which depends on no more than the productions of each nonterminal, in their order.

## Main definitions

* `Grammar.IsFirst`: the first production of a nonterminal whose body derives a word
* `Grammar.IsEarliestSplit`: the two parts of a word, the first of them as short as it can be
* `Grammar.IsCanonical`: a tree with such a production and such a split at each node

## Main results

* `IsNormal.isFirst_of_find?`, `IsNormal.of_split?_eq_some`: which rule and which split are found
* `IsNormal.isCanonical_of_build`: what is built over a stretch
* `IsCanonical.unique`, `IsCanonical.of_same`: what the tree depends on
* `parse_is_canonical`: every accepted word is explained by its canonical tree
-/

namespace Acceptors

namespace Grammar

section

variable (g : Grammar)

/-- The first production of a nonterminal, in the order of the grammar, whose body derives the
word. -/
def IsFirst (name : String) (w : Word) (p : Production) : Prop :=
  ∃ before after, g.productionsOf name = before ++ p :: after ∧ g.Derives p.body w.form ∧
    ∀ q ∈ before, ¬ g.Derives q.body w.form

/-- Two words that are not empty and are derived by two nonterminals, the first of them as short as
it can be if both are to make up the same word. -/
structure IsEarliestSplit (b c : String) (u v : Word) : Prop where
  left_ne_nil : u ≠ []
  right_ne_nil : v ≠ []
  derives_left : g.Derives [.nonterminal b] u.form
  derives_right : g.Derives [.nonterminal c] v.form
  length_le : ∀ x y, x ++ y = u ++ v → x ≠ [] → g.Derives [.nonterminal b] x.form →
    g.Derives [.nonterminal c] y.form → u.length ≤ x.length

/-- The tree of a nonterminal over a word that uses the first production that derives what is below
a node, at each of them, and the earliest split for it. The productions are listed in preorder. -/
inductive IsCanonical : String → Word → Tree → List Production → Prop where
  | unit {p : Production} {c : Char} (first : g.IsFirst p.head [c] p)
    (body : p.body = [.terminal c]) : IsCanonical p.head [c] (.branch p.head [.leaf c]) [p]
  | pair {p : Production} {b c : String} {u v : Word} {left right : Tree}
    {leftSteps rightSteps : List Production} (first : g.IsFirst p.head (u ++ v) p)
    (body : p.body = [.nonterminal b, .nonterminal c]) (split : g.IsEarliestSplit b c u v)
    (below_left : IsCanonical b u left leftSteps)
    (below_right : IsCanonical c v right rightSteps) :
    IsCanonical p.head (u ++ v) (.branch p.head [left, right]) (p :: leftSteps ++ rightSteps)

end

section

variable {g : Grammar} {name b c : String} {u v w : Word} {p q : Production}

/-! ## First productions and earliest splits -/

/-- The first production of a nonterminal may be looked for among all productions. -/
theorem isFirst_of_append {before after : List Production}
    (h : g.productions = before ++ p :: after) (hhead : p.head = name)
    (hderives : g.Derives p.body w.form)
    (hbefore : ∀ q ∈ before, q.head = name → ¬ g.Derives q.body w.form) : g.IsFirst name w p := by
  refine ⟨before.filter fun q => q.head = name, after.filter fun q => q.head = name, ?_,
    hderives, ?_⟩
  · rw [productionsOf, h, List.filter_append, List.filter_cons_of_pos (by simpa using hhead)]
  · intro q hq
    obtain ⟨hmem, hqhead⟩ := List.mem_filter.mp hq
    exact hbefore q hmem (of_decide_eq_true hqhead)

theorem IsFirst.unique (h : g.IsFirst name w p) (k : g.IsFirst name w q) : p = q := by
  obtain ⟨before, after, hp, hderives, hbefore⟩ := h
  obtain ⟨before', after', hq, hderives', hbefore'⟩ := k
  -- whichever of the two stood in front of the other would be the first one
  rcases List.append_eq_append_iff.mp (hp.symm.trans hq) with ⟨l, rfl, hl⟩ | ⟨l, rfl, hl⟩
  · cases l with
    | nil => exact (List.cons.inj hl).1
    | cons x l =>
      obtain ⟨rfl, -⟩ := List.cons.inj hl
      exact absurd hderives (hbefore' p (by simp))
  · cases l with
    | nil => exact (List.cons.inj hl).1.symm
    | cons x l =>
      obtain ⟨rfl, -⟩ := List.cons.inj hl
      exact absurd hderives' (hbefore q (by simp))

theorem IsEarliestSplit.unique {x y : Word} (h : g.IsEarliestSplit b c u v)
    (k : g.IsEarliestSplit b c x y) (heq : u ++ v = x ++ y) : u = x ∧ v = y := by
  have hle : u.length ≤ x.length :=
    h.length_le x y heq.symm k.left_ne_nil k.derives_left k.derives_right
  have hle' : x.length ≤ u.length :=
    k.length_le u v heq h.left_ne_nil h.derives_left h.derives_right
  exact List.append_inj heq (Nat.le_antisymm hle hle')

/-! ## What the tree depends on -/

/-- A canonical tree has its production at the root. -/
theorem IsCanonical.exists_first {t : Tree} {steps : List Production}
    (h : g.IsCanonical name w t steps) :
    ∃ p, g.IsFirst name w p ∧
      ((∃ c, p.body = [.terminal c] ∧ w = [c] ∧ t = .branch name [.leaf c] ∧ steps = [p]) ∨
        ∃ b c u v left leftSteps right rightSteps, p.body = [.nonterminal b, .nonterminal c] ∧
          w = u ++ v ∧ g.IsEarliestSplit b c u v ∧ g.IsCanonical b u left leftSteps ∧
            g.IsCanonical c v right rightSteps ∧ t = .branch name [left, right] ∧
              steps = p :: leftSteps ++ rightSteps) := by
  cases h with
  | @unit p c first body => exact ⟨p, first, .inl ⟨c, body, rfl, rfl, rfl⟩⟩
  | @pair p b c u v left right leftSteps rightSteps first body split hl hr =>
    exact ⟨p, first, .inr ⟨b, c, u, v, left, leftSteps, right, rightSteps, body, rfl, split, hl, hr,
      rfl, rfl⟩⟩

/-- A word has only one canonical tree, with one list of productions. -/
theorem IsCanonical.unique {t t' : Tree} {steps steps' : List Production}
    (h : g.IsCanonical name w t steps) (k : g.IsCanonical name w t' steps') :
    t' = t ∧ steps' = steps := by
  induction h generalizing t' steps' with
  | @unit p c first body =>
    obtain ⟨q, hq, hcases⟩ := k.exists_first
    obtain rfl := first.unique hq
    rcases hcases with ⟨c', -, hc, rfl, rfl⟩ | ⟨b', c', -, -, -, -, -, -, hbody, -⟩
    · obtain rfl := List.singleton_inj.mp hc
      exact ⟨rfl, rfl⟩
    · simp [body] at hbody
  | @pair p b c u v left right leftSteps rightSteps first body split _ _ ihl ihr =>
    obtain ⟨q, hq, hcases⟩ := k.exists_first
    obtain rfl := first.unique hq
    rcases hcases with ⟨c', hbody, -⟩ |
      ⟨b', c', u', v', left', leftSteps', right', rightSteps', hbody, huv, hsplit, hl, hr, rfl, rfl⟩
    · simp [body] at hbody
    -- one production has one body, and this one split, so the parts are the same
    · rw [body] at hbody
      obtain ⟨rfl, rfl⟩ : b = b' ∧ c = c' := by simpa using hbody
      obtain ⟨rfl, rfl⟩ := split.unique hsplit huv
      obtain ⟨rfl, rfl⟩ := ihl hl
      obtain ⟨rfl, rfl⟩ := ihr hr
      exact ⟨rfl, rfl⟩

section

variable {g' : Grammar} (hsame : ∀ name, g.productionsOf name = g'.productionsOf name)

include hsame

theorem mem_productions_of_same {p : Production} (hp : p ∈ g.productions) :
    p ∈ g'.productions := by
  have hmem : p ∈ g.productionsOf p.head := List.mem_filter.mpr ⟨hp, by simp⟩
  rw [hsame] at hmem
  exact (List.mem_filter.mp hmem).1

theorem derives_of_same {a f : List GrammarSymbol} (h : g.Derives a f) : g'.Derives a f := by
  induction h with
  | refl form => exact .refl form
  | head first _ ih =>
    obtain ⟨mem, before, after⟩ := first
    exact .head (.step (mem_productions_of_same hsame mem) before after) ih

theorem derives_iff_of_same {a f : List GrammarSymbol} : g.Derives a f ↔ g'.Derives a f :=
  ⟨derives_of_same hsame, derives_of_same fun name => (hsame name).symm⟩

theorem isFirst_iff_of_same : g.IsFirst name w p ↔ g'.IsFirst name w p := by
  simp only [IsFirst, hsame name, derives_iff_of_same hsame]

theorem IsEarliestSplit.of_same (h : g.IsEarliestSplit b c u v) : g'.IsEarliestSplit b c u v := by
  have hderives : ∀ {a f : List GrammarSymbol}, g'.Derives a f ↔ g.Derives a f :=
    (derives_iff_of_same hsame).symm
  refine ⟨h.left_ne_nil, h.right_ne_nil, hderives.mpr h.derives_left, hderives.mpr h.derives_right,
    fun x y hxy hx hdx hdy => ?_⟩
  exact h.length_le x y hxy hx (hderives.mp hdx) (hderives.mp hdy)

/-- The canonical tree does not change when productions of different nonterminals change places. -/
theorem IsCanonical.of_same {t : Tree} {steps : List Production}
    (h : g.IsCanonical name w t steps) : g'.IsCanonical name w t steps := by
  induction h with
  | unit first body => exact .unit ((isFirst_iff_of_same hsame).mp first) body
  | pair first body split _ _ ihl ihr =>
    exact .pair ((isFirst_iff_of_same hsame).mp first) body (split.of_same hsame) ihl ihr

end

/-! ## What is found in the chart -/

/-- The first rule for a terminal belongs to the first production that derives it. -/
theorem IsNormal.isFirst_of_find? (h : g.IsNormal) {c : Char} {rule : UnitRule}
    (hrule : g.ruleIndex.units.find? (fun u => u.head = g.numberOf name && u.terminal = c) =
      some rule) :
    rule.production.head = name ∧ rule.production.body = [.terminal c] ∧
      g.IsFirst name [c] rule.production := by
  rw [ruleIndex, List.find?_filterMap, Option.bind_eq_some_iff] at hrule
  obtain ⟨p, hp, hunit⟩ := hrule
  obtain ⟨hfits, before, after, hsplit, hbefore⟩ := List.find?_eq_some_iff_append.mp hp
  have hmem : p ∈ g.productions := List.mem_of_find?_eq_some hp
  obtain ⟨d, hbody, rfl⟩ := unitRule?_eq_some_iff.mp hunit
  obtain ⟨hhead, rfl⟩ : g.numberOf p.head = g.numberOf name ∧ d = c := by
    simpa [hunit] using hfits
  have hhead : p.head = name := numberOf_inj (head_mem_nonterminals hmem) hhead
  refine ⟨hhead, hbody, isFirst_of_append hsplit hhead ?_ fun q hq hqhead hd => ?_⟩
  · exact (h.derives_body_char_iff hmem).mpr hbody
  -- a production in front with the same body would have been found
  · have hqmem : q ∈ g.productions := hsplit ▸ List.mem_append_left _ hq
    have hqunit : g.unitRule? q = some ⟨g.numberOf q.head, d, q⟩ :=
      unitRule?_eq_some_iff.mpr ⟨d, (h.derives_body_char_iff hqmem).mp hd, rfl⟩
    simpa [hqunit, hqhead] using hbefore q hq

section

variable {n span start k : Nat} {chart : RuleIndex.Chart} {rule : BinaryRule}

theorem find?_places_eq_some_iff {f : Nat → Bool} :
    ((List.range (span - 1)).map (· + 1)).find? f = some k ↔
      f k = true ∧ 1 ≤ k ∧ k < span ∧ ∀ j, 1 ≤ j → j < k → f j = false := by
  rw [List.find?_map, Option.map_eq_some_iff]
  constructor
  · rintro ⟨j, hj, rfl⟩
    obtain ⟨hfits, hmem, hbefore⟩ := List.find?_range_eq_some.mp hj
    have hlt := List.mem_range.mp hmem
    refine ⟨hfits, by omega, by omega, fun i hpos hi => ?_⟩
    simpa [Nat.sub_add_cancel hpos] using hbefore (i - 1) (by omega)
  · rintro ⟨hfits, hpos, hlt, hbefore⟩
    refine ⟨k - 1, List.find?_range_eq_some.mpr ⟨?_, List.mem_range.mpr (by omega), ?_⟩,
      Nat.sub_add_cancel hpos⟩
    · simpa [Nat.sub_add_cancel hpos] using hfits
    · intro j hj
      simpa using hbefore (j + 1) (by omega) (by omega)

/-- The rule and the split are looked for among all productions, in their order. -/
theorem split?_eq_findSome? (head : Nat) :
    g.ruleIndex.split? chart head span start = g.productions.findSome? fun p =>
      (g.binaryRule? p).bind fun b => if b.head = head then
        (((List.range (span - 1)).map (· + 1)).find?
          (RuleIndex.splits chart span start b)).map fun k => (b, k)
      else none := by
  rw [RuleIndex.split?, ← List.head?_filterMap, List.filterMap_filter, ruleIndex,
    List.filterMap_filterMap, List.head?_filterMap]
  simp only [decide_eq_true_eq]

/-- A split fits if its two parts are derived. -/
theorem IsNormal.splits_iff (h : g.IsNormal) {l r : String} (hl : l ∈ g.nonterminals)
    (hr : r ∈ g.nonterminals) (hpos : 1 ≤ k) (hk : k < span) (hn : span ≤ n + 1)
    (hend : start + span ≤ w.length) {head : Nat} :
    RuleIndex.splits (g.ruleIndex.chartUpTo w n) span start
        ⟨head, g.numberOf l, g.numberOf r, p⟩ k = true ↔
      g.Derives [.nonterminal l] (Word.form (w.stretch start k)) ∧
        g.Derives [.nonterminal r] (Word.form (w.stretch (start + k) (span - k))) := by
  rw [RuleIndex.splits_iff, h.numberOf_mem_cell_iff hl hpos (by omega) (by omega),
    h.numberOf_mem_cell_iff hr (by omega) (by omega) (by omega)]

/-- The split that is found for a production is its earliest one. -/
theorem IsNormal.isEarliestSplit_of_find? (h : g.IsNormal) {l r : String}
    (hl : l ∈ g.nonterminals) (hr : r ∈ g.nonterminals) (hn : span ≤ n + 1)
    (hend : start + span ≤ w.length) {head : Nat}
    (hfind : ((List.range (span - 1)).map (· + 1)).find?
      (RuleIndex.splits (g.ruleIndex.chartUpTo w n) span start
        ⟨head, g.numberOf l, g.numberOf r, p⟩) = some k) :
    g.IsEarliestSplit l r (w.stretch start k) (w.stretch (start + k) (span - k)) := by
  obtain ⟨hfits, hpos, hlt, hbefore⟩ := find?_places_eq_some_iff.mp hfind
  obtain ⟨hdl, hdr⟩ := (h.splits_iff hl hr hpos hlt hn hend).mp hfits
  have hlen : (w.stretch start k).length = k := Word.length_stretch (by omega)
  have hlen' : (w.stretch (start + k) (span - k)).length = span - k :=
    Word.length_stretch (by omega)
  refine ⟨List.ne_nil_of_length_pos (by omega), List.ne_nil_of_length_pos (by omega), hdl, hdr,
    fun x y hxy hx hdx hdy => ?_⟩
  rw [← Word.stretch_split (Nat.le_of_lt hlt)] at hxy
  obtain ⟨hsx, hsy⟩ := Word.stretch_eq_append hend hxy.symm
  rw [hlen]
  -- a shorter first part would have been found before
  refine Nat.le_of_not_lt fun hshorter => ?_
  have hxpos : 1 ≤ x.length := List.length_pos_iff.mpr hx
  have hnot := hbefore x.length hxpos hshorter
  rw [← Bool.not_eq_true, h.splits_iff hl hr hxpos (by omega) hn hend, hsx, hsy] at hnot
  exact hnot ⟨hdx, hdy⟩

/-- The rule that is found belongs to the first production that derives the stretch. -/
theorem IsNormal.of_split?_eq_some (h : g.IsNormal) (hspan : 2 ≤ span) (hn : span ≤ n + 1)
    (hend : start + span ≤ w.length)
    (hsplit : g.ruleIndex.split? (g.ruleIndex.chartUpTo w n) (g.numberOf name) span start =
      some (rule, k)) :
    ∃ p ∈ g.productions, ∃ b c, p.head = name ∧ p.body = [.nonterminal b, .nonterminal c] ∧
      rule = ⟨g.numberOf p.head, g.numberOf b, g.numberOf c, p⟩ ∧
        g.IsFirst name (w.stretch start span) p ∧
          g.IsEarliestSplit b c (w.stretch start k) (w.stretch (start + k) (span - k)) := by
  obtain ⟨-, -, hpos, hlt, -, -⟩ := RuleIndex.of_split?_eq_some hsplit
  rw [split?_eq_findSome?] at hsplit
  obtain ⟨before, p, after, happend, hfound, hbefore⟩ := List.findSome?_eq_some_iff.mp hsplit
  have hmem : p ∈ g.productions := happend ▸ List.mem_append_right _ List.mem_cons_self
  obtain ⟨rule', hrule, hfound⟩ := Option.bind_eq_some_iff.mp hfound
  obtain ⟨b, c, hbody, rfl⟩ := binaryRule?_eq_some_iff.mp hrule
  obtain ⟨hhead, hfound⟩ := Option.ite_none_right_eq_some.mp hfound
  obtain ⟨j, hfind, hpair⟩ := Option.map_eq_some_iff.mp hfound
  obtain ⟨rfl, rfl⟩ := Prod.mk.inj hpair
  have hhead : p.head = name := numberOf_inj (head_mem_nonterminals hmem) hhead
  have hb : b ∈ g.nonterminals := body_mem_nonterminals hmem (by simp [hbody])
  have hc : c ∈ g.nonterminals := body_mem_nonterminals hmem (by simp [hbody])
  have hearliest := h.isEarliestSplit_of_find? hb hc hn hend hfind
  refine ⟨p, hmem, b, c, hhead, hbody, rfl, isFirst_of_append happend hhead ?_ ?_, hearliest⟩
  · exact (h.derives_body_stretch_iff hmem hspan hend).mpr
      ⟨b, c, hbody, j, hpos, hlt, hearliest.derives_left, hearliest.derives_right⟩
  -- a production in front that derives the stretch would have been found with one of its splits
  · intro q hq hqhead hd
    have hqmem : q ∈ g.productions := happend ▸ List.mem_append_left _ hq
    obtain ⟨l, r, hqbody, i, hi, hilt, hdl, hdr⟩ :=
      (h.derives_body_stretch_iff hqmem hspan hend).mp hd
    have hl : l ∈ g.nonterminals := body_mem_nonterminals hqmem (by simp [hqbody])
    have hr : r ∈ g.nonterminals := body_mem_nonterminals hqmem (by simp [hqbody])
    have hqrule : g.binaryRule? q = some ⟨g.numberOf q.head, g.numberOf l, g.numberOf r, q⟩ :=
      binaryRule?_eq_some_iff.mpr ⟨l, r, hqbody, rfl⟩
    have hnone := hbefore q hq
    rw [hqrule, Option.bind_some, if_pos (congrArg g.numberOf hqhead), Option.map_eq_none_iff,
      List.find?_eq_none] at hnone
    exact hnone i (RuleIndex.mem_places_iff.mpr ⟨hi, hilt⟩)
      ((h.splits_iff hl hr hi hilt hn hend).mpr ⟨hdl, hdr⟩)

/-- What is built for a nonterminal over a stretch is its canonical tree. -/
theorem IsNormal.isCanonical_of_build (h : g.IsNormal) {height : Nat}
    (hname : name ∈ g.nonterminals) (hpos : 1 ≤ span) (hn : span ≤ n + 1)
    (hend : start + span ≤ w.length) {t : Tree} {steps : List Production}
    (hbuild : g.ruleIndex.build (g.ruleIndex.chartUpTo w n) w height (g.numberOf name) span start =
      some (t, steps)) : g.IsCanonical name (w.stretch start span) t steps := by
  induction height generalizing name span start t steps with
  | zero => simp [RuleIndex.build] at hbuild
  | succ height ih =>
    rcases (by omega : span = 1 ∨ 2 ≤ span) with rfl | hspan
    · obtain ⟨c, u, hc, hu, rfl, rfl⟩ := exists_rule_of_build_one hname hbuild
      obtain ⟨rfl, hbody, hfirst⟩ := h.isFirst_of_find? hu
      rw [Word.stretch_one hc]
      exact .unit hfirst hbody
    · obtain ⟨rule, k, hsplit, left, leftSteps, right, rightSteps, hleft, hright, rfl, rfl⟩ :=
        exists_split?_of_build hname hspan hbuild
      obtain ⟨-, -, hk, hlt, -, -⟩ := RuleIndex.of_split?_eq_some hsplit
      obtain ⟨p, hp, b, c, rfl, hbody, rfl, hfirst, hearliest⟩ :=
        h.of_split?_eq_some hspan hn hend hsplit
      -- both parts are shorter, and their nonterminals stand in a body
      have hb : b ∈ g.nonterminals := body_mem_nonterminals hp (by simp [hbody])
      have hc : c ∈ g.nonterminals := body_mem_nonterminals hp (by simp [hbody])
      have hl := ih hb hk (by omega) (by omega) hleft
      have hr := ih hc (by omega) (by omega) (by omega) hright
      rw [Word.stretch_split (Nat.le_of_lt hlt)] at hfirst ⊢
      exact .pair hfirst hbody hearliest hl hr

end

/-- A word that is not empty is explained by its canonical tree. -/
theorem IsNormal.isCanonical_of_parse (h : g.IsNormal) (hw : w ≠ []) {e : Explanation}
    (he : g.ruleIndex.parse w = some e) :
    e.derivation.start = g.start ∧ g.IsCanonical g.start w e.tree e.derivation.steps := by
  obtain ⟨hbuild, hstart⟩ := build_of_parse_eq_some hw he
  have hcanonical := h.isCanonical_of_build g.start_mem_nonterminals (List.length_pos_iff.mpr hw)
    (by omega) (by omega) hbuild
  rw [Word.stretch_zero_length] at hcanonical
  exact ⟨hstart, hcanonical⟩

/-- **The tree of a word is the canonical one.** If the check of a grammar passes, an accepted word
that is not empty is explained by a tree that uses, at each node, the first production in the order
of the grammar whose body derives what is below the node, and the earliest split for it. The
productions of the derivation are those of the tree. There is no other such tree, and every grammar
with the same start symbol and, for each nonterminal, the same productions in the same order explains
the word in the same way. -/
theorem parse_is_canonical {r : RuleIndex} (h : g.indexed = .ok r) (hw : w ≠ [])
    (haccepts : r.accepts w = true) :
    ∃ e, r.parse w = some e ∧ e.derivation.start = g.start ∧
      g.IsCanonical g.start w e.tree e.derivation.steps ∧
      (∀ t steps, g.IsCanonical g.start w t steps → t = e.tree ∧ steps = e.derivation.steps) ∧
      ∀ (g' : Grammar) (r' : RuleIndex), g'.indexed = .ok r' → g'.start = g.start →
        (∀ name, g'.productionsOf name = g.productionsOf name) → r'.parse w = some e := by
  obtain ⟨hg, rfl⟩ := indexed_eq_ok_iff.mp h
  obtain ⟨e, he⟩ := Option.isSome_iff_exists.mp ((RuleIndex.isSome_parse _ w).trans haccepts)
  obtain ⟨hstart, hcanonical⟩ := hg.isCanonical_of_parse hw he
  refine ⟨e, he, hstart, hcanonical, fun t steps ht => hcanonical.unique ht, ?_⟩
  intro g' r' h' hstart' hsame
  obtain ⟨hg', rfl⟩ := indexed_eq_ok_iff.mp h'
  -- the other grammar generates the word, so it explains it by a canonical tree of its own
  have hgenerates : g.Generates w :=
    (hg.isSome_parse_iff_of_ne_nil hw).mp (Option.isSome_of_eq_some he)
  have hgenerates' : g'.Generates w := by
    rw [Generates, hstart']
    exact derives_of_same (fun name => (hsame name).symm) hgenerates
  obtain ⟨e', he'⟩ := Option.isSome_iff_exists.mp
    ((hg'.isSome_parse_iff_of_ne_nil hw).mpr hgenerates')
  obtain ⟨hstarts, hcanonical'⟩ := hg'.isCanonical_of_parse hw he'
  rw [hstart'] at hstarts hcanonical'
  obtain ⟨htree, hsteps⟩ := hcanonical.unique (hcanonical'.of_same hsame)
  obtain ⟨tree, start, steps⟩ := e
  obtain ⟨tree', start', steps'⟩ := e'
  simp only at htree hsteps hstart hstarts
  rw [he', htree, hsteps, hstarts, hstart]

end

/-- Some `a`, which may be put together in any way. -/
def heap : Grammar where
  start := "S"
  productions := [⟨"S", [.nonterminal "S", .nonterminal "S"]⟩, ⟨"S", [.terminal 'a']⟩]

/-- Three characters have two trees, and the one that splits behind the first character is
canonical. -/
theorem heap_is_canonical : heap.indexed = .ok heap.ruleIndex ∧
    heap.ruleIndex.accepts ['a', 'a', 'a'] = true ∧
      ∃ e, heap.ruleIndex.parse ['a', 'a', 'a'] = some e ∧
        e.tree.text = "[S [S [a]] [S [S [a]] [S [a]]]]" ∧
          heap.IsCanonical "S" ['a', 'a', 'a'] e.tree e.derivation.steps := by
  have h : heap.indexed = .ok heap.ruleIndex := rfl
  have haccepts : heap.ruleIndex.accepts ['a', 'a', 'a'] = true := by decide +kernel
  obtain ⟨e, he, -, hcanonical, -, -⟩ := parse_is_canonical h (List.cons_ne_nil _ _) haccepts
  have htext : (heap.ruleIndex.parse ['a', 'a', 'a']).map (fun e => e.tree.text) =
      some "[S [S [a]] [S [S [a]] [S [a]]]]" := by decide +kernel
  rw [he] at htext
  exact ⟨h, haccepts, e, he, Option.some.inj htext, hcanonical⟩

end Grammar

end Acceptors
