import Acceptors.Proofs.Grammar.Leftmost
import Acceptors.Proofs.Grammar.Membership

/-!
# Explanations of accepted words

The tree that is built over a stretch is a tree of the grammar whose leaves are the stretch, and the
productions that are listed with it are those of its nodes in preorder. A rule for a terminal adds
one production and one character, and a rule for two nonterminals adds one production to those of
two parts, so there is one production less than twice the characters.

## Main definitions

* `RuleIndex.accepts`: the verdict of the chart

## Main results

* `explains_of_terminal`, `explains_of_pair`: trees of single productions
* `of_build_eq_some`: what is built over a stretch
* `isSome_parse`: what the chart accepts is explained
* `parse_explains_acceptance`: every accepted word is explained by a tree and its leftmost derivation
-/

namespace Acceptors

namespace Grammar

/-- The verdict of the chart: its top cell holds the start symbol. The empty word has no chart, and
is accepted by an empty body of the start symbol. -/
def RuleIndex.accepts (r : RuleIndex) (w : Word) : Bool :=
  if w.isEmpty then r.empty?.isSome else ((r.chart w).cell w.length 0).contains 0

section

variable {g : Grammar} {p : Production}

/-! ## Trees of single productions -/

theorem explains_of_empty (hp : p ∈ g.productions) (hbody : p.body = []) :
    g.Explains (.branch p.head []) (.nonterminal p.head) [p] :=
  .branch hp (hbody ▸ .nil)

theorem explains_of_terminal (hp : p ∈ g.productions) {c : Char} (hbody : p.body = [.terminal c]) :
    g.Explains (.branch p.head [.leaf c]) (.nonterminal p.head) [p] :=
  .branch hp (hbody ▸ .cons (.leaf c) .nil)

theorem explains_of_pair (hp : p ∈ g.productions) {b c : String}
    (hbody : p.body = [.nonterminal b, .nonterminal c]) {left right : Tree}
    {leftSteps rightSteps : List Production} (hl : g.Explains left (.nonterminal b) leftSteps)
    (hr : g.Explains right (.nonterminal c) rightSteps) :
    g.Explains (.branch p.head [left, right]) (.nonterminal p.head)
      (p :: leftSteps ++ rightSteps) := by
  have hall : g.ExplainsAll [left, right] [.nonterminal b, .nonterminal c]
      (leftSteps ++ (rightSteps ++ [])) := .cons hl (.cons hr .nil)
  rw [List.append_nil, ← hbody] at hall
  exact .branch hp hall

/-! ## Trees over stretches -/

theorem getD_nonterminals_numberOf {name : String} (h : name ∈ g.nonterminals) :
    (g.ruleIndex.names[g.numberOf name]?).getD "" = name := by
  change (g.nonterminals[g.numberOf name]?).getD "" = name
  rw [getElem?_nonterminals_numberOf h]
  rfl

theorem exists_rule_of_build_one {chart : RuleIndex.Chart} {w : Word} {height start : Nat}
    {name : String} (hname : name ∈ g.nonterminals) {t : Tree} {steps : List Production}
    (h : g.ruleIndex.build chart w (height + 1) (g.numberOf name) 1 start = some (t, steps)) :
    ∃ c u, w[start]? = some c ∧
      g.ruleIndex.units.find? (fun u => u.head = g.numberOf name && u.terminal = c) = some u ∧
        t = .branch name [.leaf c] ∧ steps = [u.production] := by
  rw [RuleIndex.build_one, getD_nonterminals_numberOf hname] at h
  obtain ⟨c, hc, h⟩ := Option.bind_eq_some_iff.mp h
  obtain ⟨u, hu, h⟩ := Option.map_eq_some_iff.mp h
  obtain ⟨rfl, rfl⟩ := Prod.mk.inj h
  exact ⟨c, u, hc, hu, rfl, rfl⟩

theorem of_build_one_eq_some {chart : RuleIndex.Chart} {w : Word} {height start : Nat}
    {name : String} (hname : name ∈ g.nonterminals) {t : Tree} {steps : List Production}
    (h : g.ruleIndex.build chart w (height + 1) (g.numberOf name) 1 start = some (t, steps)) :
    ∃ c, w[start]? = some c ∧ ∃ p ∈ g.productions, p.head = name ∧ p.body = [.terminal c] ∧
      t = .branch name [.leaf c] ∧ steps = [p] := by
  obtain ⟨c, u, hc, hu, rfl, rfl⟩ := exists_rule_of_build_one hname h
  have hfits := List.find?_some hu
  rw [Bool.and_eq_true, decide_eq_true_eq, decide_eq_true_eq] at hfits
  obtain ⟨p, hp, d, hbody, rfl⟩ := mem_units_iff.mp (List.mem_of_find?_eq_some hu)
  obtain ⟨hhead, rfl⟩ := hfits
  exact ⟨d, hc, p, hp, numberOf_inj (head_mem_nonterminals hp) hhead, hbody, rfl, rfl⟩

/-- A tree over two or more characters is made by the rule and the split that are found. -/
theorem exists_split?_of_build {chart : RuleIndex.Chart} {w : Word} {height span start : Nat}
    {name : String} (hname : name ∈ g.nonterminals) (hspan : 2 ≤ span) {t : Tree}
    {steps : List Production}
    (h : g.ruleIndex.build chart w (height + 1) (g.numberOf name) span start = some (t, steps)) :
    ∃ b k, g.ruleIndex.split? chart (g.numberOf name) span start = some (b, k) ∧
      ∃ left leftSteps right rightSteps,
        g.ruleIndex.build chart w height b.left k start = some (left, leftSteps) ∧
        g.ruleIndex.build chart w height b.right (span - k) (start + k) =
          some (right, rightSteps) ∧
        t = .branch name [left, right] ∧ steps = b.production :: leftSteps ++ rightSteps := by
  have hne : span ≠ 1 := by omega
  cases hsplit : g.ruleIndex.split? chart (g.numberOf name) span start with
  | none => simp [RuleIndex.build, hne, hsplit] at h
  | some found =>
    obtain ⟨b, k⟩ := found
    rw [RuleIndex.build_of_split? hne hsplit, getD_nonterminals_numberOf hname] at h
    obtain ⟨⟨left, leftSteps⟩, hleft, h⟩ := Option.bind_eq_some_iff.mp h
    obtain ⟨⟨right, rightSteps⟩, hright, h⟩ := Option.map_eq_some_iff.mp h
    obtain ⟨rfl, rfl⟩ := Prod.mk.inj h
    exact ⟨b, k, rfl, left, leftSteps, right, rightSteps, hleft, hright, rfl, rfl⟩

theorem of_build_eq_some_of_two_le {chart : RuleIndex.Chart} {w : Word} {height span start : Nat}
    {name : String} (hname : name ∈ g.nonterminals) (hspan : 2 ≤ span) {t : Tree}
    {steps : List Production}
    (h : g.ruleIndex.build chart w (height + 1) (g.numberOf name) span start = some (t, steps)) :
    ∃ k, 1 ≤ k ∧ k < span ∧ ∃ p ∈ g.productions, p.head = name ∧ ∃ b c,
      p.body = [.nonterminal b, .nonterminal c] ∧ ∃ left leftSteps right rightSteps,
        g.ruleIndex.build chart w height (g.numberOf b) k start = some (left, leftSteps) ∧
        g.ruleIndex.build chart w height (g.numberOf c) (span - k) (start + k) =
          some (right, rightSteps) ∧
        t = .branch name [left, right] ∧ steps = p :: leftSteps ++ rightSteps := by
  obtain ⟨rule, k, hsplit, left, leftSteps, right, rightSteps, hleft, hright, rfl, rfl⟩ :=
    exists_split?_of_build hname hspan h
  obtain ⟨hrule, hhead, hpos, hlt, -, -⟩ := RuleIndex.of_split?_eq_some hsplit
  obtain ⟨p, hp, b, c, hbody, rfl⟩ := mem_binaries_iff.mp hrule
  exact ⟨k, hpos, hlt, p, hp, numberOf_inj (head_mem_nonterminals hp) hhead, b, c, hbody,
    left, leftSteps, right, rightSteps, hleft, hright, rfl, rfl⟩

/-- What is built for a nonterminal over a stretch is a tree of the grammar over the stretch, with
its productions in preorder, of which there is one less than twice the characters. -/
theorem of_build_eq_some {chart : RuleIndex.Chart} {w : Word} {height span start : Nat}
    {name : String} (hname : name ∈ g.nonterminals) (hpos : 1 ≤ span) {t : Tree}
    {steps : List Production}
    (h : g.ruleIndex.build chart w height (g.numberOf name) span start = some (t, steps)) :
    g.Explains t (.nonterminal name) steps ∧ t.leaves.toList = w.stretch start span ∧
      steps.length + 1 = 2 * span := by
  induction height generalizing name span start t steps with
  | zero => simp [RuleIndex.build] at h
  | succ height ih =>
    rcases (by omega : span = 1 ∨ 2 ≤ span) with rfl | hspan
    · obtain ⟨c, hc, p, hp, rfl, hbody, rfl, rfl⟩ := of_build_one_eq_some hname h
      refine ⟨explains_of_terminal hp hbody, ?_, rfl⟩
      rw [Word.stretch_one hc]
      simp [Tree.branch, Tree.leaf, Tree.leaves, Tree.leavesOfAll]
    · obtain ⟨k, hk, hlt, p, hp, rfl, b, c, hbody, left, leftSteps, right, rightSteps, hleft,
        hright, rfl, rfl⟩ := of_build_eq_some_of_two_le hname hspan h
      -- both parts are shorter, and their nonterminals stand in a body
      have hb : b ∈ g.nonterminals := body_mem_nonterminals hp (by simp [hbody])
      have hc : c ∈ g.nonterminals := body_mem_nonterminals hp (by simp [hbody])
      obtain ⟨hl, hlleaves, hllength⟩ := ih hb hk hleft
      obtain ⟨hr, hrleaves, hrlength⟩ := ih hc (by omega) hright
      refine ⟨explains_of_pair hp hbody hl hr, ?_, ?_⟩
      · rw [Word.stretch_split (Nat.le_of_lt hlt), ← hlleaves, ← hrleaves]
        simp [Tree.branch, Tree.leaves, Tree.leavesOfAll]
      · rw [List.cons_append, List.length_cons, List.length_append]
        omega

/-! ## Explanations -/

theorem RuleIndex.isSome_parse (r : RuleIndex) (w : Word) : (r.parse w).isSome = r.accepts w := by
  rw [accepts]
  split
  · next hw => simp [parse, hw, parseEmpty]
  · next hw =>
    have hne : w ≠ [] := fun hnil => hw (List.isEmpty_iff.mpr hnil)
    rw [Bool.eq_iff_iff, isSome_parse_of_ne_nil hne, List.contains_iff_mem]

/-- The empty word is explained by a single node and a single step. -/
theorem of_parseEmpty_eq_some {e : Explanation} (h : g.ruleIndex.parseEmpty = some e) :
    g.Explains e.tree (.nonterminal g.start) e.derivation.steps ∧ e.tree.leaves.toList = [] ∧
      e.derivation.start = g.start ∧ e.derivation.steps.length = 1 := by
  obtain ⟨p, hp, rfl⟩ := Option.map_eq_some_iff.mp h
  have hfits := List.find?_some hp
  rw [Bool.and_eq_true, List.isEmpty_iff, decide_eq_true_eq] at hfits
  obtain ⟨hbody, hhead⟩ := hfits
  have hstart : g.ruleIndex.startName = p.head := hhead.symm
  refine ⟨?_, by simp [Tree.branch, Tree.leaves, Tree.leavesOfAll], rfl, rfl⟩
  rw [hstart, ← hhead]
  exact explains_of_empty (List.mem_of_find?_eq_some hp) hbody

/-- Any other word is explained by what is built for the start symbol over all of it. -/
theorem build_of_parse_eq_some {w : Word} (hw : w ≠ []) {e : Explanation}
    (h : g.ruleIndex.parse w = some e) :
    g.ruleIndex.build (g.ruleIndex.chart w) w w.length (g.numberOf g.start) w.length 0 =
        some (e.tree, e.derivation.steps) ∧ e.derivation.start = g.start := by
  rw [RuleIndex.parse, if_neg (by simpa using hw)] at h
  dsimp only at h
  split at h
  · obtain ⟨⟨t, steps⟩, hbuild, rfl⟩ := Option.map_eq_some_iff.mp h
    have hzero : g.numberOf g.start = 0 := numberOf_eq_of_getElem? getElem?_nonterminals_zero
    exact ⟨by rwa [hzero], rfl⟩
  · cases h

theorem of_parse_eq_some_of_ne_nil {w : Word} (hw : w ≠ []) {e : Explanation}
    (h : g.ruleIndex.parse w = some e) :
    g.Explains e.tree (.nonterminal g.start) e.derivation.steps ∧ e.tree.leaves.toList = w ∧
      e.derivation.start = g.start ∧ e.derivation.steps.length + 1 = 2 * w.length := by
  obtain ⟨hbuild, hstart⟩ := build_of_parse_eq_some hw h
  obtain ⟨hexplains, hleaves, hlength⟩ :=
    of_build_eq_some g.start_mem_nonterminals (List.length_pos_iff.mpr hw) hbuild
  rw [Word.stretch_zero_length] at hleaves
  exact ⟨hexplains, hleaves, hstart, hlength⟩

theorem of_parse_eq_some {w : Word} {e : Explanation} (h : g.ruleIndex.parse w = some e) :
    g.Explains e.tree (.nonterminal g.start) e.derivation.steps ∧ e.tree.leaves.toList = w ∧
      e.derivation.start = g.start ∧
        e.derivation.steps.length = if w = [] then 1 else 2 * w.length - 1 := by
  by_cases hw : w = []
  · subst hw
    exact of_parseEmpty_eq_some h
  · obtain ⟨hexplains, hleaves, hstart, hlength⟩ := of_parse_eq_some_of_ne_nil hw h
    exact ⟨hexplains, hleaves, hstart, by rw [if_neg hw]; omega⟩

/-- The derivation that belongs to a tree over a word is leftmost and leads from the start symbol to
the word. -/
theorem Explains.isLeftmost {t : Tree} {d : Derivation} {w : Word}
    (h : g.Explains t (.nonterminal d.start) d.steps) (hleaves : t.leaves.toList = w) :
    d.IsLeftmost ∧ d.forms.length = d.steps.length + 1 ∧
      d.forms.head? = some [.nonterminal d.start] ∧ d.forms.getLast? = some w.form := by
  have hderives : g.LeftmostDerives [.nonterminal d.start] d.steps w.form := by
    simpa [hleaves] using h.leftmostDerives [] []
  exact ⟨fun i p hp => hderives.getElem?_formsFrom hp, hderives.length_formsFrom,
    head?_formsFrom _ _, hderives.getLast?_formsFrom⟩

/-- **Every acceptance is explained.** A word that the chart of a grammar does not accept has no
explanation. A word that it accepts has a tree of the grammar, whose root is the start symbol and
whose leaves are the word, and a leftmost derivation, which leads from the start symbol to the word
by the productions of the tree in preorder. The derivation has one step for the empty word, and for
any other one step less than twice its characters. -/
theorem parse_explains_acceptance {r : RuleIndex} (h : g.indexed = .ok r) (w : Word) :
    (r.accepts w = false → r.parse w = none) ∧
      (r.accepts w = true → ∃ e, r.parse w = some e ∧
        (g.Explains e.tree (.nonterminal g.start) e.derivation.steps ∧
          e.tree.leaves.toList = w) ∧
        (e.derivation.IsLeftmost ∧ e.derivation.forms.length = e.derivation.steps.length + 1 ∧
          e.derivation.forms.head? = some [.nonterminal g.start] ∧
            e.derivation.forms.getLast? = some w.form) ∧
        e.derivation.start = g.start ∧
          e.derivation.steps.length = if w = [] then 1 else 2 * w.length - 1) := by
  obtain ⟨-, rfl⟩ := indexed_eq_ok_iff.mp h
  constructor
  · intro hw
    rwa [← RuleIndex.isSome_parse, Option.isSome_eq_false_iff, Option.isNone_iff_eq_none] at hw
  · intro hw
    obtain ⟨e, he⟩ := Option.isSome_iff_exists.mp ((RuleIndex.isSome_parse _ w).trans hw)
    obtain ⟨hexplains, hleaves, hstart, hlength⟩ := of_parse_eq_some he
    rw [← hstart] at hexplains ⊢
    exact ⟨e, he, ⟨hexplains, hleaves⟩, hexplains.isLeftmost hleaves, rfl, hlength⟩

end

theorem nested_explains : nested.indexed = .ok nested.ruleIndex ∧
    (∃ e, nested.ruleIndex.parse ['a', 'a', 'b', 'b'] = some e ∧
      e.tree.leaves.toList = ['a', 'a', 'b', 'b'] ∧ e.derivation.IsLeftmost ∧
        e.derivation.steps.length = 7) ∧
    nested.ruleIndex.parse ['a', 'b', 'b'] = none := by
  have h : nested.indexed = .ok nested.ruleIndex := rfl
  refine ⟨h, ?_, (parse_explains_acceptance h _).1 (by decide +kernel)⟩
  obtain ⟨e, he, ⟨-, hleaves⟩, ⟨hleftmost, -⟩, -, hlength⟩ :=
    (parse_explains_acceptance h ['a', 'a', 'b', 'b']).2 (by decide +kernel)
  exact ⟨e, he, hleaves, hleftmost, hlength⟩

end Grammar

end Acceptors
