import Acceptors.Proofs.Description.Identifiers
import Acceptors.Proofs.Grammar.Explanation

/-!
# Trees in brackets

A tree is shown in brackets, and a leaf shows its character as it is, even if that is a bracket or a
blank. The text can be read in one way only. What follows an opening bracket is a leaf if the second
character behind it is a closing bracket: a label holds none, and a node with something below it has
a blank behind its label.

The root of the tree of the empty word is a node with nothing below it. It is told from other trees
by its label, which is the start symbol.

## Main definitions

* `Tree.IsPlainLabel`: no blank and no closing bracket
* `Tree.IsFull`: every node that is no leaf has something below it

## Main results

* `IsFull.eq_of_text_append`: the text of a tree ends where the tree does
* `eq_of_text_branch`: the trees below a root with a given label
* `IsNormal.exists_branch`: the trees of a grammar in normal form
* `IsNormal.eq_of_text_eq`: two words that are explained by one text
-/

namespace Acceptors

namespace Tree

/-- No character of the label ends it or the node. -/
def IsPlainLabel (label : String) : Prop :=
  label ≠ "" ∧ ∀ c ∈ label.toList, c ≠ ' ' ∧ c ≠ ']'

/-- Every node that is no leaf has a plain label and something below it. -/
inductive IsFull : Tree → Prop where
  | leaf (c : Char) : IsFull (.leaf c)
  | node {label : String} {children : List Tree} (plain : IsPlainLabel label)
    (ne : children ≠ []) (below : ∀ t ∈ children, IsFull t) : IsFull (.node label false children)

/-! ## Characters of texts -/

theorem toList_text_leaf (c : Char) : (leaf c).text.toList = ['[', c, ']'] := by
  simp [leaf, text, textOfAll]

theorem toList_text_node (label : String) (terminal : Bool) (children : List Tree) :
    (node label terminal children).text.toList =
      '[' :: (label.toList ++ (textOfAll children).toList ++ [']']) := by
  simp [text]

@[simp] theorem toList_textOfAll_nil : (textOfAll []).toList = [] := by simp [textOfAll]

@[simp] theorem toList_textOfAll_cons (t : Tree) (ts : List Tree) :
    (textOfAll (t :: ts)).toList = ' ' :: (t.text.toList ++ (textOfAll ts).toList) := by
  simp [textOfAll]

/-- A blank stands behind the label of a node with something below it. -/
theorem exists_textOfAll_eq {ts : List Tree} (h : ts ≠ []) :
    ∃ l, (textOfAll ts).toList = ' ' :: l := by
  cases ts with
  | nil => exact absurd rfl h
  | cons t ts => exact ⟨_, toList_textOfAll_cons t ts⟩

section

variable {label label' : String} {children children' : List Tree} {x y : List Char}

/-! ## Leaves and nodes -/

/-- No node begins like a leaf: its second character, or its third, is part of its label or the
blank behind it. -/
theorem text_leaf_ne_text_node (hlabel : IsPlainLabel label) (hne : children ≠ []) (c : Char) :
    (leaf c).text.toList ++ x ≠ (node label false children).text.toList ++ y := by
  intro h
  obtain ⟨l, hl⟩ := exists_textOfAll_eq hne
  rw [toList_text_leaf, toList_text_node, hl] at h
  cases hchars : label.toList with
  | nil => exact hlabel.1 (String.toList_eq_nil_iff.mp hchars)
  | cons d rest =>
    rw [hchars] at h
    -- both texts start with a bracket and one more character
    have hthird := (List.cons.inj (List.cons.inj h).2).2
    cases rest with
    | nil =>
      have hblank : (']' : Char) = ' ' := (List.cons.inj hthird).1
      exact absurd hblank (by decide)
    | cons b rest =>
      have hbracket : ']' = b := (List.cons.inj hthird).1
      exact (hlabel.2 b (by simp [hchars])).2 hbracket.symm

/-- Two plain labels with a blank behind them end in one place. -/
theorem label_eq_of_append_eq (hlabel : IsPlainLabel label) (hlabel' : IsPlainLabel label')
    (h : label.toList ++ ' ' :: x = label'.toList ++ ' ' :: y) : label = label' := by
  have hchars : ∀ {l : String}, IsPlainLabel l → ∀ c ∈ l.toList, decide (c ≠ ' ') = true :=
    fun hl c hc => decide_eq_true (hl.2 c hc).1
  have hends : ∀ l : List Char, ∀ c ∈ (' ' :: l).head?, decide (c ≠ ' ') = false := by
    rintro l _ ⟨⟩
    rfl
  exact String.toList_inj.mp <| Description.Token.eq_of_append_eq (hchars hlabel) (hchars hlabel')
    (hends x) (hends y) h

/-! ## Reading back -/

/-- The texts of several trees end where the closing bracket of their node stands. -/
theorem eq_of_textOfAll_append
    (hread : ∀ t ∈ children, ∀ u, IsFull u → ∀ x y : List Char,
      t.text.toList ++ x = u.text.toList ++ y → t = u ∧ x = y)
    (hchildren' : ∀ t ∈ children', IsFull t)
    (h : (textOfAll children).toList ++ ']' :: x = (textOfAll children').toList ++ ']' :: y) :
    children = children' ∧ x = y := by
  have hblank : (' ' : Char) ≠ ']' := by decide
  induction children generalizing children' with
  | nil =>
    cases children' with
    | nil => exact ⟨rfl, (List.cons.inj h).2⟩
    | cons u us =>
      rw [toList_textOfAll_nil, toList_textOfAll_cons] at h
      exact absurd (List.cons.inj h).1.symm hblank
  | cons t ts ih =>
    cases children' with
    | nil =>
      rw [toList_textOfAll_nil, toList_textOfAll_cons] at h
      exact absurd (List.cons.inj h).1 hblank
    | cons u us =>
      obtain ⟨hu, hus⟩ := List.forall_mem_cons.mp hchildren'
      rw [toList_textOfAll_cons, toList_textOfAll_cons, List.cons_append, List.cons_append,
        List.append_assoc, List.append_assoc] at h
      -- the first trees end in one place, and the others are read from there
      obtain ⟨rfl, hrest⟩ := hread t List.mem_cons_self u hu _ _ (List.cons.inj h).2
      obtain ⟨rfl, rfl⟩ := ih (fun t' ht' => hread t' (List.mem_cons_of_mem t ht')) hus hrest
      exact ⟨rfl, rfl⟩

/-- The text of a tree is read in one way, and ends where the tree does. -/
theorem IsFull.eq_of_text_append {t u : Tree} (ht : t.IsFull) (hu : u.IsFull)
    (h : t.text.toList ++ x = u.text.toList ++ y) : t = u ∧ x = y := by
  induction ht generalizing u x y with
  | leaf c =>
    cases hu with
    | leaf d =>
      rw [toList_text_leaf, toList_text_leaf] at h
      obtain ⟨-, h⟩ := List.cons.inj h
      obtain ⟨rfl, h⟩ := List.cons.inj h
      exact ⟨rfl, List.append_cancel_left h⟩
    | node hlabel hne _ => exact absurd h (text_leaf_ne_text_node hlabel hne c)
  | node hlabel hne _ ih =>
    cases hu with
    | leaf d => exact absurd h.symm (text_leaf_ne_text_node hlabel hne d)
    | @node label' children' hlabel' hne' hbelow' =>
      obtain ⟨l, hl⟩ := exists_textOfAll_eq hne
      obtain ⟨l', hl'⟩ := exists_textOfAll_eq hne'
      simp only [toList_text_node, List.cons_append, List.append_assoc] at h
      obtain ⟨-, h⟩ := List.cons.inj h
      obtain rfl := label_eq_of_append_eq hlabel hlabel'
        (by rwa [hl, hl', List.cons_append, List.cons_append] at h)
      obtain ⟨rfl, rfl⟩ := eq_of_textOfAll_append (fun t ht u hu x y => ih t ht hu) hbelow'
        (List.append_cancel_left h)
      exact ⟨rfl, rfl⟩

/-- The trees below a root with a given label are told from the text, even if there are none. -/
theorem eq_of_text_branch (hchildren : ∀ t ∈ children, IsFull t)
    (hchildren' : ∀ t ∈ children', IsFull t)
    (h : (node label false children).text = (node label false children').text) :
    children = children' := by
  have hchars := congrArg String.toList h
  simp only [toList_text_node, List.append_assoc] at hchars
  obtain ⟨-, hchars⟩ := List.cons.inj hchars
  exact (eq_of_textOfAll_append (fun t ht u hu _ _ => (hchildren t ht).eq_of_text_append hu)
    hchildren' (List.append_cancel_left hchars)).1

end

end Tree

/-! ## Trees of a grammar -/

namespace Grammar

section

variable {g : Grammar}

/-- The names of a grammar are shown as plain labels. -/
def HasPlainLabels (g : Grammar) : Prop :=
  ∀ p ∈ g.productions, Tree.IsPlainLabel (displayLabel p.head)

mutual

/-- Below a symbol that stands in a body there is a full tree: its body is not empty. -/
theorem IsNormal.isFull (h : g.IsNormal) (hplain : g.HasPlainLabels) {t : Tree}
    {s : GrammarSymbol} {steps : List Production} :
    g.Explains t s steps → (∃ q ∈ g.productions, s ∈ q.body) → t.IsFull
  | .leaf c, _ => .leaf c
  | @Explains.branch _ p children _ mem below, ⟨q, hq, hs⟩ => by
    refine .node (hplain p mem) ?_
      (h.forall_isFull hplain below fun s hs => ⟨p, mem, hs⟩)
    rintro rfl
    have hbody : p.body = [] := by
      cases hp : p.body with
      | nil => rfl
      | cons s body =>
        rw [hp] at below
        cases below
    -- an empty body belongs to the start symbol, which then stands in no body
    have hhead : p.head = g.start := h.head_of_empty p mem hbody
    exact h.start_notMem p mem hbody q hq (hhead ▸ hs)

theorem IsNormal.forall_isFull (h : g.IsNormal) (hplain : g.HasPlainLabels) {ts : List Tree}
    {symbols : List GrammarSymbol} {steps : List Production} :
    g.ExplainsAll ts symbols steps → (∀ s ∈ symbols, ∃ q ∈ g.productions, s ∈ q.body) →
      ∀ t ∈ ts, t.IsFull
  | .nil, _ => fun _ ht => nomatch ht
  | .cons first rest, hsymbols => by
    obtain ⟨hfirst, hrest⟩ := List.forall_mem_cons.mp hsymbols
    exact List.forall_mem_cons.mpr
      ⟨h.isFull hplain first hfirst, h.forall_isFull hplain rest hrest⟩

end

/-- A tree of the grammar has the start symbol at its root and full trees below it. -/
theorem IsNormal.exists_branch (h : g.IsNormal) (hplain : g.HasPlainLabels) {t : Tree}
    {steps : List Production} (ht : g.Explains t (.nonterminal g.start) steps) :
    ∃ children, t = .branch g.start children ∧ ∀ u ∈ children, u.IsFull := by
  generalize hs : GrammarSymbol.nonterminal g.start = s at ht
  cases ht with
  | leaf c => cases hs
  | @branch p children _ mem below =>
    have hhead : g.start = p.head := GrammarSymbol.nonterminal.inj hs
    exact ⟨children, by rw [hhead], h.forall_isFull hplain below fun s hs => ⟨p, mem, hs⟩⟩

/-- Two words whose trees are shown alike are one word with one explanation. -/
theorem IsNormal.eq_of_text_eq (h : g.IsNormal) (hplain : g.HasPlainLabels) {w w' : Word}
    {e e' : Explanation} (he : g.ruleIndex.parse w = some e) (he' : g.ruleIndex.parse w' = some e')
    (htext : e.tree.text = e'.tree.text) : e = e' ∧ w = w' := by
  obtain ⟨hexplains, hleaves, -⟩ := of_parse_eq_some he
  obtain ⟨hexplains', hleaves', -⟩ := of_parse_eq_some he'
  obtain ⟨children, htree, hfull⟩ := h.exists_branch hplain hexplains
  obtain ⟨children', htree', hfull'⟩ := h.exists_branch hplain hexplains'
  rw [htree, htree'] at htext
  have hchildren : children = children' := Tree.eq_of_text_branch hfull hfull' htext
  have hword : w = w' := by rw [← hleaves, ← hleaves', htree, htree', hchildren]
  -- the explanation of a word is found by a function of the word
  rw [hword, he'] at he
  exact ⟨(Option.some.inj he).symm, hword⟩

end

end Grammar

end Acceptors
