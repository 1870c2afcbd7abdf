import Acceptors.Grammar.Tree

/-!
# Derivability

A step replaces a nonterminal, at any place of a sentential form, by the body of one of its
productions. A grammar generates the words whose terminals can be derived from its start symbol.

## Main definitions

* `Grammar.Yields`, `Grammar.Derives`: one step, and any number of them
* `Grammar.Generates`: the words of a grammar
* `Grammar.Explains`: a tree with a symbol at its root and its productions in preorder

## Main results

* `Derives.trans`, `Derives.append`: derivations one after the other and side by side
* `derives_append_iff`: what two forms side by side derive, each derives a part of
* `Explains.derives`: the root of a tree derives the leaves
-/

namespace Acceptors

/-- The terminals of a word. -/
def Word.form (w : Word) : List GrammarSymbol := w.map .terminal

namespace Word

@[simp] theorem form_nil : Word.form [] = [] := rfl

@[simp] theorem form_append (u v : Word) : Word.form (u ++ v) = Word.form u ++ Word.form v :=
  List.map_append

theorem form_injective {u v : Word} (h : Word.form u = Word.form v) : u = v :=
  List.map_inj_right (fun _ _ e => GrammarSymbol.terminal.inj e) |>.mp h

end Word

namespace Grammar

section

variable (g : Grammar)

/-- A step replaces one nonterminal by a body. -/
inductive Yields : List GrammarSymbol → List GrammarSymbol → Prop where
  | step {p : Production} (mem : p ∈ g.productions) (before after : List GrammarSymbol) :
    Yields (before ++ .nonterminal p.head :: after) (before ++ p.body ++ after)

/-- Any number of steps. -/
inductive Derives : List GrammarSymbol → List GrammarSymbol → Prop where
  | refl (form : List GrammarSymbol) : Derives form form
  | head {a b c : List GrammarSymbol} (first : g.Yields a b) (rest : Derives b c) : Derives a c

/-- The words of the grammar. -/
def Generates (w : Word) : Prop := g.Derives [.nonterminal g.start] (Word.form w)

end

/-! ## Derivations one after the other and side by side -/

section

variable {g : Grammar} {a b c d : List GrammarSymbol}

theorem Yields.derives (h : g.Yields a b) : g.Derives a b := .head h (.refl b)

theorem Derives.trans (h : g.Derives a b) (k : g.Derives b c) : g.Derives a c := by
  induction h with
  | refl => exact k
  | head first _ ih => exact .head first (ih k)

theorem Yields.append_left (h : g.Yields a b) (l : List GrammarSymbol) :
    g.Yields (l ++ a) (l ++ b) := by
  obtain ⟨mem, before, after⟩ := h
  simpa only [List.append_assoc] using Yields.step mem (l ++ before) after

theorem Yields.append_right (h : g.Yields a b) (l : List GrammarSymbol) :
    g.Yields (a ++ l) (b ++ l) := by
  obtain ⟨mem, before, after⟩ := h
  simpa only [List.append_assoc, List.cons_append] using Yields.step mem before (after ++ l)

theorem Derives.append_left (h : g.Derives a b) (l : List GrammarSymbol) :
    g.Derives (l ++ a) (l ++ b) := by
  induction h with
  | refl => exact .refl _
  | head first _ ih => exact .head (first.append_left l) ih

theorem Derives.append_right (h : g.Derives a b) (l : List GrammarSymbol) :
    g.Derives (a ++ l) (b ++ l) := by
  induction h with
  | refl => exact .refl _
  | head first _ ih => exact .head (first.append_right l) ih

theorem Derives.append (h : g.Derives a b) (k : g.Derives c d) :
    g.Derives (a ++ c) (b ++ d) :=
  (h.append_right c).trans (k.append_left b)

theorem derives_body {p : Production} (mem : p ∈ g.productions) :
    g.Derives [.nonterminal p.head] p.body := by
  simpa using (Yields.step mem [] []).derives

/-- A step in two forms side by side is a step in one of them. -/
theorem yields_append {f : List GrammarSymbol} (h : g.Yields (a ++ b) f) :
    (∃ a', g.Yields a a' ∧ f = a' ++ b) ∨ ∃ b', g.Yields b b' ∧ f = a ++ b' := by
  generalize hab : a ++ b = e at h
  obtain ⟨mem, before, after⟩ := h
  rcases List.append_eq_append_iff.mp hab with ⟨l, rfl, rfl⟩ | ⟨l, rfl, hl⟩
  -- the nonterminal stands in `b`, behind some of its symbols
  · exact .inr ⟨_, .step mem l after, by simp⟩
  · cases l with
    | nil =>
      obtain rfl : _ = b := by simpa using hl
      -- `a` ends where the nonterminal stands, so it is the first symbol of `b`
      exact .inr ⟨_, .step mem [] after, by simp⟩
    | cons x l =>
      obtain ⟨rfl, rfl⟩ := List.cons.inj hl
      -- the nonterminal stands in `a`
      exact .inl ⟨_, .step mem before l, by simp⟩

/-- What two forms side by side derive, each derives a part of. -/
theorem derives_append_iff {f : List GrammarSymbol} :
    g.Derives (a ++ b) f ↔ ∃ a' b', g.Derives a a' ∧ g.Derives b b' ∧ f = a' ++ b' := by
  constructor
  · intro h
    generalize hab : a ++ b = e at h
    induction h generalizing a b with
    | refl => exact ⟨a, b, .refl a, .refl b, hab.symm⟩
    | head first _ ih =>
      subst hab
      rcases yields_append first with ⟨a₁, ha, rfl⟩ | ⟨b₁, hb, rfl⟩
      · obtain ⟨a', b', ha', hb', rfl⟩ := ih rfl
        exact ⟨a', b', .head ha ha', hb', rfl⟩
      · obtain ⟨a', b', ha', hb', rfl⟩ := ih rfl
        exact ⟨a', b', ha', .head hb hb', rfl⟩
  · rintro ⟨a', b', ha, hb, rfl⟩
    exact ha.append hb

/-- Terminals are never replaced. -/
theorem not_yields_form {w : Word} {f : List GrammarSymbol} : ¬ g.Yields (Word.form w) f := by
  intro h
  generalize hw : Word.form w = e at h
  obtain ⟨mem, before, after⟩ := h
  have : GrammarSymbol.nonterminal _ ∈ Word.form w := hw ▸ List.mem_append_right before (.head after)
  obtain ⟨c, -, hc⟩ := List.mem_map.mp this
  cases hc

theorem derives_form_iff {w : Word} {f : List GrammarSymbol} :
    g.Derives (Word.form w) f ↔ f = Word.form w := by
  constructor
  · intro h
    generalize hw : Word.form w = e at h
    cases h with
    | refl => rfl
    | head first _ => exact absurd (hw ▸ first) not_yields_form
  · rintro rfl
    exact .refl _

end

/-! ## Trees of a grammar -/

section

variable (g : Grammar)

mutual

/-- A tree of the grammar: its root stands for a symbol, and its productions are listed in
preorder. -/
inductive Explains : Tree → GrammarSymbol → List Production → Prop where
  | leaf (c : Char) : Explains (.leaf c) (.terminal c) []
  | branch {p : Production} {children : List Tree} {steps : List Production}
    (mem : p ∈ g.productions) (below : ExplainsAll children p.body steps) :
    Explains (.branch p.head children) (.nonterminal p.head) (p :: steps)

/-- Several trees of the grammar, each with its symbol at its root. -/
inductive ExplainsAll : List Tree → List GrammarSymbol → List Production → Prop where
  | nil : ExplainsAll [] [] []
  | cons {t : Tree} {s : GrammarSymbol} {steps : List Production} {ts : List Tree}
    {symbols : List GrammarSymbol} {others : List Production}
    (first : Explains t s steps) (rest : ExplainsAll ts symbols others) :
    ExplainsAll (t :: ts) (s :: symbols) (steps ++ others)

end

end

section

variable {g : Grammar}

mutual

/-- The root of a tree derives the leaves. -/
theorem Explains.derives {t : Tree} {s : GrammarSymbol} {steps : List Production} :
    g.Explains t s steps → g.Derives [s] (Word.form t.leaves.toList)
  | .leaf c => by simpa [Tree.leaf, Tree.leaves, Word.form] using Derives.refl [.terminal c]
  | .branch mem below => by
    simpa [Tree.branch, Tree.leaves] using (derives_body mem).trans below.derives

theorem ExplainsAll.derives {ts : List Tree} {symbols : List GrammarSymbol}
    {steps : List Production} :
    g.ExplainsAll ts symbols steps → g.Derives symbols (Word.form (Tree.leavesOfAll ts).toList)
  | .nil => by simpa [Tree.leavesOfAll] using Derives.refl []
  | .cons first rest => by
    simpa [Tree.leavesOfAll] using first.derives.append rest.derives

end

end

end Grammar

end Acceptors
