import Acceptors.Grammar.Derives

/-!
# Leftmost derivations

The productions of a tree, in preorder, derive its leaves from its root, each replacing the leftmost
nonterminal of the form that the ones before have left: what stands to the left of a subtree is
derived before, and what stands to the right of it waits. A derivation lists its productions only,
and its forms are found by replacing whatever nonterminal is leftmost. So for the productions of a
tree no step is passed over, and every nonterminal that is replaced is the head of its production.

## Main definitions

* `Grammar.LeftmostDerives`: productions that replace the leftmost nonterminal in turn
* `Derivation.IsLeftmost`: each step replaces the leftmost nonterminal, the head of its production

## Main results

* `Explains.leftmostDerives`: the productions of a tree derive its leaves
* `LeftmostDerives.length_formsFrom`, `LeftmostDerives.getLast?_formsFrom`,
  `LeftmostDerives.getElem?_formsFrom`: the forms of a leftmost derivation
-/

namespace Acceptors

/-- Each step leads from one form to the next by replacing the leftmost nonterminal, which is the
head of the production of the step. -/
def Derivation.IsLeftmost (d : Derivation) : Prop :=
  ∀ i p, d.steps[i]? = some p → ∃ (before : Word) (after : List GrammarSymbol),
    d.forms[i]? = some (before.form ++ .nonterminal p.head :: after) ∧
      d.forms[i + 1]? = some (before.form ++ p.body ++ after)

namespace Grammar

section

variable (g : Grammar)

/-- The productions replace the leftmost nonterminal in turn and lead from one form to another. -/
inductive LeftmostDerives : List GrammarSymbol → List Production → List GrammarSymbol → Prop where
  | refl (form : List GrammarSymbol) : LeftmostDerives form [] form
  | head {p : Production} {after form : List GrammarSymbol} {steps : List Production}
    (mem : p ∈ g.productions) (before : Word)
    (rest : LeftmostDerives (before.form ++ p.body ++ after) steps form) :
    LeftmostDerives (before.form ++ .nonterminal p.head :: after) (p :: steps) form

end

section

variable {g : Grammar} {a b c : List GrammarSymbol} {steps others : List Production}

/-! ## Trees -/

theorem LeftmostDerives.trans (h : g.LeftmostDerives a steps b)
    (k : g.LeftmostDerives b others c) : g.LeftmostDerives a (steps ++ others) c := by
  induction h with
  | refl => exact k
  | head mem before _ ih => exact .head mem before (ih k)

mutual

/-- The productions of a tree derive its leaves from its root, behind terminals that are there
already and in front of symbols that wait. -/
theorem Explains.leftmostDerives {t : Tree} {s : GrammarSymbol} {steps : List Production}
    (before : Word) (after : List GrammarSymbol) :
    g.Explains t s steps → g.LeftmostDerives (before.form ++ s :: after) steps
      (Word.form (before ++ t.leaves.toList) ++ after)
  | .leaf c => by
    simpa [Tree.leaf, Tree.leaves, Word.form] using
      LeftmostDerives.refl (before.form ++ .terminal c :: after)
  | .branch mem below => by
    simpa [Tree.branch, Tree.leaves] using
      LeftmostDerives.head mem before (below.leftmostDerives before after)

theorem ExplainsAll.leftmostDerives {ts : List Tree} {symbols : List GrammarSymbol}
    {steps : List Production} (before : Word) (after : List GrammarSymbol) :
    g.ExplainsAll ts symbols steps → g.LeftmostDerives (before.form ++ symbols ++ after) steps
      (Word.form (before ++ (Tree.leavesOfAll ts).toList) ++ after)
  | .nil => by simpa [Tree.leavesOfAll] using LeftmostDerives.refl (before.form ++ after)
  | @ExplainsAll.cons _ t _ _ _ waiting _ first rest => by
    -- the first tree is derived while the symbols of the others wait
    have hfirst := first.leftmostDerives before (waiting ++ after)
    have hrest := rest.leftmostDerives (before ++ t.leaves.toList) after
    rw [List.append_assoc] at hrest
    simpa [Tree.leavesOfAll] using hfirst.trans hrest

end

/-! ## Forms -/

theorem replaceLeftmost_form_append (before : Word) (body : List GrammarSymbol) (name : String)
    (after : List GrammarSymbol) :
    replaceLeftmost body (before.form ++ .nonterminal name :: after) =
      some (before.form ++ body ++ after) := by
  induction before with
  | nil => rfl
  | cons c before ih =>
    change (replaceLeftmost body (Word.form before ++ .nonterminal name :: after)).map _ = _
    rw [ih]
    rfl

theorem formsFrom_cons (before : Word) (p : Production) (after : List GrammarSymbol)
    (steps : List Production) :
    Derivation.formsFrom (before.form ++ .nonterminal p.head :: after) (p :: steps) =
      (before.form ++ .nonterminal p.head :: after) ::
        Derivation.formsFrom (before.form ++ p.body ++ after) steps := by
  rw [Derivation.formsFrom, replaceLeftmost_form_append]

theorem head?_formsFrom (form : List GrammarSymbol) (steps : List Production) :
    (Derivation.formsFrom form steps).head? = some form := by
  induction steps with
  | nil => rfl
  | cons p steps ih =>
    rw [Derivation.formsFrom]
    cases replaceLeftmost p.body form with
    | none => exact ih
    | some next => rfl

theorem LeftmostDerives.length_formsFrom (h : g.LeftmostDerives a steps b) :
    (Derivation.formsFrom a steps).length = steps.length + 1 := by
  induction h with
  | refl => rfl
  | head mem before _ ih => rw [formsFrom_cons, List.length_cons, List.length_cons, ih]

theorem LeftmostDerives.getLast?_formsFrom (h : g.LeftmostDerives a steps b) :
    (Derivation.formsFrom a steps).getLast? = some b := by
  induction h with
  | refl => rfl
  | head mem before _ ih => rw [formsFrom_cons, List.getLast?_cons, ih, Option.getD_some]

/-- A step leads from its form to the next one. -/
theorem LeftmostDerives.getElem?_formsFrom (h : g.LeftmostDerives a steps b) {i : Nat}
    {p : Production} (hp : steps[i]? = some p) :
    ∃ (before : Word) (after : List GrammarSymbol),
      (Derivation.formsFrom a steps)[i]? = some (before.form ++ .nonterminal p.head :: after) ∧
        (Derivation.formsFrom a steps)[i + 1]? = some (before.form ++ p.body ++ after) := by
  induction h generalizing i with
  | refl => simp at hp
  | @head q after form steps mem before rest ih =>
    rw [formsFrom_cons]
    cases i with
    | zero =>
      obtain rfl : q = p := by simpa using hp
      refine ⟨before, after, rfl, ?_⟩
      rw [List.getElem?_cons_succ, ← List.head?_eq_getElem?, head?_formsFrom]
    | succ i =>
      rw [List.getElem?_cons_succ, List.getElem?_cons_succ]
      exact ih (by simpa using hp)

end

end Grammar

end Acceptors
