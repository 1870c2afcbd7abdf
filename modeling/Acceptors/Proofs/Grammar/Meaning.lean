import Acceptors.Proofs.Grammar.NormalForm

/-!
# Meanings of nonterminals

A meaning says of each nonterminal which words it stands for. A form then stands for the words that
are put together from the words of its symbols. A meaning is closed under a grammar if whatever the
body of a production stands for its head stands for as well. A nonterminal derives a word only if
every closed meaning has it, so a closed meaning bounds the words of a grammar from above. From below
they are found by derivations that begin with a given production.

## Main definitions

* `Grammar.StandsFor`: the words of a form
* `Grammar.IsClosed`: the meanings that are closed under the productions

## Main results

* `IsClosed.of_derives`: a closed meaning has every word that a nonterminal derives
* `derives_of_terminal`, `derives_of_pair`: derivations that begin with a given production
* `derives_of_bodies`: a nonterminal with all bodies of another one derives its words
-/

namespace Acceptors

namespace Grammar

section

variable (meaning : String → Word → Prop)

/-- The words that a form stands for, if its nonterminals stand for the words of the meaning. -/
def StandsFor : List GrammarSymbol → Word → Prop
  | [], w => w = []
  | .terminal c :: rest, w => ∃ v, w = c :: v ∧ StandsFor rest v
  | .nonterminal a :: rest, w => ∃ u v, w = u ++ v ∧ meaning a u ∧ StandsFor rest v

/-- Whatever a body stands for its head stands for as well. -/
def IsClosed (g : Grammar) : Prop :=
  ∀ p ∈ g.productions, ∀ w, StandsFor meaning p.body w → meaning p.head w

end

section

variable {g : Grammar} {meaning : String → Word → Prop} {f k : List GrammarSymbol} {u v w : Word}
  {a b c : String}

/-! ## Forms -/

theorem standsFor_append :
    StandsFor meaning (f ++ k) w ↔
      ∃ u v, w = u ++ v ∧ StandsFor meaning f u ∧ StandsFor meaning k v := by
  induction f generalizing w with
  | nil =>
    constructor
    · exact fun hk => ⟨[], w, rfl, rfl, hk⟩
    · rintro ⟨_, v, rfl, rfl, hk⟩
      exact hk
  | cons s f ih =>
    cases s with
    | terminal c =>
      simp only [List.cons_append, StandsFor, ih]
      constructor
      · rintro ⟨_, rfl, u, v, rfl, hu, hv⟩
        exact ⟨c :: u, v, rfl, ⟨u, rfl, hu⟩, hv⟩
      · rintro ⟨_, v, rfl, ⟨u, rfl, hu⟩, hv⟩
        exact ⟨u ++ v, rfl, u, v, rfl, hu, hv⟩
    | nonterminal a =>
      simp only [List.cons_append, StandsFor, ih]
      constructor
      · rintro ⟨t, _, rfl, ht, u, v, rfl, hu, hv⟩
        exact ⟨t ++ u, v, (List.append_assoc t u v).symm, ⟨t, u, rfl, ht, hu⟩, hv⟩
      · rintro ⟨_, v, rfl, ⟨t, u, rfl, ht, hu⟩, hv⟩
        exact ⟨t, u ++ v, List.append_assoc t u v, ht, u, v, rfl, hu, hv⟩

theorem standsFor_form : StandsFor meaning v.form w ↔ w = v := by
  induction v generalizing w with
  | nil => rfl
  | cons c v ih =>
    change (∃ x, w = c :: x ∧ StandsFor meaning (Word.form v) x) ↔ _
    simp only [ih, exists_eq_right]

theorem standsFor_terminal {c : Char} : StandsFor meaning [.terminal c] w ↔ w = [c] :=
  standsFor_form (v := [c])

theorem standsFor_pair :
    StandsFor meaning [.nonterminal b, .nonterminal c] w ↔
      ∃ u v, w = u ++ v ∧ meaning b u ∧ meaning c v := by
  constructor
  · rintro ⟨u, _, rfl, hu, v, _, rfl, hv, rfl⟩
    exact ⟨u, v, by rw [List.append_nil], hu, hv⟩
  · rintro ⟨u, v, rfl, hu, hv⟩
    exact ⟨u, v, rfl, hu, v, [], (List.append_nil v).symm, hv, rfl⟩

/-! ## Closed meanings -/

namespace IsClosed

/-- A step backwards keeps what a form stands for. -/
theorem of_yields (h : IsClosed meaning g) (hstep : g.Yields f k) (hk : StandsFor meaning k w) :
    StandsFor meaning f w := by
  obtain ⟨mem, before, after⟩ := hstep
  obtain ⟨t, v, rfl, ht, hv⟩ := standsFor_append.mp hk
  obtain ⟨t, u, rfl, ht, hu⟩ := standsFor_append.mp ht
  exact standsFor_append.mpr
    ⟨t, u ++ v, List.append_assoc t u v, ht, u, v, rfl, h _ mem u hu, hv⟩

theorem standsFor_of_derives (h : IsClosed meaning g) (hd : g.Derives f w.form) :
    StandsFor meaning f w := by
  generalize hw : w.form = e at hd
  induction hd with
  | refl => exact hw ▸ standsFor_form.mpr rfl
  | head first _ ih => exact h.of_yields first (ih hw)

/-- A closed meaning has every word that a nonterminal derives. -/
theorem of_derives (h : IsClosed meaning g) (hd : g.Derives [.nonterminal a] w.form) :
    meaning a w := by
  obtain ⟨u, v, rfl, hu, rfl⟩ := h.standsFor_of_derives hd
  rwa [List.append_nil]

end IsClosed

/-! ## Derivations that begin with a production -/

theorem derives_of_terminal {c : Char} (hp : ⟨a, [.terminal c]⟩ ∈ g.productions) :
    g.Derives [.nonterminal a] (Word.form [c]) :=
  derives_body hp

theorem derives_of_pair (hp : ⟨a, [.nonterminal b, .nonterminal c]⟩ ∈ g.productions)
    (hu : g.Derives [.nonterminal b] u.form) (hv : g.Derives [.nonterminal c] v.form) :
    g.Derives [.nonterminal a] (u ++ v).form := by
  rw [Word.form_append]
  exact derives_of_body hp (hu.append hv)

/-- A nonterminal with all bodies of another one derives its words. -/
theorem derives_of_bodies (h : ∀ p ∈ g.productions, p.head = a → ⟨b, p.body⟩ ∈ g.productions)
    (hw : g.Derives [.nonterminal a] w.form) : g.Derives [.nonterminal b] w.form := by
  obtain ⟨p, hp, hhead, hbody⟩ := derives_word_iff.mp hw
  exact derives_of_body (h p hp hhead) hbody

end

end Grammar

end Acceptors
