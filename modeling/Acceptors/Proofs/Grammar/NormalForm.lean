import Acceptors.Grammar.Derives
import Acceptors.Grammar.NormalForm

/-!
# Derivations in normal form

A grammar that passes its check has bodies of three shapes only, and an empty body only at a start
symbol that stands in no body. So nothing in a body derives the empty word, and a word that is not
empty is derived either by the body that is its only character or by two nonterminals that share it.

## Main definitions

* `Grammar.IsNormal`: what the check of a grammar leaves

## Main results

* `check_eq_ok_iff`: the check passes exactly for these grammars
* `derives_nonterminal_iff`: a derivation from a nonterminal starts with one of its productions
* `IsNormal.not_derives_nil`: no symbol of a body derives the empty word
* `derives_word_iff`: a nonterminal derives a word by the body of one of its productions
* `IsNormal.derives_body_iff`: how a body derives a word that is not empty
-/

namespace Acceptors

theorem Production.isNormal_iff {p : Production} :
    p.isNormal = true ↔
      p.body = [] ∨ (∃ c, p.body = [.terminal c]) ∨
        ∃ b c, p.body = [.nonterminal b, .nonterminal c] := by
  unfold Production.isNormal
  constructor
  · intro h
    split at h
    · next hp => exact .inl hp
    · next c hp => exact .inr (.inl ⟨c, hp⟩)
    · next b c hp => exact .inr (.inr ⟨b, c, hp⟩)
    · cases h
  · rintro (hp | ⟨c, hp⟩ | ⟨b, c, hp⟩) <;> rw [hp]

namespace Grammar

/-- Every body has one of the three shapes; an empty body belongs to the start symbol, which then
stands in no body. -/
structure IsNormal (g : Grammar) : Prop where
  start_ne : g.start ≠ ""
  shape : ∀ p ∈ g.productions, p.isNormal = true
  head_of_empty : ∀ p ∈ g.productions, p.body = [] → p.head = g.start
  start_notMem : ∀ p ∈ g.productions, p.body = [] →
    ∀ r ∈ g.productions, .nonterminal g.start ∉ r.body

section

variable {g : Grammar}

/-! ## What the check leaves -/

theorem misshapen?_eq_none_iff :
    g.misshapen? = none ↔ ∀ p ∈ g.productions, p.isNormal = true := by
  simp [misshapen?, List.find?_eq_none]

theorem recursive?_eq_none_iff :
    g.recursive? = none ↔ ∀ p ∈ g.productions, .nonterminal g.start ∉ p.body := by
  simp [recursive?, List.find?_eq_none]

theorem emptyBodyProblem?_eq_none_iff :
    g.emptyBodyProblem? = none ↔
      ∀ p ∈ g.productions, p.body = [] → p.head = g.start ∧ g.recursive? = none := by
  simp only [emptyBodyProblem?, List.findSome?_eq_none_iff, List.mem_filter, List.isEmpty_iff]
  constructor
  · intro h p hp hbody
    have hproblem := h p ⟨hp, hbody⟩
    split at hproblem
    · cases hproblem
    · next hhead => exact ⟨Classical.not_not.mp hhead, Option.map_eq_none_iff.mp hproblem⟩
  · rintro h p ⟨hp, hbody⟩
    obtain ⟨hhead, hrec⟩ := h p hp hbody
    rw [if_neg (Classical.not_not.mpr hhead), hrec]
    rfl

/-- The check passes exactly for the grammars in normal form. -/
theorem check_eq_ok_iff {u : Unit} : g.check = .ok u ↔ g.IsNormal := by
  have hcheck : g.check = .ok u ↔
      g.start ≠ "" ∧ g.misshapen? = none ∧ g.emptyBodyProblem? = none := by
    unfold check
    rw [ne_eq, ← String.isEmpty_iff]
    cases g.start.isEmpty <;> cases g.misshapen? <;> cases g.emptyBodyProblem? <;> simp
  rw [hcheck, misshapen?_eq_none_iff, emptyBodyProblem?_eq_none_iff]
  constructor
  · rintro ⟨hstart, hshape, hempty⟩
    exact ⟨hstart, hshape, fun p hp hbody => (hempty p hp hbody).1,
      fun p hp hbody => recursive?_eq_none_iff.mp (hempty p hp hbody).2⟩
  · rintro ⟨hstart, hshape, hhead, hrec⟩
    exact ⟨hstart, hshape, fun p hp hbody =>
      ⟨hhead p hp hbody, recursive?_eq_none_iff.mpr (hrec p hp hbody)⟩⟩

theorem IsNormal.cases (h : g.IsNormal) {p : Production} (hp : p ∈ g.productions) :
    p.body = [] ∨ (∃ c, p.body = [.terminal c]) ∨
      ∃ b c, p.body = [.nonterminal b, .nonterminal c] :=
  Production.isNormal_iff.mp (h.shape p hp)

/-! ## The first step -/

/-- A derivation from a nonterminal starts with one of its productions, if it has a step. -/
theorem derives_nonterminal_iff {a : String} {f : List GrammarSymbol} :
    g.Derives [.nonterminal a] f ↔
      f = [.nonterminal a] ∨ ∃ p ∈ g.productions, p.head = a ∧ g.Derives p.body f := by
  constructor
  · intro h
    generalize ha : [GrammarSymbol.nonterminal a] = e at h
    cases h with
    | refl => exact .inl rfl
    | head first rest =>
      obtain ⟨mem, before, after⟩ := first
      -- the form is a single symbol, so nothing stands beside the one that is replaced
      cases before with
      | nil =>
        obtain ⟨hhead, rfl⟩ := List.cons.inj ha
        exact .inr ⟨_, mem, (GrammarSymbol.nonterminal.inj hhead).symm, by simpa using rest⟩
      | cons x before => simp at ha
  · rintro (rfl | ⟨p, hp, rfl, h⟩)
    · exact .refl _
    · exact (derives_body hp).trans h

theorem derives_of_body {p : Production} (hp : p ∈ g.productions) {f : List GrammarSymbol}
    (h : g.Derives p.body f) : g.Derives [.nonterminal p.head] f :=
  derives_nonterminal_iff.mpr (.inr ⟨p, hp, rfl, h⟩)

/-! ## The empty word -/

/-- A form derives the empty word only if all of it is the start symbol with an empty body. -/
theorem IsNormal.of_derives_nil (h : g.IsNormal) {f e : List GrammarSymbol}
    (hf : g.Derives f e) (he : e = []) :
    ∀ s ∈ f, s = .nonterminal g.start ∧ ∃ p ∈ g.productions, p.body = [] := by
  induction hf with
  | refl => simp [he]
  | head first _ ih =>
    have hall := ih he
    obtain @⟨p, mem, before, after⟩ := first
    intro s hs
    rw [List.mem_append, List.mem_cons] at hs
    rcases hs with hs | rfl | hs
    · exact hall s (by simp [hs])
    · -- a symbol of the body would be the start symbol, which stands in no body
      have hbody : p.body = [] := by
        refine List.eq_nil_iff_forall_not_mem.mpr fun t ht => ?_
        obtain ⟨rfl, q, hq, hempty⟩ := hall t (by simp [ht])
        exact h.start_notMem q hq hempty p mem ht
      exact ⟨congrArg _ (h.head_of_empty p mem hbody), p, mem, hbody⟩
    · exact hall s (by simp [hs])

theorem IsNormal.not_derives_nil (h : g.IsNormal) {p : Production} (hp : p ∈ g.productions)
    {s : GrammarSymbol} (hs : s ∈ p.body) : ¬ g.Derives [s] [] := by
  intro hd
  obtain ⟨rfl, q, hq, hempty⟩ := h.of_derives_nil hd rfl s (by simp)
  exact h.start_notMem q hq hempty p hp hs

/-- The grammar generates the empty word exactly by an empty body of the start symbol. -/
theorem IsNormal.generates_nil_iff (h : g.IsNormal) :
    g.Generates [] ↔ ∃ p ∈ g.productions, p.body = [] ∧ p.head = g.start := by
  constructor
  · intro hd
    obtain ⟨-, p, hp, hbody⟩ := h.of_derives_nil hd rfl _ (List.mem_singleton_self _)
    exact ⟨p, hp, hbody, h.head_of_empty p hp hbody⟩
  · rintro ⟨p, hp, hbody, hhead⟩
    have hd : g.Derives [.nonterminal p.head] [] := derives_of_body hp (hbody ▸ .refl _)
    rwa [hhead] at hd

/-! ## Other words -/

/-- How a body derives a word that is not empty: it is its only character, or two nonterminals that
each derive a part of it. -/
theorem IsNormal.derives_body_iff (h : g.IsNormal) {p : Production} (hp : p ∈ g.productions)
    {w : Word} (hw : w ≠ []) :
    g.Derives p.body (Word.form w) ↔
      (∃ c, p.body = [.terminal c] ∧ w = [c]) ∨
        ∃ b c, p.body = [.nonterminal b, .nonterminal c] ∧ ∃ u v, u ≠ [] ∧ v ≠ [] ∧ w = u ++ v ∧
          g.Derives [.nonterminal b] (Word.form u) ∧ g.Derives [.nonterminal c] (Word.form v) := by
  constructor
  · intro hd
    rcases h.cases hp with hbody | ⟨c, hbody⟩ | ⟨b, c, hbody⟩
    · rw [hbody, ← Word.form_nil, Grammar.derives_form_iff] at hd
      exact absurd (Word.form_injective hd) hw
    · have hterminal : p.body = Word.form [c] := hbody
      rw [hterminal, Grammar.derives_form_iff] at hd
      exact .inl ⟨c, hbody, Word.form_injective hd⟩
    · have hb : .nonterminal b ∈ p.body := by simp [hbody]
      have hc : .nonterminal c ∈ p.body := by simp [hbody]
      rw [hbody, ← List.singleton_append, derives_append_iff] at hd
      obtain ⟨f, k, hf, hk, hfk⟩ := hd
      obtain ⟨u, v, rfl, rfl, rfl⟩ := List.map_eq_append_iff.mp hfk
      have hu : u ≠ [] := by
        rintro rfl
        exact h.not_derives_nil hp hb hf
      have hv : v ≠ [] := by
        rintro rfl
        exact h.not_derives_nil hp hc hk
      exact .inr ⟨b, c, hbody, u, v, hu, hv, rfl, hf, hk⟩
  · rintro (⟨c, hbody, rfl⟩ | ⟨b, c, hbody, u, v, -, -, rfl, hu, hv⟩)
    · rw [hbody]
      exact .refl _
    · rw [hbody, Word.form_append]
      exact hu.append hv

theorem IsNormal.derives_body_char_iff (h : g.IsNormal) {p : Production}
    (hp : p ∈ g.productions) {c : Char} :
    g.Derives p.body (Word.form [c]) ↔ p.body = [.terminal c] := by
  rw [h.derives_body_iff hp (List.cons_ne_nil c [])]
  constructor
  · rintro (⟨d, hbody, hd⟩ | ⟨b, d, -, u, v, hu, hv, huv, -⟩)
    · rw [List.singleton_inj.mp hd]
      exact hbody
    · -- one character has no two parts
      have hlen := congrArg List.length huv
      have hpos := List.length_pos_iff.mpr hu
      have hpos' := List.length_pos_iff.mpr hv
      rw [List.length_append, List.length_singleton] at hlen
      omega
  · intro hbody
    exact .inl ⟨c, hbody, rfl⟩

/-- A nonterminal derives a word by the body of one of its productions. -/
theorem derives_word_iff {a : String} {w : Word} :
    g.Derives [.nonterminal a] w.form ↔
      ∃ p ∈ g.productions, p.head = a ∧ g.Derives p.body w.form := by
  -- the nonterminal itself is not a word
  have hform : w.form ≠ [.nonterminal a] := by
    cases w <;> simp [Word.form]
  rw [derives_nonterminal_iff, or_iff_right hform]

theorem IsNormal.derives_char_iff (h : g.IsNormal) {a : String} {c : Char} :
    g.Derives [.nonterminal a] (Word.form [c]) ↔
      ∃ p ∈ g.productions, p.head = a ∧ p.body = [.terminal c] := by
  rw [derives_word_iff]
  exact exists_congr fun p => and_congr_right fun hp =>
    and_congr_right fun _ => h.derives_body_char_iff hp

end

end Grammar

end Acceptors
