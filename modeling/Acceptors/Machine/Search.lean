import Acceptors.Machine.Basic
import Acceptors.Machine.Queue

/-!
# Searching for an accepting run

The search visits configurations level by level. A visited configuration with transitions is
replaced by its successors at the end of the queue; one without transitions accepts if it is in
the final state. The search may be bounded by the number of visited configurations. Without a
bound it may never end. It starts from the initial configuration, so it is about machines with room
for their tapes; whether there is room is looked at before.

## Main definitions

* `SearchResult`: accepted, rejected or cut off
* `Machine.successors`: the configurations that follow, in the order in which they are queued
* `Machine.explore`, `Machine.search`: the bounded search
* `Machine.exploreAll`, `Machine.searchAll`: the search without bound; nothing if it never ends

## Main results

* `explore_induction`, `exploreAll_induction`: what holds of all searches, visit by visit
* `explore_of_le`, `search_of_le`: a bound that suffices may be raised
* `exploreAll_eq_some_iff`, `searchAll_eq_some_iff`: the search without bound finds what a
  sufficient bound finds
* `exists_bound_of_searchWithin`: a search that ends is one with a bound
-/

namespace Acceptors

/-- What a search finds. -/
inductive SearchResult where
  /-- A configuration in the final state that has no transition. -/
  | accepted (c : Configuration)
  /-- No configuration is left. -/
  | rejected
  /-- The bound is reached and configurations are left. -/
  | exhausted (explored : Nat)
  deriving DecidableEq, Repr

/-- Whether the bound ended the search. -/
def SearchResult.isExhausted : SearchResult → Bool
  | .exhausted _ => true
  | _ => false

namespace Machine

/-- What a search visits, each configuration with the number of those that wait behind it, and
what it finds. -/
structure Exploration where
  visited : List (Configuration × Nat)
  outcome : SearchResult
  deriving DecidableEq, Repr

/-- The exploration that visits a configuration first. -/
def Exploration.after (visit : Configuration × Nat) (e : Exploration) : Exploration :=
  { e with visited := visit :: e.visited }

section

variable (m : Machine)

/-- The configurations that follow: those by the second and later transitions, then the one by the
first. -/
def successors (c : Configuration) : List Configuration :=
  match m.transitions c with
  | [] => []
  | first :: others => others.map c.apply ++ [c.apply first]

/-- Whether a configuration has no transition and is in the final state. -/
def accepting (c : Configuration) : Bool := (m.transitions c).isEmpty && c.state = m.final

/-- The search from a queue on, after `explored` visits and with a bound for some more. -/
def explore (explored : Nat) (queue : Queue Configuration) : Nat → Exploration
  | 0 =>
    match queue.pop? with
    | none => ⟨[], .rejected⟩
    | some _ => ⟨[], .exhausted explored⟩
  | bound + 1 =>
    match queue.pop? with
    | none => ⟨[], .rejected⟩
    | some (c, rest) =>
      if m.accepting c then ⟨[(c, rest.size)], .accepted c⟩
      else (explore (explored + 1) (rest.pushAll (m.successors c)) bound).after (c, rest.size)

/-- The search on a word with a bound. -/
def search (w : Word) (bound : Nat) : Exploration :=
  m.explore 0 (.single (m.initialConfiguration w)) bound

/-- The search from a queue on without a bound; nothing if it never ends. -/
def exploreAll (queue : Queue Configuration) : Option Exploration :=
  match queue.pop? with
  | none => some ⟨[], .rejected⟩
  | some (c, rest) =>
    if m.accepting c then some ⟨[(c, rest.size)], .accepted c⟩
    else do
      -- a tactic makes the call: as a term it would leave its position in the file behind
      let e : Exploration ← by
        apply exploreAll
        exact rest.pushAll (m.successors c)
      return e.after (c, rest.size)
partial_fixpoint

/-- The search on a word without a bound; nothing if it never ends. -/
def searchAll (w : Word) : Option Exploration := m.exploreAll (.single (m.initialConfiguration w))

/-- The search with a bound, if there is one. -/
def searchWithin (w : Word) : Option Nat → Option Exploration
  | some bound => some (m.search w bound)
  | none => m.searchAll w

/-! ## A bound only cuts the search -/

theorem explore_zero (explored : Nat) (q : Queue Configuration) :
    m.explore explored q 0 =
      if q.pop? = none then ⟨[], .rejected⟩ else ⟨[], .exhausted explored⟩ := by
  rw [explore]
  cases q.pop? <;> rfl

theorem explore_of_pop?_eq_none {q : Queue Configuration} (h : q.pop? = none) (explored n : Nat) :
    m.explore explored q n = ⟨[], .rejected⟩ := by
  cases n <;> simp [explore, h]

/-- What holds of the searches that end at once, and is handed on from the rest of a search to the
search, holds of every search. It is said of the number of visits before the search, of its bound
and of the search itself. -/
theorem explore_induction {motive : Nat → Nat → Exploration → Prop}
    (empty : ∀ explored bound, motive explored bound ⟨[], .rejected⟩)
    (cut : ∀ explored, motive explored 0 ⟨[], .exhausted explored⟩)
    (accepts : ∀ explored bound c waiting,
      motive explored (bound + 1) ⟨[(c, waiting)], .accepted c⟩)
    (goesOn : ∀ explored bound visit e, motive (explored + 1) bound e →
      motive explored (bound + 1) (e.after visit))
    {explored bound : Nat} {q : Queue Configuration} :
    motive explored bound (m.explore explored q bound) := by
  induction bound generalizing explored q with
  | zero =>
    rw [explore_zero]
    split
    · exact empty explored 0
    · exact cut explored
  | succ bound ih =>
    rw [explore]
    split
    · exact empty explored (bound + 1)
    · next c rest _ =>
      split
      · exact accepts explored bound c rest.size
      · exact goesOn explored bound (c, rest.size) _ ih

/-- A bound that suffices may be raised. -/
theorem explore_of_le {n k : Nat} (hnk : n ≤ k) :
    ∀ {explored : Nat} {q : Queue Configuration},
      (m.explore explored q n).outcome.isExhausted = false →
        m.explore explored q k = m.explore explored q n := by
  induction n generalizing k with
  | zero =>
    intro explored q h
    cases hq : q.pop? with
    | none => rw [explore_of_pop?_eq_none m hq, explore_of_pop?_eq_none m hq]
    | some p => simp [explore_zero, hq, SearchResult.isExhausted] at h
  | succ n ih =>
    intro explored q h
    -- both searches visit the first configuration, and the shorter bound suffices for the rest
    obtain ⟨k, rfl⟩ : ∃ j, k = j + 1 := ⟨k - 1, by omega⟩
    cases hq : q.pop? with
    | none => rw [explore_of_pop?_eq_none m hq, explore_of_pop?_eq_none m hq]
    | some p =>
      obtain ⟨c, rest⟩ := p
      rw [explore, explore]
      rw [explore] at h
      simp only [hq] at h ⊢
      split
      · rfl
      · rename_i hc
        rw [if_neg hc] at h
        rw [ih (Nat.le_of_succ_le_succ hnk) h]

theorem search_of_le {w : Word} {n k : Nat} (hnk : n ≤ k)
    (h : (m.search w n).outcome.isExhausted = false) : m.search w k = m.search w n :=
  explore_of_le m hnk h

/-! ## The search without a bound -/

theorem Exploration.isExhausted_after (visit : Configuration × Nat) (e : Exploration) :
    (e.after visit).outcome.isExhausted = e.outcome.isExhausted := rfl

/-- A bound that suffices finds what the search without bound finds. -/
theorem exploreAll_of_explore {n : Nat} :
    ∀ {explored : Nat} {q : Queue Configuration},
      (m.explore explored q n).outcome.isExhausted = false →
        m.exploreAll q = some (m.explore explored q n) := by
  induction n with
  | zero =>
    intro explored q h
    cases hq : q.pop? with
    | none => rw [exploreAll, explore, hq]
    | some next => simp [explore_zero, hq, SearchResult.isExhausted] at h
  | succ n ih =>
    intro explored q h
    rw [exploreAll, explore]
    rw [explore] at h
    cases hq : q.pop? with
    | none => rfl
    | some next =>
      obtain ⟨c, rest⟩ := next
      simp only [hq] at h ⊢
      split
      · rfl
      · next hc =>
        rw [if_neg hc, Exploration.isExhausted_after] at h
        rw [ih h]
        rfl

/-- What holds of the searches that end at once, and is handed on from the rest of a search to the
search, holds of every search without bound that ends. It is said of the queue and of the search. -/
theorem exploreAll_induction {motive : Queue Configuration → Exploration → Prop}
    (empty : ∀ q, q.pop? = none → motive q ⟨[], .rejected⟩)
    (accepts : ∀ q c rest, q.pop? = some (c, rest) → m.accepting c = true →
      motive q ⟨[(c, rest.size)], .accepted c⟩)
    (goesOn : ∀ q c rest e, q.pop? = some (c, rest) → ¬ m.accepting c = true →
      motive (rest.pushAll (m.successors c)) e → motive q (e.after (c, rest.size)))
    {q : Queue Configuration} {e : Exploration} (h : m.exploreAll q = some e) : motive q e := by
  refine exploreAll.partial_correctness m motive ?_ q e h
  intro searchRest ih q e h
  cases hq : q.pop? with
  | none =>
    rw [hq] at h
    obtain rfl := Option.some.inj h
    exact empty q hq
  | some next =>
    obtain ⟨c, rest⟩ := next
    rw [hq] at h
    dsimp only at h
    by_cases hc : m.accepting c = true
    · rw [if_pos hc] at h
      obtain rfl := Option.some.inj h
      exact accepts q c rest hq hc
    · rw [if_neg hc] at h
      obtain ⟨e, hrest, he⟩ := Option.bind_eq_some_iff.mp h
      obtain rfl := Option.some.inj he
      exact goesOn q c rest e hq hc (ih _ e hrest)

/-- What the search without bound finds is found with some bound. -/
theorem exists_explore_of_exploreAll {q : Queue Configuration} {e : Exploration}
    (h : m.exploreAll q = some e) :
    ∀ explored, ∃ n, m.explore explored q n = e ∧ e.outcome.isExhausted = false := by
  refine m.exploreAll_induction
    (motive := fun q e => ∀ explored, ∃ n, m.explore explored q n = e ∧
      e.outcome.isExhausted = false) ?empty ?accepts ?goesOn h
  case empty =>
    intro q hq explored
    exact ⟨0, m.explore_of_pop?_eq_none hq explored 0, rfl⟩
  case accepts =>
    intro q c rest hq hc explored
    exact ⟨1, by simp [explore, hq, hc], rfl⟩
  case goesOn =>
    -- one visit more than the rest takes
    intro q c rest e hq hc ih explored
    obtain ⟨n, rfl, hends⟩ := ih (explored + 1)
    exact ⟨n + 1, by simp [explore, hq, hc], hends⟩

/-- The search without bound finds what a bounded search finds whose bound suffices. -/
theorem exploreAll_eq_some_iff {q : Queue Configuration} {e : Exploration} (explored : Nat) :
    m.exploreAll q = some e ↔
      ∃ n, m.explore explored q n = e ∧ e.outcome.isExhausted = false := by
  constructor
  · intro h
    exact m.exists_explore_of_exploreAll h explored
  · rintro ⟨n, rfl, h⟩
    exact m.exploreAll_of_explore h

/-- On a word the search without bound finds what a bounded search finds whose bound suffices. -/
theorem searchAll_eq_some_iff {w : Word} {e : Exploration} :
    m.searchAll w = some e ↔ ∃ n, m.search w n = e ∧ e.outcome.isExhausted = false :=
  m.exploreAll_eq_some_iff 0

variable {m}

/-- A search that ends is one with a bound. -/
theorem exists_bound_of_searchWithin {w : Word} {limit : Option Nat} {e : Exploration}
    (h : m.searchWithin w limit = some e) : ∃ bound, m.search w bound = e := by
  cases limit with
  | some bound => exact ⟨bound, Option.some.inj h⟩
  | none =>
    obtain ⟨bound, he, -⟩ := m.searchAll_eq_some_iff.mp h
    exact ⟨bound, he⟩

end

end Machine

end Acceptors
