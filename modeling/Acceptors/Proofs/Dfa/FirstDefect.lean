import Acceptors.Proofs.Dfa.FilledRows
import Acceptors.Proofs.Occurrence
import Mathlib.Data.List.ProdSigma

/-!
# What a list of edges describes

Edges describe an automaton if they stay within the alphabet, agree, and leave each state on each
symbol. The automaton then has exactly what was named: its states are those that were mentioned, in
the order in which they were first mentioned, and its targets are those of the edges. Otherwise the
first offence is reported. For symbols and for disagreements this is the first edge in the order of
the list; for missing edges it is the first pair of a state and a symbol, by states and then by
symbols.

## Main definitions

* `Dfa.mentions`: the states that a description mentions
* `Dfa.IsFirstConflict`: the first edge that disagrees with an earlier one
* `Dfa.HasDefect`: what is reported of a list of edges

## Main results

* `conflictAfter?_eq_some_iff`, `gap?_eq_some_iff`: which edge and which pair are found
* `check_eq_error_iff`: the check reports the first offence
* `ofEdges_represents`: what is built from edges, and what is reported otherwise
-/

namespace Acceptors

namespace Dfa

variable {d : Dfa} {initial : String} {accepting : List String} {given : Option (List Char)}
  {earlier edges : List Edge} {names : List String} {symbols : List Char} {e : Edge}
  {defect : Defect}

/-! ## First offences -/

/-- The first edge that leads elsewhere than an edge in front of it from the same state on the same
symbol. -/
def IsFirstConflict (edges : List Edge) (e : Edge) : Prop :=
  ∃ before after, edges = before ++ e :: after ∧ Agree before ∧
    ∃ f ∈ before, e.source = f.source ∧ e.symbol = f.symbol ∧ e.target ≠ f.target

/-- No edge leaves the state on the symbol. -/
def Lacks (edges : List Edge) (x : String × Char) : Prop := ∀ q, (⟨x.1, x.2, q⟩ : Edge) ∉ edges

/-- What is reported of edges between the states `names` on the symbols `alphabet`: the first edge
on another symbol, or else the first one that disagrees with an earlier one, or else the first state
with its first symbol that no edge leaves. -/
inductive HasDefect (names : List String) (alphabet : List Char) (edges : List Edge) :
    Defect → Prop where
  | stray {e : Edge} (first : IsFirstIn edges (fun e => e.symbol ∉ alphabet) e) :
    HasDefect names alphabet edges (.symbolOutsideAlphabet e.source e.symbol)
  | conflict {e : Edge} (within : ∀ e ∈ edges, e.symbol ∈ alphabet)
    (first : IsFirstConflict edges e) :
    HasDefect names alphabet edges (.nondeterministic e.source e.symbol)
  | gap {q : String} {c : Char} (within : ∀ e ∈ edges, e.symbol ∈ alphabet) (agree : Agree edges)
    (first : IsFirstIn (names ×ˢ alphabet) (Lacks edges) (q, c)) :
    HasDefect names alphabet edges (.missingTransition q c)

theorem strayEdge?_eq_some_iff : strayEdge? symbols edges = some e ↔
    IsFirstIn edges (fun e => e.symbol ∉ symbols) e :=
  find?_eq_some_iff_isFirstIn fun e => by simp

/-- Edges with one that disagrees with an edge of theirs do not agree. -/
theorem Agree.not_disagrees {f : Edge} (h : Agree edges) (he : e ∈ edges) (hf : f ∈ edges) :
    ¬ e.disagrees f = true := by
  intro hef
  obtain ⟨hsource, hsymbol, hne⟩ := Edge.disagrees_eq_true_iff.mp hef
  exact hne (h e he f hf hsource hsymbol)

/-- Behind edges that agree, the first edge is found that disagrees with one of them or with an edge
before it. -/
theorem conflictAfter?_eq_some_iff (hearlier : Agree earlier) :
    conflictAfter? earlier edges = some e ↔
      ∃ before after, edges = before ++ e :: after ∧ Agree (before ++ earlier) ∧
        ∃ f ∈ before ++ earlier, e.disagrees f = true := by
  induction edges generalizing earlier with
  | nil => simp [conflictAfter?]
  | cons a es ih =>
    rw [conflictAfter?]
    by_cases hany : earlier.any a.disagrees = true
    · rw [if_pos hany]
      obtain ⟨f, hf, haf⟩ := List.any_eq_true.mp hany
      constructor
      · rintro ⟨⟩
        exact ⟨[], es, rfl, hearlier, f, hf, haf⟩
      · rintro ⟨before, after, hes, hagree, -⟩
        cases before with
        | nil => rw [(List.cons.inj hes).1]
        | cons b before =>
          -- the first edge would be among those that agree
          obtain rfl := (List.cons.inj hes).1
          exact absurd haf (hagree.not_disagrees (by simp) (by simp [hf]))
    · have hcons : Agree (a :: earlier) :=
        hearlier.cons fun f hf haf => hany (List.any_eq_true.mpr ⟨f, hf, haf⟩)
      have hmiddle : ∀ before : List Edge, (before ++ a :: earlier).Perm (a :: before ++ earlier) :=
        fun before => List.perm_middle
      rw [if_neg hany, ih hcons]
      constructor
      · rintro ⟨before, after, rfl, hagree, f, hf, hef⟩
        exact ⟨a :: before, after, rfl, (Agree.iff_of_perm (hmiddle before)).mp hagree, f,
          (hmiddle before).mem_iff.mp hf, hef⟩
      · rintro ⟨before, after, hes, hagree, f, hf, hef⟩
        cases before with
        | nil =>
          obtain rfl := (List.cons.inj hes).1
          exact absurd (List.any_eq_true.mpr ⟨f, hf, hef⟩) hany
        | cons b before =>
          obtain ⟨rfl, rfl⟩ := List.cons.inj hes
          exact ⟨before, after, rfl, (Agree.iff_of_perm (hmiddle before)).mpr hagree, f,
            (hmiddle before).mem_iff.mpr hf, hef⟩

theorem conflict?_eq_some_iff : conflict? edges = some e ↔ IsFirstConflict edges e := by
  rw [conflict?, conflictAfter?_eq_some_iff fun e he => absurd he List.not_mem_nil]
  simp only [List.append_nil, Edge.disagrees_eq_true_iff, IsFirstConflict]

theorem lacks_iff {x : String × Char} :
    (target? edges x.1 x.2).isNone = true ↔ Lacks edges x := by
  rw [Option.isNone_iff_eq_none, ← Option.not_isSome_iff_eq_none, isSome_target?_iff, not_exists]
  rfl

/-- States and symbols are gone through by states first. -/
theorem gap?_eq_find? : gap? names symbols edges =
    (names ×ˢ symbols).find? fun x => (target? edges x.1 x.2).isNone := by
  show _ = (names.flatMap fun q => symbols.map (Prod.mk q)).find? _
  simp only [gap?, List.find?_flatMap, List.find?_map, Function.comp_def]

theorem gap?_eq_some_iff {x : String × Char} :
    gap? names symbols edges = some x ↔ IsFirstIn (names ×ˢ symbols) (Lacks edges) x := by
  rw [gap?_eq_find?, find?_eq_some_iff_isFirstIn fun x => lacks_iff]

/-- The check reports the first offence. -/
theorem check_eq_error_iff :
    check names symbols edges = .error defect ↔ HasDefect names symbols edges defect := by
  -- the searches are made one after the other, and each report excludes the others
  rw [check]
  cases hstray : strayEdge? symbols edges with
  | some e =>
    constructor
    · rintro ⟨⟩
      exact .stray (strayEdge?_eq_some_iff.mp hstray)
    · rintro (first | ⟨within, -⟩ | ⟨within, -, -⟩)
      · cases hstray.symm.trans (strayEdge?_eq_some_iff.mpr first)
        rfl
      · cases hstray.symm.trans (strayEdge?_eq_none_iff.mpr within)
      · cases hstray.symm.trans (strayEdge?_eq_none_iff.mpr within)
  | none =>
    have hwithin := strayEdge?_eq_none_iff.mp hstray
    cases hconflict : conflict? edges with
    | some e =>
      constructor
      · rintro ⟨⟩
        exact .conflict hwithin (conflict?_eq_some_iff.mp hconflict)
      · rintro (first | ⟨-, first⟩ | ⟨-, agree, -⟩)
        · cases hstray.symm.trans (strayEdge?_eq_some_iff.mpr first)
        · cases hconflict.symm.trans (conflict?_eq_some_iff.mpr first)
          rfl
        · cases hconflict.symm.trans (conflict?_eq_none_iff.mpr agree)
    | none =>
      have hagree := conflict?_eq_none_iff.mp hconflict
      cases hgap : gap? names symbols edges with
      | some x =>
        constructor
        · rintro ⟨⟩
          exact .gap hwithin hagree (gap?_eq_some_iff.mp hgap)
        · rintro (first | ⟨-, first⟩ | ⟨-, -, first⟩)
          · cases hstray.symm.trans (strayEdge?_eq_some_iff.mpr first)
          · cases hconflict.symm.trans (conflict?_eq_some_iff.mpr first)
          · cases hgap.symm.trans (gap?_eq_some_iff.mpr first)
            rfl
      | none =>
        constructor
        · rintro ⟨⟩
        · rintro (first | ⟨-, first⟩ | ⟨-, -, first⟩)
          · cases hstray.symm.trans (strayEdge?_eq_some_iff.mpr first)
          · cases hconflict.symm.trans (conflict?_eq_some_iff.mpr first)
          · cases hgap.symm.trans (gap?_eq_some_iff.mpr first)

/-! ## What is built -/

/-- The states that a description mentions: the initial state, those of the edges, and the accepting
states. -/
def mentions (initial : String) (accepting : List String) (edges : List Edge) : List String :=
  initial :: edges.flatMap (fun e => [e.source, e.target]) ++ accepting

theorem initialName_of_ofEdges (h : ofEdges initial accepting given edges = .ok d) :
    d.initialName = initial := by
  obtain ⟨-, rfl⟩ := ofEdges_eq_ok_iff.mp h
  rfl

/-- **An automaton is what its edges describe, and the first offence is reported otherwise.** The
states are those that are mentioned, each once and in order of first appearance, and the alphabet
has the given symbols, or else those of the edges, in increasing order. An automaton is built
exactly if no edge leaves the alphabet, edges from one state on one symbol have one target, and an
edge leaves each state on each symbol. It has these states and this alphabet, its targets are those
of the edges, and its accepting states are those that were named. Putting it together place by place
gives the same, with no other report. -/
theorem ofEdges_represents (initial : String) (accepting : List String)
    (given : Option (List Char)) (edges : List Edge) :
    ∃ names alphabet,
      ListsOccurrences (mentions initial accepting edges) 0 names ∧
      (alphabet.Pairwise (· < ·) ∧ ∀ c, c ∈ alphabet ↔ c ∈ given.getD (edges.map Edge.symbol)) ∧
      ((∃ d, ofEdges initial accepting given edges = .ok d) ↔
        (∀ e ∈ edges, e.symbol ∈ alphabet) ∧ Agree edges ∧
          ∀ p ∈ names, ∀ c ∈ alphabet, ∃ q, (⟨p, c, q⟩ : Edge) ∈ edges) ∧
      (∀ d, ofEdges initial accepting given edges = .ok d →
        d.names = names ∧ d.alphabet = alphabet ∧ d.initialName = initial ∧
          (∀ p c q, d.next? p c = some q ↔ (⟨p, c, q⟩ : Edge) ∈ edges) ∧
          ∀ p, d.isAccepting p = true ↔ p ∈ accepting) ∧
      (∀ defect, ofEdges initial accepting given edges = .error defect ↔
        HasDefect names alphabet edges defect) ∧
      ofEdgesByRows initial accepting given edges = ofEdges initial accepting given edges := by
  refine ⟨namesOf initial accepting edges, alphabetOf given edges,
    listsOccurrences_distinct (mentions initial accepting edges),
    ⟨pairwise_alphabetOf given, fun c => mem_ascending⟩, exists_ofEdges_iff, fun d hd => ?_,
    fun defect => ?_, ofEdgesByRows_eq initial accepting given edges⟩
  · refine ⟨names_of_ofEdges hd, ?_, initialName_of_ofEdges hd, fun p c q => next?_eq_some_iff hd,
      fun p => ?_⟩
    · obtain ⟨-, rfl⟩ := ofEdges_eq_ok_iff.mp hd
      rfl
    · rw [isAccepting_eq_contains hd, List.contains_iff_mem]
  · rw [ofEdges, map_eq_error_iff, check_eq_error_iff]

/-- The edges of a switch that is pushed on and off and can be reset, one of them listed twice. -/
def switchEdges : List Edge :=
  [⟨"off", 'p', "on"⟩, ⟨"on", 'p', "off"⟩, ⟨"off", 'p', "on"⟩, ⟨"on", 'r', "off"⟩]

/-- With an edge for a reset of what is off, the edges describe a switch. Without it, this is the
first pair that no edge leaves, and it is reported. -/
theorem switch_represented :
    (∃ d, ofEdges "off" ["on"] none (⟨"off", 'r', "off"⟩ :: switchEdges) = .ok d ∧
      (∀ p c q, d.next? p c = some q ↔ (⟨p, c, q⟩ : Edge) ∈ ⟨"off", 'r', "off"⟩ :: switchEdges) ∧
      ∀ p, d.isAccepting p = true ↔ p ∈ ["on"]) ∧
    ∃ names alphabet, ListsOccurrences (mentions "off" ["on"] switchEdges) 0 names ∧
      ofEdges "off" ["on"] none switchEdges = .error (.missingTransition "off" 'r') ∧
      IsFirstIn (names ×ˢ alphabet) (Lacks switchEdges) ("off", 'r') := by
  constructor
  · obtain ⟨d, hd⟩ : ∃ d, ofEdges "off" ["on"] none (⟨"off", 'r', "off"⟩ :: switchEdges) = .ok d :=
      ⟨_, rfl⟩
    obtain ⟨_, _, -, -, -, hexact, -⟩ :=
      ofEdges_represents "off" ["on"] none (⟨"off", 'r', "off"⟩ :: switchEdges)
    exact ⟨d, hd, (hexact d hd).2.2.2⟩
  · have hreported : ofEdges "off" ["on"] none switchEdges =
        .error (.missingTransition "off" 'r') := rfl
    obtain ⟨names, alphabet, hnames, -, -, -, hdefect, -⟩ :=
      ofEdges_represents "off" ["on"] none switchEdges
    refine ⟨names, alphabet, hnames, hreported, ?_⟩
    cases (hdefect _).mp hreported with
    | gap _ _ first => exact first

end Dfa

end Acceptors
