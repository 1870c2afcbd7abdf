import Acceptors.Proofs.Description.StateNames
import Acceptors.Proofs.Grammar.Brackets
import Acceptors.Proofs.Simulation.Ready

/-!
# Trees of described grammars

The nonterminals of a described grammar are runs of letters, digits and a few signs. A number sign
is shown as a dash, which is no such sign, so different nonterminals are shown differently. None of
the signs is a bracket or a blank, so the tree of a word can be told from its text, whatever the
terminals are.

## Main definitions

* `Production.IsNamed`, `Section.IsNamed`: the names of nonterminals are names of the language

## Main results

* `displayLabel_inj`: what is shown of a name tells the name
* `gives_productionsSection`, `gives_grammarSections`: the names in what is read
* `isIdent_of_parse`: the nonterminals of a described grammar
* `text_identifies_tree`: the text of a tree identifies the tree and the word
-/

namespace Acceptors

/-- All names in the production are names of the language. -/
def Production.IsNamed (p : Production) : Prop :=
  Description.IsIdent p.head ∧ ∀ a, .nonterminal a ∈ p.body → Description.IsIdent a

namespace Description

/-! ## What is shown of a name -/

section

variable {a b : String}

theorem ne_dash_of_isIdent (ha : IsIdent a) : ∀ c ∈ a.toList, c ≠ '-' :=
  fun c hc => Token.ne_of_isIdentChar (ha.2 c hc) rfl

/-- The characters of a name, from those that are shown: a dash stands for a number sign. -/
theorem toList_eq_map_displayLabel (ha : IsIdent a) :
    a.toList = (displayLabel a).toList.map fun c => if c = '-' then '#' else c := by
  rw [displayLabel, String.toList_ofList, List.map_map]
  refine (List.map_id _).symm.trans (List.map_congr_left fun c hc => ?_)
  have hdash : c ≠ '-' := ne_dash_of_isIdent ha c hc
  by_cases hsign : c = '#'
  · simp [hsign]
  · simp [hsign, hdash]

/-- Different names are shown differently. -/
theorem displayLabel_inj (ha : IsIdent a) (hb : IsIdent b) (h : displayLabel a = displayLabel b) :
    a = b := by
  rw [← String.toList_inj, toList_eq_map_displayLabel ha, h, ← toList_eq_map_displayLabel hb]

/-- A name is shown without blanks and brackets. -/
theorem isPlainLabel_displayLabel (ha : IsIdent a) : Tree.IsPlainLabel (displayLabel a) := by
  constructor
  · intro hempty
    refine ha.toList_ne_nil ?_
    rw [toList_eq_map_displayLabel ha, hempty]
    rfl
  · intro c hc
    rw [displayLabel, String.toList_ofList] at hc
    obtain ⟨d, hd, rfl⟩ := List.mem_map.mp hc
    split
    · exact ⟨by decide, by decide⟩
    · exact ⟨Token.ne_of_isIdentChar (ha.2 d hd) rfl, Token.ne_of_isIdentChar (ha.2 d hd) rfl⟩

end

/-! ## Names in rule lines -/

theorem gives_ident : (Reader.token .ident Token.ident).Gives IsIdent :=
  fun _ _ _ h => Token.isIdent_of_ident h

theorem gives_ruleLine : ruleLine.Gives fun line => IsIdent line.1 :=
  .phrase <| .bind gives_ident fun _ hhead => .after fun _ => .after fun _ => .after fun _ =>
    .after fun _ => .after fun _ => .after fun _ => .pure hhead

/-- A symbol of a body is a nonterminal only if it is the head of some line. -/
theorem mem_heads_of_classify {heads : List String} {x : Located (List Char)} {a : String}
    (h : classify heads x = .ok (.nonterminal a)) : a ∈ heads := by
  unfold classify at h
  split at h
  · cases h
  · split at h
    · next text _ hhead =>
      obtain rfl : String.ofList _ = a := GrammarSymbol.nonterminal.inj (Except.ok.inj h)
      exact List.contains_iff_mem.mp hhead
    · split at h <;> cases h

theorem isNamed_of_productionsOf {lines : List (String × List Alternative)}
    (hlines : ∀ line ∈ lines, IsIdent line.1) {productions : List Production}
    (h : productionsOf lines = .ok productions) : ∀ p ∈ productions, p.IsNamed := by
  intro p hp
  have hmem : Except.ok p ∈ productions.map (Except.ok (ε := Located Complaint)) :=
    List.mem_map_of_mem hp
  rw [← gather_eq_ok_iff.mp h] at hmem
  obtain ⟨⟨head, alternatives⟩, hline, hmem⟩ := List.mem_flatMap.mp hmem
  obtain ⟨alternative, -, hbody⟩ := List.mem_map.mp hmem
  obtain ⟨body, hgather, rfl⟩ := map_eq_ok_iff.mp hbody
  refine ⟨hlines _ hline, fun a ha => ?_⟩
  -- each symbol of the body is what some text in the line stands for
  have hsymbol : Except.ok (.nonterminal a) ∈ body.map (Except.ok (ε := Located Complaint)) :=
    List.mem_map_of_mem ha
  rw [← gather_eq_ok_iff.mp hgather] at hsymbol
  obtain ⟨x, -, hx⟩ := List.mem_map.mp hsymbol
  obtain ⟨line, hline, rfl⟩ := List.mem_map.mp (mem_heads_of_classify hx)
  exact hlines line hline

/-! ## Names in sections -/

/-- The start symbol and all names in the productions are names of the language. -/
def Section.IsNamed : Section → Prop
  | start label => IsIdent label
  | productions rules => ∀ ps, rules = .ok ps → ∀ p ∈ ps, p.IsNamed
  | _ => True

theorem gives_productionsSection : productionsSection.Gives Section.IsNamed :=
  .map <| (gives_sectionOf (gives_itemLines gives_ruleLine)).mono
    fun _ hlines _ h => isNamed_of_productionsOf hlines h

theorem gives_grammarSections : grammarSections.Gives fun l => ∀ s ∈ l, s.value.IsNamed := by
  have htrivial : ∀ {α : Type} {r : Reader α} {f : α → Section}, (∀ a, (f a).IsNamed) →
      (f <$> r).Gives Section.IsNamed := fun hf => .map fun _ a _ _ => hf a
  have hstart : startSection.Gives Section.IsNamed := .map (gives_sectionOf gives_ident)
  exact gives_sections <| .orElse (htrivial fun _ => trivial) <| .orElse hstart <|
    .orElse gives_productionsSection <| htrivial fun _ => trivial

namespace Section.IsNamed

variable {s : Section}

theorem start (h : s.IsNamed) {label : String} (hs : s.start? = some label) : IsIdent label := by
  cases s with
  | start given =>
    obtain rfl : given = label := Option.some.inj hs
    exact h
  | _ => cases hs

theorem productions (h : s.IsNamed) {ps : List Production} (hs : s.productions? = some (.ok ps)) :
    ∀ p ∈ ps, p.IsNamed := by
  cases s with
  | productions rules =>
    obtain rfl : rules = .ok ps := Option.some.inj hs
    exact h ps rfl
  | _ => cases hs

end Section.IsNamed

/-! ## Nonterminals -/

section

variable {l : List (Located Section)} {productions : List Production}

theorem isIdent_of_startSymbol (hl : ∀ s ∈ l, s.value.IsNamed)
    (hproductions : ∀ p ∈ productions, p.IsNamed) {start : String}
    (h : startSymbol l productions = .ok start) : IsIdent start := by
  unfold startSymbol at h
  split at h
  · next given hgiven =>
    obtain rfl : given = start := Except.ok.inj h
    obtain ⟨s, hs, hview⟩ := found?_eq_some hgiven
    exact (hl s hs).start hview
  · next p _ _ =>
    obtain rfl : p.head = start := Except.ok.inj h
    exact (hproductions p List.mem_cons_self).1
  · cases h

theorem isIdent_of_grammarOf (hl : ∀ s ∈ l, s.value.IsNamed) {name : String} {g : Grammar}
    (h : grammarOf l = .ok (name, g)) : ∀ a ∈ g.nonterminals, IsIdent a := by
  obtain ⟨_, -, h⟩ := bind_eq_ok_iff.mp h
  obtain ⟨rules, hrules, h⟩ := bind_eq_ok_iff.mp h
  obtain ⟨productions, haccept, h⟩ := bind_eq_ok_iff.mp h
  obtain ⟨start, hstart, h⟩ := bind_eq_ok_iff.mp h
  obtain ⟨_, -, h⟩ := bind_eq_ok_iff.mp h
  obtain ⟨-, rfl⟩ := Prod.mk.inj (Except.ok.inj h)
  obtain ⟨s, hs, hview⟩ := found?_eq_some (required_eq_ok_iff.mp hrules)
  rw [mapError_eq_ok_iff.mp haccept] at hview
  have hproductions := (hl s hs).productions hview
  intro a ha
  simp only [Grammar.nonterminals, mem_distinct, List.mem_cons, List.mem_flatMap] at ha
  rcases ha with rfl | ⟨p, hp, rfl | ha⟩
  · exact isIdent_of_startSymbol hl hproductions hstart
  · exact (hproductions p hp).1
  · obtain ⟨symbol, hsymbol, hname⟩ := List.mem_filterMap.mp ha
    cases symbol with
    | terminal c => cases hname
    | nonterminal b =>
      obtain rfl : b = a := Option.some.inj hname
      exact (hproductions p hp).2 b hsymbol

end

/-- The nonterminals of a grammar that is read from a text are names of the language, and the
grammar is in normal form. -/
theorem isIdent_of_parse {text : List Char} {defn : Definition} {g : Grammar}
    (h : parse .grammar text = .ok defn) (hg : defn.automaton = .grammar g) :
    g.IsNormal ∧ ∀ a ∈ g.nonterminals, IsIdent a := by
  obtain ⟨l, name, g', hl, -, hassemble, rfl⟩ := parseWith_eq_ok_iff.mp h
  obtain ⟨rest, hread⟩ := readSections_eq_ok_iff.mp hl
  obtain rfl : g' = g := Automaton.grammar.inj hg
  exact ⟨isNormal_of_grammarOf hassemble,
    isIdent_of_grammarOf (gives_grammarSections _ _ _ hread) hassemble⟩

/-- **The text of a tree identifies the tree.** A grammar that is read from a text has its chart. If
the trees of two words that the chart accepts are shown by the same text, they are the same tree of
the same word, with the same derivation. Terminals may be brackets, blanks or any other characters.
No two nonterminals are shown alike, although number signs are shown as dashes. -/
theorem text_identifies_tree {text : List Char} {defn : Definition} {g : Grammar}
    (h : parse .grammar text = .ok defn) (hg : defn.automaton = .grammar g) :
    (∃ r, g.indexed = .ok r ∧ ∀ w w' e e', r.parse w = some e → r.parse w' = some e' →
      e.tree.text = e'.tree.text → e = e' ∧ w = w') ∧
        (g.nonterminals.map displayLabel).Nodup := by
  obtain ⟨hnormal, hident⟩ := isIdent_of_parse h hg
  have hplain : g.HasPlainLabels := fun p hp =>
    isPlainLabel_displayLabel (hident _ (Grammar.head_mem_nonterminals hp))
  refine ⟨⟨g.ruleIndex, Grammar.indexed_eq_ok_iff.mpr ⟨hnormal, rfl⟩, ?_⟩, ?_⟩
  · exact fun w w' e e' he he' => hnormal.eq_of_text_eq hplain he he'
  · exact List.pairwise_map.mpr <| g.nodup_nonterminals.imp_of_mem fun ha hb hne hshown =>
      hne (displayLabel_inj (hident _ ha) (hident _ hb) hshown)

/-- A grammar whose terminals are the brackets of the text of a tree. -/
def brackets : Grammar where
  start := "S"
  productions := [⟨"S", [.nonterminal "A#", .nonterminal "B"]⟩, ⟨"A#", [.terminal '[']⟩,
    ⟨"B", [.terminal ']']⟩]

/-- Only one word has the tree `[S [A- [[]] [B []]]]`. -/
theorem text_identifies_brackets : ∃ defn,
    parse .grammar "name: b\nrules:\n S -> A# B\n A# -> '['\n B -> ']'".toList = .ok defn ∧
      defn.automaton = .grammar brackets ∧
        ∃ r, brackets.indexed = .ok r ∧ (r.parse ['[', ']']).isSome ∧
          ∀ w e, r.parse w = some e → e.tree.text = "[S [A- [[]] [B []]]]" → w = ['[', ']'] := by
  obtain ⟨defn, hparse, hg⟩ : ∃ defn,
      parse .grammar "name: b\nrules:\n S -> A# B\n A# -> '['\n B -> ']'".toList = .ok defn ∧
        defn.automaton = .grammar brackets := ⟨_, rfl, rfl⟩
  obtain ⟨⟨r, hr, hidentifies⟩, -⟩ := text_identifies_tree hparse hg
  obtain rfl : brackets.ruleIndex = r := Except.ok.inj ((rfl : brackets.indexed = _).symm.trans hr)
  have htext : (brackets.ruleIndex.parse ['[', ']']).map (fun e => e.tree.text) =
      some "[S [A- [[]] [B []]]]" := by decide +kernel
  obtain ⟨e, he, htree⟩ := Option.map_eq_some_iff.mp htext
  refine ⟨defn, hparse, hg, _, hr, by rw [he]; rfl, fun w e' he' htree' => ?_⟩
  exact (hidentifies w _ e' e he' he (htree'.trans htree.symm)).2

end Description

end Acceptors
