import Acceptors.Proofs.Description.Assembly
import Acceptors.Proofs.Description.Gives
import Acceptors.Proofs.Description.Identifiers
import Acceptors.Proofs.Dfa.ClassNames

/-!
# State names of described automata

A name of a state is a run of letters, digits and a few signs, none of which is a brace or a comma.
Every state of a described automaton is named in one of its sections.

## Main definitions

* `Section.IsPlain`: no name in the section holds a brace or a comma

## Main results

* `isPlain_of_ident`, `gives_stateName`: what is read as a name
* `gives_dfaSections`: what is read as sections
* `isPlain_of_parse`: the states of a described automaton
-/

namespace Acceptors.Description

open Dfa (IsPlain)

/-! ## Names -/

theorem isPlain_of_ident {s rest : List Char} {name : String}
    (h : Token.ident s = some (name, rest)) : IsPlain name := by
  have hmarks : ∀ c ∈ ['\x7b', '\x7d', ','], Token.isIdentChar c = false := by
    intro c hc
    simp only [List.mem_cons, List.not_mem_nil, or_false] at hc
    rcases hc with rfl | rfl | rfl <;> rfl
  intro c hc hmark
  exact Token.ne_of_isIdentChar ((Token.isIdent_of_ident h).2 c hc) (hmarks c hmark) rfl

theorem gives_stateName : stateName.Gives IsPlain := by
  intro s name rest h
  rw [stateName, Reader.read_token, Token.stateName] at h
  split at h
  · cases h
  · exact isPlain_of_ident h

/-! ## Sections -/

/-- No name of a state in the section holds a brace or a comma. -/
def Section.IsPlain : Section → Prop
  | initial state => Dfa.IsPlain state
  | accepting states => ∀ state ∈ states, Dfa.IsPlain state
  | edges blocks => ∀ bs, blocks = .ok bs →
      ∀ b ∈ bs, Dfa.IsPlain b.1 ∧ ∀ line ∈ b.2, Dfa.IsPlain line.2
  | _ => True

namespace Section.IsPlain

variable {s : Section}

theorem initial (h : s.IsPlain) {state : String} (hs : s.initial? = some state) :
    Dfa.IsPlain state := by
  cases s with
  | initial given =>
    obtain rfl : given = state := Option.some.inj hs
    exact h
  | _ => cases hs

theorem accepting (h : s.IsPlain) {states : List String} (hs : s.accepting? = some states) :
    ∀ state ∈ states, Dfa.IsPlain state := by
  cases s with
  | accepting given =>
    obtain rfl : given = states := Option.some.inj hs
    exact h
  | _ => cases hs

theorem edges (h : s.IsPlain) {blocks : List (Block EdgeLine)} (hs : s.edges? = some (.ok blocks)) :
    ∀ b ∈ blocks, Dfa.IsPlain b.1 ∧ ∀ line ∈ b.2, Dfa.IsPlain line.2 := by
  cases s with
  | edges checked =>
    obtain rfl : checked = .ok blocks := Option.some.inj hs
    exact h blocks rfl
  | _ => cases hs

end Section.IsPlain

section

variable {α : Type} {P : α → Prop} {r : Reader α} {p : Phrase}

theorem gives_sectionOf {keyword : String} (h : r.Gives P) : (sectionOf p keyword r).Gives P :=
  .phrase (.after fun _ => h)

theorem gives_itemLines (h : r.Gives P) : (itemLines r).Gives fun l => ∀ a ∈ l, P a :=
  .many (.after fun _ => h)

theorem gives_block (h : r.Gives P) :
    (block p r).Gives fun b => IsPlain b.value.1 ∧ ∀ a ∈ b.value.2, P a := by
  refine Reader.Gives.located (P := fun b : Block α => IsPlain b.1 ∧ ∀ a ∈ b.2, P a) ?_
  refine .phrase (.bind gives_stateName fun state hstate => ?_)
  refine .after fun _ => .after fun _ => .after fun _ => .bind (gives_itemLines h) ?_
  exact fun items hitems => .pure ⟨hstate, hitems⟩

theorem gives_sections {P : Section → Prop} {r : Reader Section} (h : r.Gives P) :
    (sections p r).Gives fun l => ∀ s ∈ l, P s.value := by
  refine .phrase (.after fun _ => .after fun _ => .after fun _ => .bind h.located ?_)
  refine fun first hfirst => .after fun _ => .bind (gives_itemLines h.located) ?_
  refine fun rest hrest => .after fun _ => .after fun _ => .after fun _ => .after fun _ => .pure ?_
  exact fun s hs => (List.mem_cons.mp hs).elim (fun heq => heq ▸ hfirst) (hrest s)

end

theorem gives_edgeLine : edgeLine.Gives fun line => IsPlain line.2 :=
  .phrase <| .after fun _ => .after fun _ => .after fun _ => .after fun _ =>
    .bind gives_stateName fun _ htarget => .pure htarget

theorem gives_edgesSection : edgesSection.Gives Section.IsPlain := by
  have hlines : (Except.ok <$> edgeLine : Reader (Checked EdgeLine)).Gives
      fun x => ∀ line, x = .ok line → IsPlain line.2 := by
    refine .map (gives_edgeLine.mono fun line hline line' heq => ?_)
    obtain rfl := Except.ok.inj heq
    exact hline
  refine .map ((gives_sectionOf (gives_itemLines (gives_block hlines))).mono ?_)
  intro read hread blocks hblocks b hb
  -- an accepted block has been read as it is
  have hmem : (b.1, b.2.map Except.ok) ∈ read.map Located.value := by
    rw [← of_checkBlocks_eq_ok hblocks]
    exact List.mem_map_of_mem hb
  obtain ⟨x, hx, heq⟩ := List.mem_map.mp hmem
  have hplain := hread x hx
  rw [heq] at hplain
  exact ⟨hplain.1, fun line hline => hplain.2 _ (List.mem_map_of_mem hline) line rfl⟩

theorem gives_dfaSections : dfaSections.Gives fun l => ∀ s ∈ l, s.value.IsPlain := by
  have htrivial : ∀ {α : Type} {r : Reader α} {f : α → Section}, (∀ a, (f a).IsPlain) →
      (f <$> r).Gives Section.IsPlain := fun hf => .map fun _ a _ _ => hf a
  have hinitial : initialSection.Gives Section.IsPlain := .map (gives_sectionOf gives_stateName)
  have haccepting : acceptingSection.Gives Section.IsPlain :=
    .map (gives_sectionOf (.phrase (.listOf gives_stateName)))
  exact gives_sections <| .orElse (htrivial fun _ => trivial) <| .orElse hinitial <|
    .orElse haccepting <| .orElse (htrivial fun _ => trivial) <| .orElse gives_edgesSection <|
      htrivial fun _ => trivial

/-! ## States -/

variable {l : List (Located Section)}

theorem isPlain_of_initialState {blocks : List (Block EdgeLine)} {state : String}
    (hl : ∀ s ∈ l, s.value.IsPlain) (hblocks : ∀ b ∈ blocks, IsPlain b.1)
    (h : initialState l blocks = .ok state) : IsPlain state := by
  unfold initialState at h
  split at h
  · next given hgiven =>
    obtain rfl : given = state := Except.ok.inj h
    obtain ⟨s, hs, hview⟩ := found?_eq_some hgiven
    exact (hl s hs).initial hview
  · next first items rest _ =>
    obtain rfl : first = state := Except.ok.inj h
    exact hblocks _ List.mem_cons_self
  · cases h

theorem isPlain_of_mem_edgesOf {blocks : List (Block EdgeLine)} {e : Dfa.Edge}
    (hblocks : ∀ b ∈ blocks, IsPlain b.1 ∧ ∀ line ∈ b.2, IsPlain line.2) (he : e ∈ edgesOf blocks) :
    IsPlain e.source ∧ IsPlain e.target := by
  obtain ⟨⟨source, symbols, target⟩, hline, he⟩ := List.mem_flatMap.mp he
  obtain ⟨symbol, -, rfl⟩ := List.mem_map.mp he
  obtain ⟨b, hb, hline⟩ := List.mem_flatMap.mp hline
  obtain ⟨line, hmem, heq⟩ := List.mem_map.mp hline
  obtain ⟨rfl, rfl⟩ := Prod.mk.inj heq
  exact ⟨(hblocks b hb).1, (hblocks b hb).2 _ hmem⟩

theorem isPlain_of_dfaOf {name : String} {d : Dfa} (hl : ∀ s ∈ l, s.value.IsPlain)
    (h : dfaOf l = .ok (name, d)) : ∀ state ∈ d.names, IsPlain state := by
  obtain ⟨_, -, h⟩ := bind_eq_ok_iff.mp h
  obtain ⟨accepting, haccepting, h⟩ := bind_eq_ok_iff.mp h
  obtain ⟨checkedBlocks, hchecked, h⟩ := bind_eq_ok_iff.mp h
  obtain ⟨blocks, hblocks, h⟩ := bind_eq_ok_iff.mp h
  obtain ⟨initial, hinitial, h⟩ := bind_eq_ok_iff.mp h
  obtain ⟨d', hd, h⟩ := bind_eq_ok_iff.mp h
  obtain ⟨-, rfl⟩ := Prod.mk.inj (Except.ok.inj h)
  -- each of the three sections with names is plain
  obtain ⟨s, hs, hview⟩ := found?_eq_some (required_eq_ok_iff.mp haccepting)
  have hplainAccepting := (hl s hs).accepting hview
  obtain ⟨s', hs', hview'⟩ := found?_eq_some (required_eq_ok_iff.mp hchecked)
  rw [mapError_eq_ok_iff.mp hblocks] at hview'
  have hplainBlocks := (hl s' hs').edges hview'
  have hplainInitial := isPlain_of_initialState hl (fun b hb => (hplainBlocks b hb).1) hinitial
  intro state hstate
  rw [Dfa.names_of_ofEdges (mapError_eq_ok_iff.mp hd)] at hstate
  simp only [Dfa.namesOf, mem_distinct, List.cons_append, List.mem_cons, List.mem_append,
    List.mem_flatMap] at hstate
  rcases hstate with rfl | ⟨e, he, rfl | rfl | hnil⟩ | hstate
  · exact hplainInitial
  · exact (isPlain_of_mem_edgesOf hplainBlocks he).1
  · exact (isPlain_of_mem_edgesOf hplainBlocks he).2
  · cases hnil
  · exact hplainAccepting state hstate

/-- No state of an automaton that is read from a text bears a name with a brace or a comma. -/
theorem isPlain_of_parse {text : List Char} {defn : Definition} {d : Dfa}
    (h : parse .dfa text = .ok defn) (hd : defn.automaton = .dfa d) :
    ∀ state ∈ d.names, IsPlain state := by
  obtain ⟨l, name, d', hl, -, hassemble, rfl⟩ := parseWith_eq_ok_iff.mp h
  obtain ⟨rest, hread⟩ := readSections_eq_ok_iff.mp hl
  obtain rfl : d' = d := Automaton.dfa.inj hd
  exact isPlain_of_dfaOf (gives_dfaSections _ _ _ hread) hassemble

end Acceptors.Description
