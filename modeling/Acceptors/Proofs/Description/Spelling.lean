import Acceptors.Proofs.Description.Breaks
import Acceptors.Proofs.Description.StateNames
import Acceptors.Proofs.Goto.Consistency

/-!
# The spelling of programs

A program that is read from a text is spelled as the format asks: labels and variables are runs of
letters, digits and underscores, a variable starts with a letter and is no word of an instruction,
and a number is not negative and fits into a value.

## Main definitions

* `IsLabel`, `IsVariable`: how names are spelled
* `Operand.IsSpelled`, `Instruction.IsSpelled`, `Statement.IsSpelled`, `Program.IsSpelled`

## Main results

* `isLabel_of_label`, `isVariable_of_variableName`: what is read as a name
* `isSpelled_of_parse`: a program that is read from a text
-/

namespace Acceptors

/-! ## Spelling -/

/-- A run of letters, digits and underscores. -/
def IsLabel (l : String) : Prop :=
  l ≠ "" ∧ ∀ c ∈ l.toList, Description.Token.isLabelChar c = true

/-- A run of letters, digits and underscores that starts with a letter and is no word of an
instruction. -/
structure IsVariable (x : String) : Prop where
  isLabel : IsLabel x
  head : x.toList.head?.any Char.isAlpha = true
  not_word : x ∉ Description.Token.instructionWords

theorem IsVariable.exists_cons {x : String} (hx : IsVariable x) :
    ∃ c t, x.toList = c :: t ∧ c.isAlpha = true := by
  have hhead := hx.head
  cases hlist : x.toList with
  | nil => rw [hlist] at hhead; cases hhead
  | cons c t =>
    rw [hlist] at hhead
    exact ⟨c, t, rfl, hhead⟩

namespace Goto

/-- A number from zero to the largest value, or a variable. -/
def Operand.IsSpelled : Operand → Prop
  | lit n => 0 ≤ n ∧ n ≤ greatestValue
  | var x => IsVariable x

/-- All names and numbers of an instruction are spelled as they should. -/
def Instruction.IsSpelled : Instruction → Prop
  | assign x a => IsVariable x ∧ a.IsSpelled
  | compute x a _ b => IsVariable x ∧ a.IsSpelled ∧ b.IsSpelled
  | jump l => IsLabel l
  | branch a _ b l => a.IsSpelled ∧ b.IsSpelled ∧ IsLabel l
  | halt => True

/-- The label and the instruction are spelled as they should. -/
def Statement.IsSpelled (s : Statement) : Prop := IsLabel s.label ∧ s.instruction.IsSpelled

/-- All names and numbers of a program are spelled as they should. -/
structure Program.IsSpelled (p : Program) : Prop where
  input : IsVariable p.input
  output : IsVariable p.output
  statement : ∀ s ∈ p.statements, s.IsSpelled

end Goto

namespace Description

open Goto (Instruction Operand Program Statement)

/-! ## Names -/

namespace Token

variable {p : Char → Bool} {s t rest : List Char}

theorem of_run_eq_some (h : run p s = some (t, rest)) :
    t ≠ [] ∧ (∀ c ∈ t, p c = true) ∧ s = t ++ rest ∧ ∀ c ∈ rest.head?, p c = false := by
  rw [run_eq] at h
  split at h
  · cases h
  · next hne =>
    obtain ⟨rfl, rfl⟩ := Prod.mk.inj (Option.some.inj h)
    exact ⟨hne, fun c hc => List.all_eq_true.mp List.all_takeWhile c hc,
      List.takeWhile_append_dropWhile.symm, head?_dropWhile_eq_false⟩

theorem isLabel_of_run {l : String}
    (h : ((run isLabelChar s).map fun (t, rest) => (String.ofList t, rest)) = some (l, rest)) :
    IsLabel l ∧ s = l.toList ++ rest ∧ ∀ c ∈ rest.head?, isLabelChar c = false := by
  obtain ⟨⟨t, rest'⟩, hrun, heq⟩ := Option.map_eq_some_iff.mp h
  obtain ⟨rfl, rfl⟩ := Prod.mk.inj heq
  obtain ⟨hne, hchars, hs, hrest⟩ := of_run_eq_some hrun
  rw [IsLabel, String.toList_ofList]
  exact ⟨⟨by simpa using hne, hchars⟩, hs, hrest⟩

theorem isLabel_of_label {l : String} (h : label s = some (l, rest)) : IsLabel l := by
  rw [label] at h
  split at h
  · cases h
  · exact (isLabel_of_run h).1

theorem isVariable_of_variableName {x : String} (h : variableName s = some (x, rest)) :
    IsVariable x := by
  rw [variableName] at h
  split at h
  · cases h
  · next hahead =>
    obtain ⟨hlabel, rfl, hrest⟩ := isLabel_of_run h
    simp only [Bool.or_eq_true, Bool.not_eq_true', not_or, Bool.not_eq_true, Bool.not_eq_false]
      at hahead
    obtain ⟨hahead, hhead⟩ := hahead
    have hne : x.toList ≠ [] := by simpa using hlabel.1
    refine ⟨hlabel, ?_, fun hword => ?_⟩
    · rwa [List.head?_append_of_ne_nil _ hne] at hhead
    · -- the whole name is the word, as it ends where the word does
      have hnone : rest.head?.any isLabelChar = false := by
        cases hc : rest.head? with
        | none => rfl
        | some c => exact hrest c hc
      have hstands : instructionWordAhead (x.toList ++ rest) = true := by
        refine List.any_eq_true.mpr ⟨x, hword, ?_⟩
        rw [← String.length_toList, List.drop_left, hnone,
          List.isPrefixOf_iff_prefix.mpr (List.prefix_append _ _)]
        rfl
      rw [hstands] at hahead
      cases hahead

end Token

/-! ## Checked values -/

/-- The value has the property, if it is none that is complained about. -/
def Accepted {α : Type} (P : α → Prop) (x : Checked α) : Prop := ∀ a, x = .ok a → P a

namespace Accepted

variable {α β : Type} {P : α → Prop} {Q : β → Prop} {x : Checked α}

theorem ok {a : α} (h : P a) : Accepted P (.ok a) := fun _ hb => Except.ok.inj hb ▸ h

theorem bind {f : α → Checked β} (h : Accepted P x) (hf : ∀ a, P a → Accepted Q (f a)) :
    Accepted Q (x >>= f) := by
  intro b hb
  obtain ⟨a, ha, hb⟩ := bind_eq_ok_iff.mp hb
  exact hf a (h a ha) b hb

theorem map {f : α → β} (h : Accepted P x) (hf : ∀ a, P a → Q (f a)) : Accepted Q (x.map f) := by
  intro b hb
  obtain ⟨a, ha, rfl⟩ := map_eq_ok_iff.mp hb
  exact hf a (h a ha)

theorem gather {l : List (Checked α)} (h : ∀ x ∈ l, Accepted P x) :
    Accepted (fun as => ∀ a ∈ as, P a) (gather l) := by
  intro as has a ha
  rw [gather_eq_ok_iff] at has
  exact h (.ok a) (has ▸ List.mem_map_of_mem ha) a rfl

end Accepted

/-! ## Statements -/

theorem gives_label : label.Gives IsLabel := fun _ _ _ h => Token.isLabel_of_label h

theorem gives_variableName : variableName.Gives IsVariable :=
  fun _ _ _ h => Token.isVariable_of_variableName h

theorem gives_operand : operand.Gives (Accepted Operand.IsSpelled) := by
  refine .orElse (.map fun s x t _ => ?_) (.map fun s x t h => .ok (gives_variableName s x t h))
  intro a ha
  rw [literalOf] at ha
  split at ha
  · next hle =>
    obtain rfl := Except.ok.inj ha
    exact ⟨Int.natCast_nonneg _, hle⟩
  · cases ha

theorem gives_assignee : assignee.Gives IsVariable :=
  .bind gives_variableName fun _ hx => .after fun _ => .after fun _ => .after fun _ => .pure hx

theorem gives_computeLine : computeLine.Gives (Accepted Instruction.IsSpelled) := by
  refine .phrase <| .bind gives_assignee fun x hx => .bind gives_operand fun a ha => ?_
  refine .after fun _ => .after fun op => .after fun _ => .bind gives_operand fun b hb => .pure ?_
  exact ha.bind fun _ ha => hb.bind fun _ hb => .ok ⟨hx, ha, hb⟩

theorem gives_assignLine : assignLine.Gives (Accepted Instruction.IsSpelled) :=
  .phrase <| .bind gives_assignee fun _ hx => .bind gives_operand fun _ ha =>
    .pure (ha.map fun _ ha => ⟨hx, ha⟩)

theorem gives_haltLine : haltLine.Gives (Accepted Instruction.IsSpelled) :=
  .map fun _ _ _ _ => .ok trivial

theorem gives_destination : destination.Gives IsLabel :=
  .after fun _ => .after fun _ => gives_label

theorem gives_jumpLine : jumpLine.Gives (Accepted Instruction.IsSpelled) :=
  .map fun s l t h => .ok (gives_destination s l t h)

theorem gives_branchLine : branchLine.Gives (Accepted Instruction.IsSpelled) := by
  refine .phrase <| .after fun _ => .after fun _ => .bind gives_operand fun a ha => ?_
  refine .after fun _ => .after fun rel => .after fun _ => .bind gives_operand fun b hb => ?_
  refine .after fun _ => .bind gives_destination fun l hl => .pure ?_
  exact ha.bind fun _ ha => hb.bind fun _ hb => .ok ⟨ha, hb, hl⟩

theorem gives_statementLine : statementLine.Gives (Accepted Statement.IsSpelled) := by
  refine .phrase <| .bind gives_label fun l hl => .after fun _ => .after fun _ => .after fun _ => ?_
  refine .bind (.orElse gives_computeLine <| .orElse gives_assignLine <| .orElse gives_haltLine <|
    .orElse gives_jumpLine gives_branchLine) fun i hi => .pure ?_
  exact hi.map fun _ hi => ⟨hl, hi⟩

/-! ## Sections -/

/-- All names and numbers of the section are spelled as they should. -/
def Section.IsSpelled : Section → Prop
  | input x => IsVariable x
  | output x => IsVariable x
  | program statements => Accepted (fun l => ∀ s ∈ l, s.IsSpelled) statements
  | _ => True

namespace Section.IsSpelled

variable {s : Section}

theorem input (h : s.IsSpelled) {x : String} (hs : s.input? = some x) : IsVariable x := by
  cases s with
  | input given =>
    obtain rfl : given = x := Option.some.inj hs
    exact h
  | _ => cases hs

theorem output (h : s.IsSpelled) {x : String} (hs : s.output? = some x) : IsVariable x := by
  cases s with
  | output given =>
    obtain rfl : given = x := Option.some.inj hs
    exact h
  | _ => cases hs

theorem program (h : s.IsSpelled) {statements : Checked (List Statement)}
    (hs : s.program? = some statements) : Accepted (fun l => ∀ s ∈ l, s.IsSpelled) statements := by
  cases s with
  | program given =>
    obtain rfl : given = statements := Option.some.inj hs
    exact h
  | _ => cases hs

end Section.IsSpelled

theorem gives_programSections : programSections.Gives fun l => ∀ s ∈ l, s.value.IsSpelled := by
  have htrivial : ∀ {α : Type} {r : Reader α} {f : α → Section}, (∀ a, (f a).IsSpelled) →
      (f <$> r).Gives Section.IsSpelled := fun hf => .map fun _ a _ _ => hf a
  have hinput : inputSection.Gives Section.IsSpelled := .map (gives_sectionOf gives_variableName)
  have houtput : outputSection.Gives Section.IsSpelled := .map (gives_sectionOf gives_variableName)
  have hstatements : statementsSection.Gives Section.IsSpelled :=
    .map ((gives_sectionOf (gives_itemLines gives_statementLine)).mono fun _ h => .gather h)
  exact gives_sections <| .orElse (htrivial fun _ => trivial) <| .orElse hinput <|
    .orElse houtput <| .orElse (htrivial fun _ => trivial) <| .orElse hstatements <|
      htrivial fun _ => trivial

/-! ## Programs -/

/-- A start label is all that is added to a program. -/
theorem eq_of_startedAt {p q : Program} {start : Option String} (h : startedAt p start = .ok q) :
    q.input = p.input ∧ q.output = p.output ∧ q.statements = p.statements := by
  cases start with
  | none =>
    obtain rfl := Except.ok.inj h
    exact ⟨rfl, rfl, rfl⟩
  | some label =>
    obtain ⟨_, -, rfl⟩ := map_eq_ok_iff.mp h
    exact ⟨rfl, rfl, rfl⟩

theorem isSpelled_of_programOf {l : List (Located Section)} {name : String} {p : Program}
    (hl : ∀ s ∈ l, s.value.IsSpelled) (h : programOf l = .ok (name, p)) : p.IsSpelled := by
  obtain ⟨_, -, h⟩ := bind_eq_ok_iff.mp h
  obtain ⟨input, hinput, h⟩ := bind_eq_ok_iff.mp h
  obtain ⟨output, houtput, h⟩ := bind_eq_ok_iff.mp h
  obtain ⟨checked, hchecked, h⟩ := bind_eq_ok_iff.mp h
  obtain ⟨statements, hstatements, h⟩ := bind_eq_ok_iff.mp h
  obtain ⟨p₀, hplain, h⟩ := bind_eq_ok_iff.mp h
  obtain ⟨q, hstarted, h⟩ := bind_eq_ok_iff.mp h
  obtain ⟨-, rfl⟩ := Prod.mk.inj (Except.ok.inj h)
  have hinput : IsVariable input := by
    obtain ⟨s, hs, hview⟩ := found?_eq_some (required_eq_ok_iff.mp hinput)
    exact (hl s hs).input hview
  have houtput : IsVariable output := by
    obtain ⟨s, hs, hview⟩ := found?_eq_some (required_eq_ok_iff.mp houtput)
    exact (hl s hs).output hview
  have hspelled : ∀ s ∈ statements, s.IsSpelled := by
    obtain ⟨s, hs, hview⟩ := found?_eq_some (required_eq_ok_iff.mp hchecked)
    exact (hl s hs).program hview statements (mapError_eq_ok_iff.mp hstatements)
  obtain ⟨_, -, rfl⟩ := map_eq_ok_iff.mp (mapError_eq_ok_iff.mp hplain)
  obtain ⟨hin, hout, hst⟩ := eq_of_startedAt (mapError_eq_ok_iff.mp hstarted)
  exact ⟨hin ▸ hinput, hout ▸ houtput, hst ▸ hspelled⟩

/-- A program that is read from a text is spelled as it should. -/
theorem isSpelled_of_parse {text : List Char} {d : Definition} {p : Program}
    (h : parse .goto text = .ok d) (hp : d.automaton = .goto p) : p.IsSpelled := by
  obtain ⟨l, name, p', hl, -, hassemble, rfl⟩ := parseWith_eq_ok_iff.mp h
  obtain ⟨rest, hread⟩ := readSections_eq_ok_iff.mp hl
  obtain rfl : p' = p := Automaton.goto.inj hp
  exact isSpelled_of_programOf (gives_programSections _ _ _ hread) hassemble

end Description

end Acceptors
