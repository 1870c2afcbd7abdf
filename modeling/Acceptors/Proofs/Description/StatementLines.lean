import Acceptors.Proofs.Description.Identifiers
import Acceptors.Proofs.Description.Spelling

/-!
# Written statements

A statement that is written down is read back, in front of the end of a line. A label is told from
the heading of a section, a variable from the words of instructions, and each form of instruction
from the forms that are tried before it.

## Main definitions

* `instructionLine`: reads an instruction

## Main results

* `Token.label_append`, `Token.variableName_append`: names are read back
* `read_operand_append`: operands are read back
* `read_instructionLine_append`, `read_statementLine_append`: lines are read back
-/

namespace Acceptors.Description

open Goto (Instruction Operand Operator Relation Statement)

namespace Token

variable {s t u : List Char}

theorem isIdentChar_of_isLabelChar {c : Char} (h : isLabelChar c = true) :
    isIdentChar c = true := by
  rw [isLabelChar, Bool.or_eq_true, decide_eq_true_eq] at h
  rcases h with h | rfl
  · rw [isIdentChar, h, Bool.true_or]
  · rfl

/-- Nothing is skipped in front of a letter, a digit or an underscore. -/
theorem skip_of_isLabelChar (h : ∀ c ∈ s.head?, isLabelChar c = true) :
    skipBlanks s = s ∧ skipLines s = s :=
  skip_of_isIdentChar fun c hc => isIdentChar_of_isLabelChar (h c hc)

/-! ## Names -/

/-- Every label could be a name of a state. -/
theorem isIdent_of_isLabel {l : String} (hl : IsLabel l) : IsIdent l :=
  ⟨hl.1, fun c hc => isIdentChar_of_isLabelChar (hl.2 c hc)⟩

theorem skipBlanks_label {l : String} (hl : IsLabel l) (u : List Char) :
    skipBlanks (l.toList ++ u) = l.toList ++ u :=
  (isIdent_of_isLabel hl).skipBlanks_append u

theorem run_label {l : String} (hl : IsLabel l) (hrest : ∀ c ∈ u.head?, isLabelChar c = false) :
    ((run isLabelChar (l.toList ++ u)).map fun (t, u) => (String.ofList t, u)) =
      some (l, u) := by
  rw [run_append (by simpa using hl.1) hl.2 hrest]
  simp

/-- A label is read back, unless it is a keyword in front of a colon. -/
theorem label_append {l : String} (hl : IsLabel l)
    (hrest : ∀ c ∈ u.head?, isLabelChar c = false)
    (hkeyword : l ∈ programKeywords → u.head? ≠ some ':') :
    label (l.toList ++ u) = some (l, u) := by
  have hchars : ∀ k ∈ programKeywords, k.toList.all isLabelChar = true := by decide
  have hahead : keywordAhead programKeywords (l.toList ++ u) = false := by
    rw [keywordAhead, List.any_eq_false]
    intro k hk hbegins
    obtain ⟨w, hw⟩ := List.isPrefixOf_iff_prefix.mp hbegins
    rw [List.append_assoc] at hw
    -- the keyword is the whole label, and a colon follows it
    have heq := eq_of_append_eq (List.all_eq_true.mp (hchars k hk)) hl.2 (by simp; rfl) hrest hw
    rw [heq] at hw
    refine hkeyword (String.toList_inj.mp heq ▸ hk) ?_
    rw [← List.append_cancel_left hw]
    rfl
  rw [label, hahead]
  exact run_label hl hrest

/-- A variable is read back. -/
theorem variableName_append {x : String} (hx : IsVariable x)
    (hrest : ∀ c ∈ u.head?, isLabelChar c = false) :
    variableName (x.toList ++ u) = some (x, u) := by
  have hchars : ∀ k ∈ instructionWords, k.toList.all isLabelChar = true := by decide
  have hahead : instructionWordAhead (x.toList ++ u) = false := by
    rw [instructionWordAhead, List.any_eq_false]
    intro k hk hword
    rw [Bool.and_eq_true] at hword
    obtain ⟨hbegins, hend⟩ := hword
    obtain ⟨w, hw⟩ := List.isPrefixOf_iff_prefix.mp hbegins
    rw [← hw, ← String.length_toList, List.drop_left, Bool.not_eq_true'] at hend
    -- the word ends where the name does, so it is the whole name
    have heq := eq_of_append_eq (List.all_eq_true.mp (hchars k hk)) hx.isLabel.2
      (fun c hc => by rw [hc] at hend; exact hend) hrest hw
    exact hx.not_word (String.toList_inj.mp heq ▸ hk)
  have hhead : (x.toList ++ u).head?.any Char.isAlpha = true := by
    have hne : x.toList ≠ [] := by simpa using hx.isLabel.1
    rw [List.head?_append_of_ne_nil _ hne]
    exact hx.head
  rw [variableName, hahead, hhead]
  exact run_label hx.isLabel hrest

theorem isLabelChar_of_isDigit {c : Char} (h : c.isDigit = true) : isLabelChar c = true := by
  have halphanum : c.isAlphanum = true := Bool.or_eq_true_iff.mpr (.inr h)
  rw [isLabelChar, halphanum, Bool.true_or]

theorem not_isDigit_of_not_isLabelChar {c : Char} (h : isLabelChar c = false) :
    c.isDigit = false := by
  rw [Bool.eq_false_iff]
  intro hdigit
  rw [isLabelChar_of_isDigit hdigit] at h
  cases h

theorem isLabel_toString (n : Nat) : IsLabel (toString n) :=
  ⟨(isIdent_toString n).1, fun _ hc => isLabelChar_of_isDigit (Text.isDigit_of_mem_toString hc)⟩

end Token

/-! ## Operands and signs -/

section

variable {u : List Char}

theorem not_isDigit_of_isAlpha {c : Char} (h : c.isAlpha = true) : c.isDigit = false := by
  rw [Bool.eq_false_iff]
  intro hdigit
  have hletter := toNat_of_isAlpha h
  have hnumber := toNat_of_isDigit hdigit
  omega

/-- No number stands where a variable does. -/
theorem digits_variable {x : String} (hx : IsVariable x) (s : List Char) :
    Token.digits (x.toList ++ s) = none := by
  obtain ⟨c, t, hlist, hc⟩ := hx.exists_cons
  rw [hlist, List.cons_append, Token.digits, Token.run_eq,
    List.takeWhile_cons_of_neg (by simp [not_isDigit_of_isAlpha hc]), if_pos rfl]

/-- An operand is read back. -/
theorem read_operand_append {a : Operand} (ha : a.IsSpelled)
    (hrest : ∀ c ∈ u.head?, Token.isLabelChar c = false) :
    operand.read (a.text.toList ++ u) = some (.ok a, u) := by
  cases a with
  | lit n =>
    obtain ⟨hn, hle⟩ := ha
    obtain ⟨k, rfl⟩ := Int.eq_ofNat_of_zero_le hn
    have htext : (Operand.lit k).text.toList = (toString k).toList := rfl
    have hdigits := Token.digits_append k fun c hc =>
      Token.not_isDigit_of_not_isLabelChar (hrest c hc)
    rw [htext, operand, Reader.read_orElse, Reader.read_map, Reader.read_located,
      Reader.read_token, hdigits]
    simp only [Option.map_some, Option.some_or, literalOf, Text.numberOf_toString]
    rw [if_pos hle]
  | var x =>
    rw [Operand.text, operand, Reader.read_orElse, Reader.read_map, Reader.read_located,
      Reader.read_token, digits_variable ha, Reader.read_map, variableName, Reader.read_token,
      Token.variableName_append ha hrest]
    rfl

theorem read_operator_append (op : Operator) (s : List Char) :
    operator.read (op.text.toList ++ ' ' :: s) = some (op, ' ' :: s) := by
  cases op <;> rfl

theorem read_relation_append (r : Relation) (s : List Char) :
    relation.read (r.text.toList ++ ' ' :: s) = some (r, ' ' :: s) := by
  cases r <;> rfl

theorem skipBlanks_operator (op : Operator) (s : List Char) :
    skipBlanks (op.text.toList ++ s) = op.text.toList ++ s := by
  cases op <;> rfl

theorem skipBlanks_relation (r : Relation) (s : List Char) :
    skipBlanks (r.text.toList ++ s) = r.text.toList ++ s := by
  cases r <;> rfl

theorem read_assignee_append {x : String} (hx : IsVariable x) (s : List Char) :
    assignee.read (x.toList ++ " := ".toList ++ s) = some (x, skipBlanks s) := by
  have hname := Token.variableName_append hx (u := " := ".toList ++ s) (by simp; rfl)
  rw [← List.append_assoc] at hname
  simp only [assignee, variableName, Reader.read_bind, Reader.read_token, hname, Option.bind_some,
    Reader.read_skip]
  rfl

theorem isLabel_text {a : Operand} (ha : a.IsSpelled) : IsLabel a.text := by
  cases a with
  | lit n =>
    obtain ⟨k, rfl⟩ := Int.eq_ofNat_of_zero_le ha.1
    exact Token.isLabel_toString k
  | var x => exact ha.isLabel

/-! ## Instructions -/

/-- Reads an instruction. -/
def instructionLine : Reader (Checked Instruction) :=
  computeLine <|> assignLine <|> haltLine <|> jumpLine <|> branchLine

/-- An assignment of a result is read back. -/
theorem read_computeLine_append {x : String} {a b : Operand} (op : Operator) (hx : IsVariable x)
    (ha : a.IsSpelled) (hb : b.IsSpelled)
    (hrest : ∀ c ∈ u.head?, Token.isLabelChar c = false) :
    computeLine.read ((Instruction.compute x a op b).text.toList ++ u) =
      some (.ok (.compute x a op b), u) := by
  have hleft := read_operand_append ha (u := ' ' :: (op.text.toList ++ ' ' :: (b.text.toList ++ u)))
    (by simp; rfl)
  have htext : (Instruction.compute x a op b).text.toList ++ u = x.toList ++ " := ".toList ++
      (a.text.toList ++ ' ' :: (op.text.toList ++ ' ' :: (b.text.toList ++ u))) := by
    simp [Instruction.text]
  rw [htext]
  simp only [computeLine, Reader.read_phrase, Reader.read_bind, read_assignee_append hx,
    Option.bind_some, Token.skipBlanks_label (isLabel_text ha), hleft, Reader.read_skip,
    skipBlanks_blank, skipBlanks_operator, read_operator_append,
    Token.skipBlanks_label (isLabel_text hb), read_operand_append hb hrest]
  rfl

/-- No operator stands behind a statement. -/
theorem read_operator_eq_none (h : EndsLine u) : operator.read (skipBlanks u) = none := by
  rcases h with rfl | ⟨k, rfl⟩ <;> rfl

/-- An assignment of an operand is read back, and it is not taken for one of a result. -/
theorem read_assignLine_append {x : String} {a : Operand} (hx : IsVariable x) (ha : a.IsSpelled)
    (hrest : EndsLine u) :
    computeLine.read ((Instruction.assign x a).text.toList ++ u) = none ∧
      assignLine.read ((Instruction.assign x a).text.toList ++ u) =
        some (.ok (.assign x a), u) := by
  have htext : (Instruction.assign x a).text.toList ++ u =
      x.toList ++ " := ".toList ++ (a.text.toList ++ u) := by
    simp [Instruction.text]
  rw [htext]
  simp only [computeLine, assignLine, Reader.read_phrase, Reader.read_bind, read_assignee_append hx,
    Option.bind_some, Token.skipBlanks_label (isLabel_text ha),
    read_operand_append ha (hrest.head rfl), Reader.read_skip, read_operator_eq_none hrest,
    Option.bind_none]
  exact ⟨trivial, rfl⟩

/-- No assignment starts where a word of an instruction stands. -/
theorem read_assignment_eq_none {s : List Char} (h : Token.instructionWordAhead s = true) :
    computeLine.read s = none ∧ assignLine.read s = none := by
  have hname : variableName.read s = none := by
    rw [variableName, Reader.read_token, Token.variableName, h]
    rfl
  have hassignee : assignee.read s = none := by
    rw [assignee, Reader.read_bind, hname]
    rfl
  rw [computeLine, assignLine, Reader.read_phrase, Reader.read_phrase, Reader.read_bind,
    Reader.read_bind, hassignee]
  exact ⟨rfl, rfl⟩

theorem read_destination_append {l : String} (hl : IsLabel l) (hrest : EndsLine u) :
    destination.read ("goto ".toList ++ (l.toList ++ u)) = some (l, u) := by
  have hlabel := Token.label_append hl (hrest.head rfl) fun _ => by
    rcases hrest with rfl | ⟨k, rfl⟩ <;> simp
  have hlit : (Reader.lit "goto").read ("goto ".toList ++ (l.toList ++ u)) =
      some ((), ' ' :: (l.toList ++ u)) := rfl
  simp only [destination, Reader.read_bind, hlit, Option.bind_some, Reader.read_skip,
    skipBlanks_blank, Token.skipBlanks_label hl, label, Reader.read_token, hlabel]

theorem read_branchLine_append {a b : Operand} {l : String} (rel : Relation) (ha : a.IsSpelled)
    (hb : b.IsSpelled) (hl : IsLabel l) (hrest : EndsLine u) :
    branchLine.read ((Instruction.branch a rel b l).text.toList ++ u) =
      some (.ok (.branch a rel b l), u) := by
  have hleft := read_operand_append ha
    (u := ' ' :: (rel.text.toList ++ ' ' :: (b.text.toList ++ ' ' :: ("goto ".toList ++
      (l.toList ++ u))))) (by simp; rfl)
  have hright := read_operand_append hb (u := ' ' :: ("goto ".toList ++ (l.toList ++ u)))
    (by simp; rfl)
  have htext : (Instruction.branch a rel b l).text.toList ++ u = "if ".toList ++
      (a.text.toList ++ ' ' :: (rel.text.toList ++ ' ' :: (b.text.toList ++ ' ' ::
        ("goto ".toList ++ (l.toList ++ u))))) := by
    simp [Instruction.text]
  have hlit : ∀ s, (Reader.lit "if").read ("if ".toList ++ s) = some ((), ' ' :: s) := fun _ => rfl
  have hgoto : ∀ s, skipBlanks ("goto ".toList ++ s) = "goto ".toList ++ s := fun _ => rfl
  rw [htext]
  simp only [branchLine, Reader.read_phrase, Reader.read_bind, hlit, Option.bind_some,
    Reader.read_skip, skipBlanks_blank, Token.skipBlanks_label (isLabel_text ha), hleft,
    skipBlanks_relation, read_relation_append, Token.skipBlanks_label (isLabel_text hb), hright,
    hgoto, read_destination_append hl hrest]
  rfl

/-- An instruction is read back. -/
theorem read_instructionLine_append {i : Instruction} (hi : i.IsSpelled) (hrest : EndsLine u) :
    instructionLine.read (i.text.toList ++ u) = some (.ok i, u) := by
  -- the forms are tried in order, so each case has to exclude those before it
  simp only [instructionLine, Reader.read_orElse]
  cases i with
  | assign x a =>
    obtain ⟨hcompute, hassign⟩ := read_assignLine_append hi.1 hi.2 hrest
    rw [hcompute, hassign]
    rfl
  | compute x a op b =>
    rw [read_computeLine_append op hi.1 hi.2.1 hi.2.2 (hrest.head rfl)]
    rfl
  | jump l =>
    have htext : (Instruction.jump l).text.toList ++ u = "goto ".toList ++ (l.toList ++ u) := by
      simp [Instruction.text]
    rw [htext]
    obtain ⟨hcompute, hassign⟩ :=
      read_assignment_eq_none (s := "goto ".toList ++ (l.toList ++ u)) rfl
    have hhalt : haltLine.read ("goto ".toList ++ (l.toList ++ u)) = none := rfl
    rw [hcompute, hassign, hhalt, jumpLine, Reader.read_map, Reader.read_phrase,
      read_destination_append hi hrest]
    rfl
  | branch a rel b l =>
    have htext : ∃ s, (Instruction.branch a rel b l).text.toList ++ u = "if ".toList ++ s :=
      ⟨_, by simp [Instruction.text]; rfl⟩
    obtain ⟨s, hs⟩ := htext
    obtain ⟨hcompute, hassign⟩ := read_assignment_eq_none (s := "if ".toList ++ s) rfl
    have hhalt : haltLine.read ("if ".toList ++ s) = none := rfl
    have hjump : jumpLine.read ("if ".toList ++ s) = none := rfl
    rw [← hs] at hcompute hassign hhalt hjump
    rw [hcompute, hassign, hhalt, hjump, read_branchLine_append rel hi.1 hi.2.1 hi.2.2 hrest]
    rfl
  | halt =>
    rcases hrest with rfl | ⟨k, rfl⟩ <;> rfl

theorem skipBlanks_instruction {i : Instruction} (hi : i.IsSpelled) (s : List Char) :
    skipBlanks (i.text.toList ++ s) = i.text.toList ++ s := by
  cases i with
  | assign x a =>
    simp only [Instruction.text, String.toList_append, List.append_assoc]
    exact Token.skipBlanks_label hi.1.isLabel _
  | compute x a op b =>
    simp only [Instruction.text, String.toList_append, List.append_assoc]
    exact Token.skipBlanks_label hi.1.isLabel _
  | jump l => exact (Token.skip_of_isLabelChar (by simp [Instruction.text]; decide)).1
  | branch a rel b l => exact (Token.skip_of_isLabelChar (by simp [Instruction.text]; decide)).1
  | halt => rfl

/-- A statement is read back, if its label is no keyword. -/
theorem read_statementLine_append {s : Statement} (hs : s.IsSpelled)
    (hkeyword : s.label ∉ Token.programKeywords) (hrest : EndsLine u) :
    statementLine.read (s.text.toList ++ u) = some (.ok s, u) := by
  have hlabel := Token.label_append hs.1 (u := ": ".toList ++ (s.instruction.text.toList ++ u))
    (by simp; rfl) fun h => absurd h hkeyword
  have htext : s.text.toList ++ u =
      s.label.toList ++ (": ".toList ++ (s.instruction.text.toList ++ u)) := by
    simp [Statement.text]
  have hcolon : ∀ t, (Reader.lit ":").read (skipBlanks (": ".toList ++ t)) = some ((), ' ' :: t) :=
    fun _ => rfl
  have hinstruction := read_instructionLine_append hs.2 hrest
  simp only [instructionLine] at hinstruction
  rw [htext]
  simp only [statementLine, label, Reader.read_phrase, Reader.read_bind, Reader.read_token, hlabel,
    Option.bind_some, Reader.read_skip, hcolon, skipBlanks_blank,
    skipBlanks_instruction hs.2, hinstruction]
  rfl

end

end Acceptors.Description
