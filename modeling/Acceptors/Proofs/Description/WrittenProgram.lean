import Acceptors.Proofs.Description.StatementLines
import Acceptors.Proofs.Description.WrittenLines
import Acceptors.Proofs.Simulation.Ready

/-!
# Written programs

A program that was read from a text can be written down, one section or statement a line, under any
name that fits on a line. Read again, the lines describe the same program, if none of its labels is
the keyword of a section.

## Main definitions

* `statementLines`, `headingSections`: the lines and the sections of a written program

## Main results

* `readsBack_statement`: the lines of statements are read back
* `exists_sections`: the lines of a program are read as its sections
* `parse_ofProgram`: writing a program and reading it leads back to it
-/

namespace Acceptors.Description

open Goto (Program Statement)
open Written (Line joined)

/-! ## Headings -/

section

variable {x l : String}

theorem readsBack_variableName (hx : IsVariable x) :
    variableName.ReadsBack id EndsLine x.toList x :=
  Reader.readsBack_id (fun u _ => (Token.isIdent_of_isLabel hx.isLabel).skipLines_append u)
    fun _ hu => Reader.reads_of_read (Token.variableName_append hx (hu.head rfl))

theorem readsBack_input (hx : IsVariable x) :
    (sectionReader .goto).ReadsBack id EndsLine (Written.field "input" x.toList) (.input x) := by
  refine readsBack_field [nameSection] rfl (fun u => ?_) (fun _ => rfl) (readsBack_variableName hx)
  simp only [List.forall_mem_cons]
  exact ⟨rfl, nofun⟩

theorem readsBack_output (hx : IsVariable x) :
    (sectionReader .goto).ReadsBack id EndsLine (Written.field "output" x.toList) (.output x) := by
  refine readsBack_field [nameSection, inputSection] rfl (fun u => ?_) (fun _ => rfl)
    (readsBack_variableName hx)
  simp only [List.forall_mem_cons]
  exact ⟨rfl, rfl, nofun⟩

theorem readsBack_start (hl : IsLabel l) :
    (sectionReader .goto).ReadsBack id EndsLine (Written.field "start" l.toList) (.start l) := by
  have hident := Token.isIdent_of_isLabel hl
  refine readsBack_field [nameSection, inputSection, outputSection] rfl (fun u => ?_)
    (fun _ => rfl) (Reader.readsBack_ident hident)
  simp only [List.forall_mem_cons]
  exact ⟨rfl, rfl, rfl, nofun⟩

end

/-! ## Statements -/

/-- The lines of statements. -/
def statementLines (l : List Statement) : List Line := l.map fun s => s.text.toList

theorem readsBack_statement {s : Statement} (hs : s.IsSpelled)
    (hkeyword : s.label ∉ Token.programKeywords) :
    statementLine.ReadsBack id EndsLine s.text.toList (.ok s) := by
  refine Reader.readsBack_id (fun u _ => ?_) fun u hu =>
    Reader.reads_of_read (read_statementLine_append hs hkeyword hu)
  rw [Statement.text, String.toList_append, String.toList_append, List.append_assoc,
    List.append_assoc]
  exact (Token.isIdent_of_isLabel hs.1).skipLines_append _

/-- The lines of statements are read back; nothing is left behind the last. -/
theorem reads_statementsSection {l : List Statement} (hl : ∀ s ∈ l, s.IsSpelled)
    (hkeyword : ∀ s ∈ l, s.label ∉ Token.programKeywords) :
    (sectionReader .goto).Reads (Written.heading "program" ++ lined (statementLines l))
      (.program (.ok l)) [] := by
  have hshrinks : statementLine.Shrinks := (frames_statementLine (.inl rfl)).shrinks
  obtain ⟨read, ⟨v, hread, hv⟩, hvalues⟩ := exists_reads_lined (u := []) hshrinks
    (fun s hs => readsBack_statement (hl s hs) (hkeyword s hs)) (.inl rfl)
    (read_newlines_nil statementLine)
  rw [List.map_id] at hvalues
  rw [List.append_nil] at hread
  refine ⟨v, ?_, hv⟩
  refine read_of_before [nameSection, inputSection, outputSection, startSection] rfl ?_ ?_
  · simp only [List.forall_mem_cons]
    exact ⟨rfl, rfl, rfl, rfl, nofun⟩
  · rw [rulesSection, statementsSection, Reader.read_map, read_sectionOf_heading, statementLines,
      hread, Option.map_some, hvalues]
    dsimp only
    rw [gather_map_ok]

/-! ## Sections -/

/-- The sections in front of the statements. -/
def headingSections (n : Line) (p : Program) : List Section :=
  [.name n, .input p.input, .output p.output] ++ p.start.toList.map .start

/-- The sections of a written program. -/
def writtenSections (n : Line) (p : Program) : List Section :=
  headingSections n p ++ [.program (.ok p.statements)]

section

variable {n : Line} {p : Program}

theorem headings_eq (p : Program) :
    p.headings.map String.toList =
      [Written.field "input" p.input.toList, Written.field "output" p.output.toList] ++
        p.start.toList.map fun l => Written.field "start" l.toList := by
  have hfield : ∀ l : String, ("start: " ++ l).toList = Written.field "start" l.toList := by
    intro l
    rw [String.toList_append]
    rfl
  rw [Program.headings, List.map_append, List.map_map]
  simp only [List.map_cons, List.map_nil, Function.comp_def, String.toList_append, hfield]
  rfl

theorem label_of_start (hp : p.IsConsistent) (hspelled : p.IsSpelled) :
    ∀ l ∈ p.start.toList, IsLabel l := by
  intro l hl
  obtain ⟨s, hs, rfl⟩ := List.mem_map.mp (hp.target_mem l (List.mem_append_right _ hl))
  exact (hspelled.statement s hs).1

theorem readsBack_headings (hn : IsName n) (hp : p.IsConsistent) (hspelled : p.IsSpelled) :
    List.Forall₂ ((sectionReader .goto).ReadsBack id EndsLine)
      (Written.field "name" n :: p.headings.map String.toList) (headingSections n p) := by
  have hstart : List.Forall₂ ((sectionReader .goto).ReadsBack id EndsLine)
      (p.start.toList.map fun l => Written.field "start" l.toList) (p.start.toList.map .start) := by
    rw [List.forall₂_map_left_iff, List.forall₂_map_right_iff, List.forall₂_same]
    exact fun l hl => readsBack_start (label_of_start hp hspelled l hl)
  rw [headings_eq]
  exact .cons (readsBack_name .goto hn) <| .cons (readsBack_input hspelled.input) <|
    .cons (readsBack_output hspelled.output) hstart

theorem ofProgram_eq (n : Line) (p : Program) :
    Written.ofProgram n p = Written.field "name" n :: (p.headings.map String.toList ++
      Written.heading "program" :: statementLines p.statements) := by
  simp [Written.ofProgram, statementLines]

/-- The lines of a program are read as its sections. -/
theorem exists_sections (hn : IsName n) (hp : p.IsConsistent) (hspelled : p.IsSpelled)
    (hkeyword : ∀ s ∈ p.statements, s.label ∉ Token.programKeywords) :
    ∃ l, Sections .goto (lined (Written.ofProgram n p)) l ∧
      l.map Located.value = writtenSections n p := by
  rw [ofProgram_eq, ← List.cons_append]
  exact exists_sections_written (readsBack_headings hn hp hspelled) (fun _ => rfl)
    (reads_statementsSection hspelled.statement hkeyword)

/-! ## What the sections describe -/

/-- A consistent program is built again from its parts. -/
theorem startedAt_ofStatements (hp : p.IsConsistent) :
    Program.ofStatements p.input p.output p.statements = .ok { p with start := none } ∧
      startedAt { p with start := none } p.start = .ok p := by
  constructor
  · refine map_eq_ok_iff.mpr ⟨(), Program.check_eq_ok_iff.mpr ?_, rfl⟩
    refine ⟨hp.input_ne, hp.output_ne, hp.nodup_labels, fun label hlabel => ?_⟩
    -- without a start label there are no more labels to go to than before
    rw [Program.targets, Option.toList_none, List.append_nil] at hlabel
    exact hp.target_mem label (List.mem_append_left _ hlabel)
  · cases hstart : p.start with
    | none => exact congrArg Except.ok (by rw [← hstart])
    | some label =>
      have hsame : ({ p with start := some label } : Program) = p := by rw [← hstart]
      refine map_eq_ok_iff.mpr ⟨(), Program.check_eq_ok_iff.mpr ?_, hsame⟩
      rwa [hsame]

/-- The sections of a written program describe it. -/
theorem programOf_written {l : List (Located Section)} (hn : IsName n) (hp : p.IsConsistent)
    (hl : l.map Located.value = writtenSections n p) :
    programOf l = .ok (String.ofList n, p) ∧ givenChecks l = [] := by
  have hfound : ∀ {α : Type} (view : Section → Option α),
      found? l view = (writtenSections n p).findSome? view := found?_eq_findSome? hl
  obtain ⟨hplain, hstarted⟩ := startedAt_ofStatements hp
  obtain ⟨hstart, hprogram, hchecks⟩ : found? l Section.start? = p.start ∧
      found? l Section.program? = some (.ok p.statements) ∧
        found? l Section.checks? = none := by
    rw [hfound, hfound, hfound, writtenSections, headingSections]
    cases p.start <;> exact ⟨rfl, rfl, rfl⟩
  refine ⟨?_, by rw [givenChecks, hchecks]; rfl⟩
  refine bind_eq_ok_iff.mpr ⟨_, givenName_eq_ok hn (hfound _), ?_⟩
  refine bind_eq_ok_iff.mpr ⟨_, required_eq_ok_iff.mpr (hfound _), ?_⟩
  refine bind_eq_ok_iff.mpr ⟨_, required_eq_ok_iff.mpr (hfound _), ?_⟩
  refine bind_eq_ok_iff.mpr ⟨_, required_eq_ok_iff.mpr hprogram, ?_⟩
  refine bind_eq_ok_iff.mpr ⟨_, rfl, ?_⟩
  refine bind_eq_ok_iff.mpr ⟨_, mapError_eq_ok_iff.mpr hplain, ?_⟩
  rw [hstart]
  exact bind_eq_ok_iff.mpr ⟨_, mapError_eq_ok_iff.mpr hstarted, rfl⟩

theorem nodup_keywords_written {l : List (Located Section)}
    (hl : l.map Located.value = writtenSections n p) : (keywords l).Nodup := by
  rw [keywords_eq_map hl, writtenSections, headingSections]
  cases p.start with
  | none => exact of_decide_eq_true rfl
  | some label => exact of_decide_eq_true rfl

/-! ## The ends of the text -/

/-- An instruction ends with a name or a number. -/
theorem exists_text_eq {i : Goto.Instruction} (hi : i.IsSpelled) :
    ∃ v l, i.text.toList = v ++ l.toList ∧ IsLabel l := by
  cases i with
  | assign x a => exact ⟨_, a.text, String.toList_append, isLabel_text hi.2⟩
  | compute x a op b => exact ⟨_, b.text, String.toList_append, isLabel_text hi.2.2⟩
  | jump l => exact ⟨_, l, String.toList_append, hi⟩
  | branch a rel b l => exact ⟨_, l, String.toList_append, hi.2.2⟩
  | halt => exact ⟨[], "halt", rfl, by decide, List.all_eq_true.mp rfl⟩

theorem endsVisibly_statement {s : Statement} (hs : s.IsSpelled) : EndsVisibly s.text.toList := by
  obtain ⟨v, l, htext, hl⟩ := exists_text_eq hs.2
  rw [Statement.text, String.toList_append, htext]
  exact ((endsVisibly_ident (Token.isIdent_of_isLabel hl)).append v).append _

/-- The lines of a program start and end without a blank. -/
theorem trim_ofProgram (n : Line) (hspelled : p.IsSpelled) {tail : List Char}
    (htail : ∀ c ∈ tail, Text.isBlank c = true) :
    Text.trim (joined (Written.ofProgram n p) ++ tail) = joined (Written.ofProgram n p) := by
  rw [ofProgram_eq]
  refine trim_written (fun q hq => ?_) htail
  obtain ⟨s, hs, rfl⟩ := List.mem_map.mp hq
  exact endsVisibly_statement (hspelled.statement s hs)

end

/-- **A program is read back as it was written.** The lines of a program that was read from some
text describe that program again, under any name that fits on a line and whatever white space
follows, if no label of a statement is the keyword of a section. -/
theorem parse_ofProgram {text n tail : List Char} {d : Definition} {p : Program}
    (hread : parse .goto text = .ok d) (hp : d.automaton = .goto p)
    (hkeyword : ∀ s ∈ p.statements, s.label ∉ Token.programKeywords) (hn : IsName n)
    (htail : ∀ c ∈ tail, Text.isBlank c = true) :
    parse .goto (joined (Written.ofProgram n p) ++ tail) =
      .ok { name := String.ofList n, checks := [], automaton := .goto p } := by
  have hspelled := isSpelled_of_parse hread hp
  have hconsistent : p.IsConsistent := by
    have hready := (isReady_of_parse hread).1
    rwa [hp] at hready
  obtain ⟨l, hl, hvalues⟩ := exists_sections hn hconsistent hspelled hkeyword
  have hne : Written.ofProgram n p ≠ [] := List.cons_ne_nil _ _
  have hl_ne : l ≠ [] := by
    rintro rfl
    cases hvalues
  rw [lined_eq hne] at hl
  obtain ⟨u, hu⟩ := read_iff_sections.mpr ⟨hl_ne, hl⟩
  obtain ⟨hprogram, hchecks⟩ := programOf_written hn hconsistent hvalues
  refine parse_eq_ok_iff.mpr ⟨l, u, ?_, nodup_keywords_written hvalues, ?_⟩
  · rw [trim_ofProgram n hspelled htail, hu]
  · rw [assembled, hprogram, hchecks]
    rfl

/-- A program with names that start with words of instructions, and with such words as labels. -/
def words : Program where
  input := "goto1"
  output := "divx"
  start := some "halt"
  statements := [
    ⟨"if", .compute "divx" (.var "divx") .sub (.lit 7)⟩,
    ⟨"halt", .assign "divx" (.var "goto1")⟩,
    ⟨"mod", .branch (.lit 7) .le (.var "divx") "if"⟩,
    ⟨"7", .halt⟩]

/-- A text that describes the program: the sections are in another order, with comments and blanks
in between. -/
def wordsText : List Char :=
  joined ["program :".toList, "  if:divx:=divx-7".toList, "  halt: divx :=goto1 // here".toList,
    [], "  mod: if 7<=divx goto if".toList, "  7: halt".toList, "start: halt".toList,
    "output: divx".toList, "checks: 7".toList, "input: goto1".toList, "name: Words".toList]

/-- The program is written under another name, and a line feed ends its last line. -/
theorem words_read_back :
    parse .goto wordsText = .ok ⟨"Words", [['7']], .goto words⟩ ∧
      IsName "x / 7".toList ∧
      parse .goto (joined (Written.ofProgram "x / 7".toList words) ++ ['\n']) =
        .ok ⟨"x / 7", [], .goto words⟩ := by
  have hread : parse .goto wordsText = .ok ⟨"Words", [['7']], .goto words⟩ := rfl
  have hname : IsName "x / 7".toList := ⟨by decide, rfl, by simp [isNewline], by decide⟩
  have hfeed : ∀ c ∈ ['\n'], Text.isBlank c = true := by
    rw [List.forall_mem_singleton]
    rfl
  exact ⟨hread, hname, parse_ofProgram hread rfl (by decide) hname hfeed⟩

end Acceptors.Description
