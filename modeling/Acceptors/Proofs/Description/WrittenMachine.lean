import Acceptors.Proofs.Description.WrittenBlocks
import Acceptors.Proofs.Simulation.Ready

/-!
# Written machines

Every machine can be written down: its blank, the number of its tapes, its two states and its
transitions, a block for each state. Symbols are quoted, so that any character but the quote can be
written. Read again, the text describes the machine with these rules in the order of the text.

## Main definitions

* `IsWritable`: the transitions that can be written

## Main results

* `readsBack_transition`: a transition is read back
* `machineOf_written`: the sections of a written machine describe it
* `exists_ofRules`: a machine whose transitions fit its tapes has no defect
* `parse_ofMachine`: writing a machine and reading it leads back to it
-/

namespace Acceptors.Description

open Written (Line joined quoted)

/-! ## Transitions -/

/-- A transition on the given number of tapes that can be written: it reads and writes no quote,
and the next state is a name. -/
structure IsWritable (k : Nat) (t : Transition) : Prop where
  fits : Machine.fitsTapes k t = true
  read : ∀ c ∈ t.read, c ≠ '\''
  write : ∀ c ∈ t.write, c ≠ '\''
  next : IsIdent t.next

section

variable {k : Nat} {t : Transition} {u : List Char}

/-- A direction is read back. -/
theorem readsBack_direction (d : Direction) :
    (Reader.located (.token .direction Token.direction)).ReadsBack directionOf EndsName
      d.text.toList (.ok d) := by
  refine ⟨fun u _ => by cases d <;> rfl, fun u _ => ?_⟩
  cases d <;> exact ⟨_, Reader.reads_of_read rfl, rfl⟩

theorem read_directionTuple {ds : List Direction} (hne : ds ≠ []) (u : List Char) :
    ∃ xs, directionTuple.read (Written.bracketed (ds.map fun d => d.text.toList) ++ u) =
      some (xs, u) ∧ xs.map directionOf = ds.map .ok :=
  have hshrinks := (Reader.Frames.token (p := .direction) Token.frames_direction (.inl rfl)).located
  Reader.exists_read_tupleOf hshrinks.shrinks hne (fun d _ => readsBack_direction d) u

theorem ofTransition_append (t : Transition) (u : List Char) :
    Written.ofTransition t ++ u = Written.bracketed (t.read.map quoted) ++ (" -> ".toList ++
      (Written.bracketed (t.write.map quoted) ++ (", ".toList ++
        (Written.bracketed (t.directions.map fun d => d.text.toList) ++ (", ".toList ++
          (t.next.toList ++ u)))))) := by
  simp only [Written.ofTransition, List.append_assoc]

/-- The line of a transition says what the transition does. -/
theorem exists_read_actionLine (hk : k ≠ 0) (ht : IsWritable k t) (hu : EndsLine u) :
    ∃ x, actionLine.read (Written.ofTransition t ++ u) = some (x, u) ∧ actionOf x = .ok t := by
  have hfits := ht.fits
  simp only [Machine.fitsTapes, Bool.and_eq_true, decide_eq_true_eq] at hfits
  obtain ⟨⟨hread, hwrite⟩, hdirections⟩ := hfits
  -- there is a tape, so no tuple is empty
  have hne : ∀ {α : Type} {l : List α}, l.length = k → l ≠ [] := by
    rintro α _ h rfl
    exact hk h.symm
  have harrow : ∀ w, (Reader.lit "->").read (skipBlanks (" -> ".toList ++ w)) =
      some ((), ' ' :: w) := fun _ => rfl
  have hcomma : ∀ w, (Reader.lit ",").read (skipBlanks (", ".toList ++ w)) = some ((), ' ' :: w) :=
    fun _ => rfl
  have hbracket : ∀ items w, skipBlanks (' ' :: (Written.bracketed items ++ w)) =
      Written.bracketed items ++ w := fun _ _ => rfl
  -- no colon follows, so the next state may bear the name of a section
  have hnext : stateName.read (t.next.toList ++ u) = some (t.next, u) :=
    Token.stateName_append ht.next (hu.head rfl) fun _ hcolon => by
      rcases hu with rfl | ⟨w, rfl⟩ <;> cases hcolon
  obtain ⟨ds, hds, hvalues⟩ :=
    read_directionTuple (hne hdirections) (", ".toList ++ (t.next.toList ++ u))
  refine ⟨⟨⟨t.read, t.write, ds, t.next⟩, Written.ofTransition t ++ u, u⟩, ?_, ?_⟩
  · simp only [actionLine, Reader.read_located, Reader.read_phrase, Reader.read_bind,
      ofTransition_append, Reader.read_symbolTuple (hne hread) ht.read,
      Reader.read_symbolTuple (hne hwrite) ht.write, hds, Option.bind_some, Reader.read_skip,
      harrow, hcomma, hbracket, skipBlanks_blank, ht.next.skipBlanks_append, hnext]
    rfl
  · have hlengths : t.read.length = t.write.length ∧ t.read.length = t.directions.length := by omega
    rw [actionOf, hvalues, gather_map_ok]
    exact if_pos hlengths

/-- A transition is read back. -/
theorem readsBack_transition (hk : k ≠ 0) (ht : IsWritable k t) :
    (actionOf <$> actionLine).ReadsBack id EndsLine (Written.ofTransition t) (.ok t) := by
  refine Reader.readsBack_id (fun u _ => rfl) fun u hu => Reader.reads_of_read ?_
  obtain ⟨x, hx, hvalue⟩ := exists_read_actionLine hk ht hu
  rw [Reader.read_map, hx]
  exact congrArg (fun y => some (y, u)) hvalue

/-- No transition starts where a heading stands. -/
theorem read_transition_heading {l : String} (hl : IsIdent l) (u : List Char) :
    (actionOf <$> actionLine).read (Written.heading l ++ u) = none := by
  obtain ⟨c, d, v, hsymbol, hd⟩ := symbol_heading hl u
  obtain ⟨hskip, -, harrow⟩ := read_behind_symbol hd v
  -- a heading starts with no bracket, and behind its first character stands no arrow
  have hbracket : (Reader.bracketed (Reader.commaSeparated symbol)).read
      (Written.heading l ++ u) = none := by
    rw [heading_append, List.append_assoc, Reader.read_bracketed_ident hl]
  simp only [actionLine, symbolTuple, tupleOf, Reader.read_map, Reader.read_located,
    Reader.read_phrase, Reader.read_bind, Reader.read_orElse, hbracket, hsymbol, Option.none_or,
    Option.map_some, Option.bind_some, Reader.read_skip, hskip, harrow, Option.bind_none,
    Option.map_none]

end

/-! ## Sections -/

section

variable {n : Line} {initial final : String} {blank : Char} {k : Nat}
  {blocks : List (Block Transition)}

theorem readsBack_blank (hblank : blank ≠ '\'') :
    (sectionReader .machine).ReadsBack id EndsLine (Written.field "blank" (quoted blank))
      (.blank blank) := by
  refine readsBack_field [nameSection] rfl (fun u => ?_) (fun _ => rfl)
    ((Reader.readsBack_symbol hblank).mono fun _ hu => hu.endsName)
  simp only [List.forall_mem_cons]
  exact ⟨rfl, nofun⟩

theorem readsBack_tapes (hcount : k ≤ greatestCount) :
    (sectionReader .machine).ReadsBack id EndsLine
      (Written.field "tapes" (toString k).toList) (.tapes (.ok k)) := by
  refine Reader.readsBack_id (fun u _ => by rw [field_append]; rfl) fun u hu =>
    Reader.reads_of_read ?_
  have hskip : skipBlanks ((toString k).toList ++ u) = (toString k).toList ++ u :=
    (isIdent_toString k).skipBlanks_append u
  have hvalue : (sectionOf .tapes "tapes" (.token .count Token.digits)).read
      (Written.field "tapes" (toString k).toList ++ u) = some ((toString k).toList, u) := by
    rw [field_append, read_sectionOf_heading, skipBlanks_blank, hskip, Reader.read_token,
      Token.digits_append k (hu.head rfl)]
  refine read_of_before [nameSection, blankSection] rfl ?_ ?_
  · simp only [List.forall_mem_cons, field_append]
    exact ⟨rfl, rfl, nofun⟩
  · rw [tapesSection, Reader.read_map, Reader.read_located, hvalue]
    simp only [Option.map_some, countOf, Text.numberOf_toString, if_pos hcount]

theorem readsBack_initial (hinitial : IsIdent initial) :
    (sectionReader .machine).ReadsBack id EndsLine (Written.field "initial" initial.toList)
      (.initial initial) := by
  refine readsBack_field [nameSection, blankSection, tapesSection] rfl (fun u => ?_) (fun _ => rfl)
    ((Reader.readsBack_stateName hinitial).mono fun _ hu => hu.endsName)
  simp only [List.forall_mem_cons]
  exact ⟨rfl, rfl, rfl, nofun⟩

theorem readsBack_accepting (hfinal : IsIdent final) :
    (sectionReader .machine).ReadsBack id EndsLine (Written.field "accepting" final.toList)
      (.accepting [final]) := by
  refine readsBack_field [nameSection, blankSection, tapesSection, initialSection] rfl
    (fun u => ?_) (fun _ => rfl) (Reader.readsBack_listOf_single hfinal)
  simp only [List.forall_mem_cons]
  exact ⟨rfl, rfl, rfl, rfl, nofun⟩

theorem reads_transitionsSection (hk : k ≠ 0) (hnamed : AreNamed blocks)
    (hrules : ∀ b ∈ blocks, ∀ t ∈ b.2, IsWritable k t) :
    (sectionReader .machine).Reads (Written.heading "rules" ++
      lined (Written.ofBlocks Written.ofTransition blocks)) (.transitions (.ok blocks)) [] := by
  have hshrinks : (actionOf <$> actionLine).Shrinks :=
    (frames_actionLine (.inl rfl)).shrinks.map _
  have hblocks : (block .tmBlock (actionOf <$> actionLine)).Shrinks :=
    (frames_transitionBlock (isSequel_of_skipLines (.inl rfl) rfl)).shrinks
  obtain ⟨read, ⟨v, hread, hv⟩, hvalues⟩ := exists_reads_blocks hshrinks hblocks
    (fun _ v hl => read_transition_heading hl v) hnamed
    (fun b hb t ht => readsBack_transition hk (hrules b hb t ht))
  refine ⟨v, ?_, hv⟩
  refine read_of_before [nameSection, blankSection, tapesSection, initialSection, acceptingSection]
    rfl ?_ ?_
  · simp only [List.forall_mem_cons]
    exact ⟨rfl, rfl, rfl, rfl, rfl, nofun⟩
  · rw [rulesSection, transitionsSection, Reader.read_map, read_sectionOf_heading, hread,
      Option.map_some]
    dsimp only
    rw [checkBlocks_eq_ok hvalues hnamed.nodup fun _ _ => List.not_mem_nil]

/-! ## What the sections describe -/

/-- A machine whose transitions fit its tapes has no defect. -/
theorem exists_ofRules {rules : List (String × Transition)} (hk : k ≠ 0)
    (hfits : ∀ e ∈ rules, Machine.fitsTapes k e.2 = true) :
    ∃ m, Machine.ofRules initial final blank k rules = .ok m := by
  refine ⟨_, map_eq_ok_iff.mpr ⟨(), Machine.check_eq_ok_iff.mpr ⟨hk, fun e he => ?_⟩, rfl⟩⟩
  obtain ⟨e', he', rfl⟩ := List.mem_map.mp (TransitionTable.mem_entries_ofList.mp he)
  -- putting the blank in the place of its sign keeps the lengths
  simp only [Machine.fitsTapes, Machine.fillBlank, List.length_map]
  exact hfits e' he'

theorem exists_acceptingStates {l : List (Located Section)} {states : List String}
    (h : found? l Section.accepting? = some states) :
    ∃ x, acceptingStates l = .ok x ∧ x.value = states := by
  have hvalue : ((l.findSome? fun s => s.value.accepting?.map fun states =>
      (⟨states, s.before, s.after⟩ : Located (List String))).map Located.value) = some states := by
    rw [List.map_findSome?, ← h, found?]
    congr 1
    funext s
    simp [Function.comp_def]
  obtain ⟨x, hx, hstates⟩ := Option.map_eq_some_iff.mp hvalue
  exact ⟨x, by rw [acceptingStates, hx], hstates⟩

/-- The sections of a written machine describe it. -/
theorem machineOf_written {l : List (Located Section)} {m : Machine} (hn : IsName n)
    (hm : Machine.ofRules initial final blank k (Block.flatten blocks) = .ok m)
    (hl : l.map Located.value = [.name n, .blank blank, .tapes (.ok k), .initial initial,
      .accepting [final], .transitions (.ok blocks)]) :
    machineOf l = .ok (String.ofList n, m) ∧ givenChecks l = [] := by
  have hfound : ∀ {α : Type} (view : Section → Option α), found? l view = _ :=
    found?_eq_findSome? hl
  obtain ⟨states, hstates, hvalue⟩ := exists_acceptingStates (hfound _)
  have honly : (onlyState states).accept = .ok final := by
    rw [onlyState, hvalue]
    rfl
  refine ⟨?_, by rw [givenChecks, hfound]; rfl⟩
  refine bind_eq_ok_iff.mpr ⟨_, givenName_eq_ok hn (hfound _), ?_⟩
  refine bind_eq_ok_iff.mpr ⟨some k, by rw [givenTapes, hfound]; rfl, ?_⟩
  refine bind_eq_ok_iff.mpr ⟨states, hstates, ?_⟩
  refine bind_eq_ok_iff.mpr ⟨final, honly, ?_⟩
  refine bind_eq_ok_iff.mpr ⟨_, required_eq_ok_iff.mpr (hfound _), ?_⟩
  refine bind_eq_ok_iff.mpr ⟨blocks, rfl, ?_⟩
  refine bind_eq_ok_iff.mpr ⟨initial, initialState_eq_ok blocks (hfound _), ?_⟩
  refine bind_eq_ok_iff.mpr ⟨m, mapError_eq_ok_iff.mpr ?_, rfl⟩
  rw [hfound]
  exact hm

end

/-- **Every machine can be written and is read back.** The lines that state its blank, the number of
its tapes, its states and its rules describe the machine with these rules in their order, whatever
white space follows. -/
theorem parse_ofMachine {n tail : List Char} {initial final : String} {blank : Char} {k : Nat}
    {blocks : List (Block Transition)} (hn : IsName n) (hinitial : IsIdent initial)
    (hfinal : IsIdent final) (hblank : blank ≠ '\'') (hk : 1 ≤ k) (hcount : k ≤ greatestCount)
    (hnamed : AreNamed blocks) (hrules : ∀ b ∈ blocks, ∀ t ∈ b.2, IsWritable k t)
    (htail : ∀ c ∈ tail, Text.isBlank c = true) :
    ∃ m, Machine.ofRules initial final blank k (Block.flatten blocks) = .ok m ∧
      parse .machine (joined (Written.ofMachine n initial final blank k blocks) ++ tail) =
        .ok { name := String.ofList n, checks := [], automaton := .machine m } := by
  have hk : k ≠ 0 := Nat.pos_iff_ne_zero.mp hk
  have hfits : ∀ e ∈ Block.flatten blocks, Machine.fitsTapes k e.2 = true := by
    intro e he
    obtain ⟨b, hb, he⟩ := List.mem_flatMap.mp he
    obtain ⟨t, ht, rfl⟩ := List.mem_map.mp he
    exact (hrules b hb t ht).fits
  obtain ⟨m, hm⟩ := exists_ofRules hk hfits
  have hfront : List.Forall₂ ((sectionReader .machine).ReadsBack id EndsLine) _ _ :=
    .cons (readsBack_name .machine hn) <| .cons (readsBack_blank hblank) <|
      .cons (readsBack_tapes hcount) <| .cons (readsBack_initial hinitial) <|
        .cons (readsBack_accepting hfinal) .nil
  have hvisible : ∀ q ∈ Written.ofBlocks Written.ofTransition blocks, EndsVisibly q :=
    endsVisibly_ofBlocks fun b hb t ht => (endsVisibly_ident (hrules b hb t ht).next).append _
  obtain ⟨l, u, hread, hvalues⟩ := exists_read_written hfront (fun _ => rfl)
    (reads_transitionsSection hk hnamed hrules) hvisible htail
  obtain ⟨hmachine, hchecks⟩ := machineOf_written hn hm hvalues
  refine ⟨m, hm, parse_eq_ok_iff.mpr ⟨l, u, hread, ?_, ?_⟩⟩
  · rw [keywords_eq_map hvalues]
    exact of_decide_eq_true rfl
  · rw [assembled, hmachine, hchecks]
    rfl

/-- Rules of a machine with two tapes and a blank space: they read and write characters that part
the items of a list, start a comment or end a line, and lead to a state that bears the name of a
section. -/
def marks : List (Block Transition) := [
  ("0", [⟨[',', ']'], ['/', '\n'], [.right, .stay], "rules"⟩,
    ⟨[' ', '_'], ['[', '_'], [.left, .right], "0"⟩]),
  ("rules.", [])]

/-- A line feed stands behind the text. -/
theorem marks_read_back :
    ∃ m, Machine.ofRules "0" "rules" ' ' 2 (Block.flatten marks) = .ok m ∧
      parse .machine (joined (Written.ofMachine "M 2".toList "0" "rules" ' ' 2 marks) ++ ['\n']) =
        .ok ⟨"M 2", [], .machine m⟩ := by
  have hname : IsName "M 2".toList := ⟨by decide, rfl, by simp [isNewline], by decide⟩
  have hnamed : AreNamed marks := by
    refine ⟨?_, ?_, by decide⟩ <;> simp only [marks, List.forall_mem_cons]
    · exact ⟨by decide, by decide, by simp⟩
    · exact ⟨by decide, by decide, by simp⟩
  have hrules : ∀ b ∈ marks, ∀ t ∈ b.2, IsWritable 2 t := by
    simp only [marks, List.forall_mem_cons]
    refine ⟨⟨⟨rfl, ?_, ?_, by decide⟩, ⟨rfl, ?_, ?_, by decide⟩, by simp⟩, by simp, by simp⟩
    all_goals
      simp only [List.forall_mem_cons]
      exact ⟨by decide, by decide, by simp⟩
  have hfeed : ∀ c ∈ ['\n'], Text.isBlank c = true := by
    rw [List.forall_mem_singleton]
    rfl
  have hcount : 2 ≤ greatestCount := by simp [greatestCount]
  exact parse_ofMachine hname (by decide) (by decide) (by decide) (by decide) hcount hnamed hrules
    hfeed

end Acceptors.Description
