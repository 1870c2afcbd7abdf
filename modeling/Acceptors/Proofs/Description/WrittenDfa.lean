import Acceptors.Proofs.Description.WrittenBlocks

/-!
# Written deterministic automata

Any list of edges can be written down, in blocks below the names of the states that they leave.
Read again, the text describes what the edges make: an automaton, or the first defect of the edges.
Quotes enclose symbols, so the quote itself is the one character that no alphabet can list.

## Main definitions

* `IsWritableEdge`: the edge lines that can be written

## Main results

* `readsBack_edge`: an edge line is read back
* `parse_ofDfa`: writing edges and reading them leads to what they make
* `quote_in_alphabet`: the quote cannot be listed
-/

namespace Acceptors.Description

open Written (Line joined quoted)

/-! ## Edges -/

/-- An edge line that can be written: it has a symbol, none is a quote, and the target is a name. -/
structure IsWritableEdge (e : EdgeLine) : Prop where
  ne_nil : e.1 ≠ []
  symbol : ∀ c ∈ e.1, c ≠ '\''
  target : IsIdent e.2

section

variable {e : EdgeLine} {u : List Char}

theorem ofEdge_append (e : EdgeLine) (u : List Char) :
    Written.ofEdge e ++ u =
      Written.listed (e.1.map quoted) ++ (" -> ".toList ++ (e.2.toList ++ u)) := by
  simp only [Written.ofEdge, List.append_assoc]

/-- An edge line is read back. -/
theorem readsBack_edge (he : IsWritableEdge e) :
    (Except.ok (ε := Located Complaint) <$> edgeLine).ReadsBack id EndsLine (Written.ofEdge e)
      (.ok e) := by
  refine Reader.readsBack_id (fun u _ => ?_) fun u hu => Reader.reads_of_read ?_
  · obtain ⟨c, cs, hcs⟩ := List.exists_cons_of_ne_nil he.ne_nil
    rw [ofEdge_append, hcs, List.map_cons, Written.listed, intercalate_cons]
    rfl
  · have harrow : ∀ w, skipBlanks (" -> ".toList ++ w) = "->".toList ++ ' ' :: w := fun _ => rfl
    have htarget : stateName.read (e.2.toList ++ u) = some (e.2, u) :=
      Token.stateName_append he.target (hu.head rfl) fun _ hcolon => by
        rcases hu with rfl | ⟨w, rfl⟩ <;> cases hcolon
    -- the symbols are read up to the blank in front of the arrow
    obtain ⟨cs, hsymbols, hcs⟩ := Reader.exists_reads_commaSeparated (g := id) (q := quoted)
      (u := " -> ".toList ++ (e.2.toList ++ u)) Reader.shrinks_symbol he.ne_nil
      (fun c hc => Reader.readsBack_symbol (he.symbol c hc)) (endsName_cons (by decide) _) rfl
    rw [List.map_id, List.map_id] at hcs
    rw [Reader.read_map, edgeLine, Reader.read_phrase, ofEdge_append, hsymbols.read_skip_bind,
      harrow, Reader.read_lit_skip_bind, skipBlanks_blank, he.target.skipBlanks_append,
      Reader.read_bind, htarget, hcs]
    rfl

/-- No edge starts where a heading stands. -/
theorem read_edge_heading {l : String} (hl : IsIdent l) (u : List Char) :
    (Except.ok (ε := Located Complaint) <$> edgeLine).read (Written.heading l ++ u) = none := by
  obtain ⟨c, d, v, hsymbol, hd⟩ := symbol_heading hl u
  obtain ⟨hskip, hcomma, harrow⟩ := read_behind_symbol hd v
  -- one symbol is read, no further one follows, and then the arrow is missing
  have hrest : (do Reader.lit ","; .skip; symbol).many.read (d :: v) = some ([], d :: v) := by
    refine Reader.read_many_of_repeats (.stop ?_) (Nat.zero_le _)
    rw [hskip, Reader.read_bind, hcomma]
    rfl
  have hsymbols : (Reader.commaSeparated symbol).read (Written.heading l ++ u) =
      some ([c], d :: v) := by
    rw [Reader.commaSeparated, (Reader.reads_of_read hsymbol).read_skip_bind, hskip,
      Reader.read_bind, hrest]
    rfl
  rw [Reader.read_map, edgeLine, Reader.read_phrase,
    (Reader.reads_of_read hsymbols).read_skip_bind, hskip, Reader.read_bind, harrow]
  rfl

end

/-! ## Sections -/

section

variable {n : Line} {initial : String} {accepting : List String} {alphabet : List Char}
  {blocks : List (Block EdgeLine)}

theorem readsBack_initialState (hinitial : IsIdent initial) :
    (sectionReader .dfa).ReadsBack id EndsLine (Written.field "initial" initial.toList)
      (.initial initial) := by
  refine readsBack_field [nameSection] rfl (fun u => ?_) (fun _ => rfl)
    ((Reader.readsBack_stateName hinitial).mono fun _ hu => hu.endsName)
  simp only [List.forall_mem_cons]
  exact ⟨rfl, nofun⟩

/-- A list in brackets is read back. -/
theorem readsBack_listOf {α : Type} {r : Reader α} {p : Phrase} {q : α → Line} {as : List α}
    (hr : r.Shrinks) (hnone : ∀ u, r.read (']' :: u) = none)
    (h : ∀ a ∈ as, r.ReadsBack id EndsName (q a) a) :
    (Reader.phrase p (.listOf r)).ReadsBack id EndsLine (Written.bracketed (as.map q)) as := by
  refine Reader.readsBack_id (fun _ _ => rfl) fun u _ => Reader.reads_of_read ?_
  obtain ⟨bs, hread, hbs⟩ := Reader.exists_read_listOf (g := id) hr hnone h u
  rw [List.map_id, List.map_id] at hbs
  rw [Reader.read_phrase, hread, hbs]

theorem readsBack_acceptingStates (haccepting : ∀ q ∈ accepting, IsIdent q) :
    (sectionReader .dfa).ReadsBack id EndsLine
      (Written.field "accepting" (Written.bracketed (accepting.map String.toList)))
      (.accepting accepting) := by
  refine readsBack_field [nameSection, initialSection] rfl (fun u => ?_) (fun _ => rfl)
    (readsBack_listOf Reader.shrinks_stateName (fun _ => rfl) fun q hq =>
      Reader.readsBack_stateName (haccepting q hq))
  simp only [List.forall_mem_cons]
  exact ⟨rfl, rfl, nofun⟩

theorem readsBack_alphabet (halphabet : ∀ c ∈ alphabet, c ≠ '\'') :
    (sectionReader .dfa).ReadsBack id EndsLine
      (Written.field "alphabet" (Written.bracketed (alphabet.map quoted)))
      (.alphabet alphabet) := by
  refine readsBack_field [nameSection, initialSection, acceptingSection] rfl (fun u => ?_)
    (fun _ => rfl) (readsBack_listOf Reader.shrinks_symbol (fun _ => rfl) fun c hc =>
      Reader.readsBack_symbol (halphabet c hc))
  simp only [List.forall_mem_cons]
  exact ⟨rfl, rfl, rfl, nofun⟩

theorem reads_edgesSection (hnamed : AreNamed blocks)
    (hedges : ∀ b ∈ blocks, ∀ e ∈ b.2, IsWritableEdge e) :
    (sectionReader .dfa).Reads (Written.heading "rules" ++
      lined (Written.ofBlocks Written.ofEdge blocks)) (.edges (.ok blocks)) [] := by
  have hshrinks : (Except.ok (ε := Located Complaint) <$> edgeLine).Shrinks :=
    (frames_edgeLine (.inl rfl)).shrinks.map _
  have hblocks : (block .dfaBlock (Except.ok (ε := Located Complaint) <$> edgeLine)).Shrinks :=
    (frames_edgeBlock (isSequel_of_skipLines (.inl rfl) rfl)).shrinks
  obtain ⟨read, ⟨v, hread, hv⟩, hvalues⟩ := exists_reads_blocks hshrinks hblocks
    (fun _ v hl => read_edge_heading hl v) hnamed fun b hb e he => readsBack_edge (hedges b hb e he)
  refine ⟨v, ?_, hv⟩
  refine read_of_before [nameSection, initialSection, acceptingSection, alphabetSection] rfl ?_ ?_
  · simp only [List.forall_mem_cons]
    exact ⟨rfl, rfl, rfl, rfl, nofun⟩
  · rw [rulesSection, edgesSection, Reader.read_map, read_sectionOf_heading, hread,
      Option.map_some]
    dsimp only
    rw [checkBlocks_eq_ok hvalues hnamed.nodup fun _ _ => List.not_mem_nil]

/-- The sections of written edges describe what the edges make. -/
theorem dfaOf_written {l : List (Located Section)} (hn : IsName n)
    (hl : l.map Located.value = [.name n, .initial initial, .accepting accepting,
      .alphabet alphabet, .edges (.ok blocks)]) :
    dfaOf l = ((Dfa.ofEdges initial accepting (some alphabet) (edgesOf blocks)).mapError
        Refusal.defect).map (fun d => (String.ofList n, d)) ∧ givenChecks l = [] := by
  have hfound : ∀ {α : Type} (view : Section → Option α), found? l view = _ :=
    found?_eq_findSome? hl
  have hblocks : Checked.accept (.ok blocks) = .ok blocks := rfl
  have halphabet : found? l Section.alphabet? = some alphabet := hfound _
  refine ⟨?_, by rw [givenChecks, hfound]; rfl⟩
  rw [dfaOf, givenName_eq_ok hn (hfound _), ok_bind, required_eq_ok_iff.mpr (hfound _), ok_bind,
    required_eq_ok_iff.mpr (hfound _), ok_bind, hblocks, ok_bind,
    initialState_eq_ok blocks (hfound _), ok_bind, halphabet]
  dsimp only
  cases Dfa.ofEdges initial accepting (some alphabet) (edgesOf blocks) <;> rfl

end

/-- **Any edges can be written, and what is read back is what they make.** The lines that state an
initial state, accepting states, an alphabet without the quote and the edges in blocks describe the
automaton that these make, or are refused with the first defect of the edges, whatever white space
follows. -/
theorem parse_ofDfa {n tail : List Char} {initial : String} {accepting : List String}
    {alphabet : List Char} {blocks : List (Block EdgeLine)} (hn : IsName n)
    (hinitial : IsIdent initial) (haccepting : ∀ q ∈ accepting, IsIdent q)
    (halphabet : ∀ c ∈ alphabet, c ≠ '\'') (hnamed : AreNamed blocks)
    (hedges : ∀ b ∈ blocks, ∀ e ∈ b.2, IsWritableEdge e)
    (htail : ∀ c ∈ tail, Text.isBlank c = true) :
    parse .dfa (joined (Written.ofDfa n initial accepting alphabet blocks) ++ tail) =
      ((Dfa.ofEdges initial accepting (some alphabet) (edgesOf blocks)).mapError
        Fault.defect).map fun d =>
          { name := String.ofList n, checks := [], automaton := .dfa d } := by
  have hfront : List.Forall₂ ((sectionReader .dfa).ReadsBack id EndsLine) _ _ :=
    .cons (readsBack_name .dfa hn) <| .cons (readsBack_initialState hinitial) <|
      .cons (readsBack_acceptingStates haccepting) <| .cons (readsBack_alphabet halphabet) .nil
  have hvisible : ∀ q ∈ Written.ofBlocks Written.ofEdge blocks, EndsVisibly q :=
    endsVisibly_ofBlocks fun b hb e he => (endsVisibly_ident (hedges b hb e he).target).append _
  obtain ⟨l, u, hread, hvalues⟩ := exists_read_written hfront (fun _ => rfl)
    (reads_edgesSection hnamed hedges) hvisible htail
  obtain ⟨hdfa, hchecks⟩ := dfaOf_written hn hvalues
  have hnodup : (keywords l).Nodup := by
    rw [keywords_eq_map hvalues]
    exact of_decide_eq_true rfl
  have hsections : dfaSections.read (Text.trim (joined (Written.ofDfa n initial accepting alphabet
      blocks) ++ tail)) = some (l, u) := hread
  rw [parse, parseWith_of_read hsections hnodup, hdfa, hchecks]
  cases Dfa.ofEdges initial accepting (some alphabet) (edgesOf blocks) <;> rfl

/-- Edges on a comma, a blank and a line feed: they tell words with an even number of commas. -/
def commaEdges : List (Block EdgeLine) := [
  ("even", [([','], "odd"), ([' ', '\n'], "even")]),
  ("odd", [(['\n'], "odd"), ([','], "even"), ([' '], "odd")])]

/-- With the three symbols as alphabet they make an automaton; with a fourth one, an edge is
missing. -/
theorem commas_read_back :
    (∃ d, Dfa.ofEdges "even" ["even"] (some ['\n', ',', ' ']) (edgesOf commaEdges) = .ok d ∧
      parse .dfa (joined (Written.ofDfa ['C'] "even" ["even"] ['\n', ',', ' '] commaEdges) ++
        ['\n']) = .ok ⟨"C", [], .dfa d⟩) ∧
      parse .dfa (joined (Written.ofDfa ['C'] "even" [] ['\n', ',', ' ', 'a'] commaEdges) ++
        ['\n']) = .error (.defect (.missingTransition "even" 'a')) := by
  have hname : IsName ['C'] := ⟨by decide, rfl, by simp [isNewline], by decide⟩
  have hnamed : AreNamed commaEdges := by
    refine ⟨?_, ?_, by decide⟩ <;> simp only [commaEdges, List.forall_mem_cons]
    · exact ⟨by decide, by decide, by simp⟩
    · exact ⟨by decide, by decide, by simp⟩
  have hedges : ∀ b ∈ commaEdges, ∀ e ∈ b.2, IsWritableEdge e := by
    simp only [commaEdges, List.forall_mem_cons]
    refine ⟨⟨⟨by simp, ?_, by decide⟩, ⟨by simp, ?_, by decide⟩, by simp⟩,
      ⟨⟨by simp, ?_, by decide⟩, ⟨by simp, ?_, by decide⟩, ⟨by simp, ?_, by decide⟩, by simp⟩,
      by simp⟩
    all_goals simp
  have hfeed : ∀ c ∈ ['\n'], Text.isBlank c = true := by
    rw [List.forall_mem_singleton]
    rfl
  have haccepting : ∀ q ∈ ["even"], IsIdent q := by
    rw [List.forall_mem_singleton]
    decide
  refine ⟨?_, parse_ofDfa hname (by decide) (by simp) (by simp) hnamed hedges hfeed⟩
  refine ⟨_, rfl, parse_ofDfa hname (by decide) haccepting (by simp) hnamed hedges hfeed⟩

/-- The quote cannot be listed in an alphabet: what is written is no description, whereas the
automaton with the quote in its alphabet lacks an edge. -/
theorem quote_in_alphabet :
    Dfa.ofEdges "q" [] (some ['\'']) (edgesOf [("q", [])]) = .error (.missingTransition "q" '\'') ∧
      parse .dfa (joined (Written.ofDfa ['x'] "q" [] ['\''] [("q", [])])) ≠
        ((Dfa.ofEdges "q" [] (some ['\'']) (edgesOf [("q", [])])).mapError Fault.defect).map
          fun d => ⟨"x", [], .dfa d⟩ := by
  have hedge : Dfa.ofEdges "q" [] (some ['\'']) (edgesOf [("q", [])]) =
      .error (.missingTransition "q" '\'') := rfl
  have hread : ∃ d, parse .dfa (joined (Written.ofDfa ['x'] "q" [] ['\''] [("q", [])])) =
      .error (.unreadable d) := ⟨_, rfl⟩
  obtain ⟨d, hread⟩ := hread
  refine ⟨hedge, fun h => ?_⟩
  rw [hread, hedge] at h
  cases h

end Acceptors.Description
