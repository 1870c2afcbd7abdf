import Acceptors.Proofs.Description.WrittenLines

/-!
# Written blocks

The rules of machines and of deterministic automata stand in blocks below the names of states. A
block ends where the next heading stands: the first character of its name could be read as a symbol,
but neither a comma nor an arrow follows.

## Main definitions

* `AreNamed`: the blocks have names of their own that are no keywords
* `EndsBlock`: what may stand behind a block

## Main results

* `symbol_heading`: what is read of a heading as a symbol, and what is left
* `exists_reads_blocks`: the lines of blocks are read back
* `checkBlocks_eq_ok`: no complaint is made about blocks with different names
-/

namespace Acceptors.Description

open Written (Line)

section

variable {α β : Type} {u : List Char}

/-! ## Headings -/

/-- The first character of a name is read as a symbol; what is left starts with another character
of the name or with the colon. -/
theorem symbol_heading {l : String} (hl : IsIdent l) (u : List Char) :
    ∃ c d v, symbol.read (Written.heading l ++ u) = some (c, d :: v) ∧
      (Token.isIdentChar d = true ∨ d = ':') := by
  obtain ⟨c, t, hlist, hc⟩ := hl.exists_cons
  have htext : ∃ d v, Written.heading l ++ u = c :: d :: v ∧
      (Token.isIdentChar d = true ∨ d = ':') := by
    rw [heading_append, hlist]
    -- behind a name of one character stands the colon
    cases t with
    | nil => exact ⟨':', u, rfl, .inr rfl⟩
    | cons d t =>
      exact ⟨d, _, rfl, .inl (hl.2 d (hlist ▸ List.mem_cons_of_mem _ List.mem_cons_self))⟩
  obtain ⟨d, v, htext, hd⟩ := htext
  refine ⟨c, d, v, ?_, hd⟩
  rw [htext, symbol, Reader.read_token, Token.symbol_eq, Token.quotedChar_of_isIdentChar hc,
    Token.plainChar, Token.stopsAt_of_isIdentChar hc (by decide)]
  rfl

/-- Neither a comma nor an arrow stands behind the first character of a heading. -/
theorem read_behind_symbol {d : Char} (hd : Token.isIdentChar d = true ∨ d = ':')
    (v : List Char) : skipBlanks (d :: v) = d :: v ∧
      (Reader.lit ",").read (d :: v) = none ∧ (Reader.lit "->").read (d :: v) = none := by
  have hskip : isSpace d = false ∧ isNewline d = false ∧ d ≠ '/' := by
    rcases hd with hd | rfl
    · exact ⟨Token.not_isSpace_of_isIdentChar hd, Token.not_isNewline_of_isIdentChar hd,
        Token.ne_of_isIdentChar hd rfl⟩
    · decide
  have hne : d ≠ ',' ∧ d ≠ '-' := by
    rcases hd with hd | rfl
    · exact ⟨Token.ne_of_isIdentChar hd (by decide), Token.ne_of_isIdentChar hd (by decide)⟩
    · decide
  refine ⟨(skip_eq_self fun c hc => ?_).1, Reader.read_lit_of_ne rfl hne.1 v,
    Reader.read_lit_of_ne rfl hne.2 v⟩
  obtain rfl := Option.some.inj hc
  exact hskip

/-! ## Blocks -/

/-- Each block has a name of its own, and no name is a keyword of a section. -/
structure AreNamed {α : Type} (blocks : List (Block α)) : Prop where
  ident : ∀ b ∈ blocks, IsIdent b.1
  not_keyword : ∀ b ∈ blocks, b.1 ∉ Token.stateKeywords
  nodup : (blocks.map Prod.fst).Nodup

/-- What may stand behind a block: nothing, or another block. -/
def EndsBlock (u : List Char) : Prop :=
  u = [] ∨ ∃ state v, IsIdent state ∧ u = '\n' :: (Written.heading state ++ v)

theorem EndsBlock.endsLine (hu : EndsBlock u) : EndsLine u := by
  rcases hu with rfl | ⟨state, v, -, rfl⟩
  · exact .inl rfl
  · exact .inr ⟨_, rfl⟩

/-- A block that is written line by line is read back, if no item can be taken for a heading. -/
theorem readsBack_block {item : Reader β} {p : Phrase} {line : α → Line} {b : Block α} {g : α → β}
    (hr : item.Shrinks)
    (hstop : ∀ state v, IsIdent state → item.read (Written.heading state ++ v) = none)
    (hstate : IsIdent b.1) (hkeyword : b.1 ∉ Token.stateKeywords)
    (hitems : ∀ a ∈ b.2, item.ReadsBack id EndsLine (line a) (g a)) :
    (block p item).ReadsBack Located.value EndsBlock
      (Written.heading b.1 ++ lined (b.2.map line)) (b.1, b.2.map g) := by
  have htext : ∀ u, Written.heading b.1 ++ lined (b.2.map line) ++ u =
      b.1.toList ++ (":".toList ++ (lined (b.2.map line) ++ u)) := by
    intro u
    rw [List.append_assoc, heading_append, List.append_assoc]
  refine ⟨fun u _ => by rw [htext, hstate.skipLines_append], fun u hu => ?_⟩
  -- behind the items stands nothing or a heading, and neither is read as an item
  have hnone : (do Reader.newlines; item).read u = none := by
    rcases hu with rfl | ⟨state, v, hstate', rfl⟩
    · rfl
    · have hline : skipBlanks ('\n' :: (Written.heading state ++ v)) =
          '\n' :: (Written.heading state ++ v) := rfl
      rw [← hline, Reader.read_newlines_bind, nextLine_newline, heading_append, List.append_assoc,
        hstate'.skipLines_append, ← List.append_assoc, ← heading_append, Option.bind_some,
        hstop state v hstate']
  obtain ⟨bs, ⟨v, hread, hv⟩, hbs⟩ :=
    exists_reads_lined (f := id) (g := g) hr hitems hu.endsLine hnone
  rw [List.map_id] at hbs
  -- a keyword would not be read as a name in front of the colon
  have hname : stateName.read (b.1.toList ++ (":".toList ++ (lined (b.2.map line) ++ u))) =
      some (b.1, ":".toList ++ (lined (b.2.map line) ++ u)) :=
    Token.stateName_append hstate (by simp; rfl) fun h => absurd h hkeyword
  have hcolon : ∀ w, skipBlanks (":".toList ++ w) = ":".toList ++ w := fun _ => rfl
  obtain ⟨x, hx, hvalue⟩ : ∃ x, (block p item).Reads (b.1.toList ++ (":".toList ++
      (lined (b.2.map line) ++ u))) x u ∧ x.value = (b.1, b.2.map g) := by
    refine Reader.Reads.located ⟨v, ?_, hv⟩
    rw [Reader.read_phrase, (Reader.reads_of_read hname).read_skip_bind, hcolon,
      Reader.read_lit_skip_bind, Reader.read_bind, hread, ← hbs]
    rfl
  exact ⟨x, htext u ▸ hx, hvalue⟩

/-- The lines of blocks are read back. -/
theorem exists_reads_blocks {item : Reader β} {p : Phrase} {line : α → Line}
    {blocks : List (Block α)} {g : α → β} (hr : item.Shrinks) (hblock : (block p item).Shrinks)
    (hstop : ∀ state v, IsIdent state → item.read (Written.heading state ++ v) = none)
    (hnamed : AreNamed blocks)
    (hitems : ∀ b ∈ blocks, ∀ a ∈ b.2, item.ReadsBack id EndsLine (line a) (g a)) :
    ∃ bs, (itemLines (block p item)).Reads
        (skipBlanks (lined (Written.ofBlocks line blocks))) bs [] ∧
      bs.map Located.value = blocks.map fun b => (b.1, b.2.map g) := by
  have htext : lined (Written.ofBlocks line blocks) =
      (blocks.flatMap fun b => '\n' :: (Written.heading b.1 ++ lined (b.2.map line))) ++ [] := by
    rw [List.append_nil, lined, Written.ofBlocks, List.flatMap_assoc]
    rfl
  rw [htext]
  refine exists_reads_itemLines hblock
    (fun b hb => readsBack_block hr hstop (hnamed.ident b hb) (hnamed.not_keyword b hb)
      (hitems b hb))
    (fun b hb w => .inr ⟨b.1, lined (b.2.map line) ++ w, hnamed.ident b hb, ?_⟩) (.inl rfl) rfl
    (skipBlanks_idem _)
  rw [List.append_assoc]

/-- Blocks with different names and without complaints are accepted. -/
theorem checkBlocks_eq_ok {seen : List String} {read : List (Located (Block (Checked α)))}
    {blocks : List (Block α)} (h : read.map Located.value = blocks.map fun b => (b.1, b.2.map .ok))
    (hnodup : (blocks.map Prod.fst).Nodup) (hseen : ∀ b ∈ blocks, b.1 ∉ seen) :
    checkBlocks seen read = .ok blocks := by
  induction read generalizing seen blocks with
  | nil =>
    obtain rfl := List.map_eq_nil_iff.mp h.symm
    rfl
  | cons x read ih =>
    obtain ⟨b, blocks, rfl⟩ := List.exists_cons_of_ne_nil (l := blocks) (by rintro rfl; cases h)
    obtain ⟨hx, hread⟩ := List.cons.inj h
    obtain ⟨hb, hblocks⟩ := List.forall_mem_cons.mp hseen
    obtain ⟨hne, hnodup⟩ := List.nodup_cons.mp hnodup
    -- the name counts as seen from here on, and it does not come again
    have hrest : checkBlocks (b.1 :: seen) read = .ok blocks := by
      refine ih hread hnodup fun b' hb' => ?_
      rw [List.mem_cons, not_or]
      exact ⟨fun heq => hne (heq ▸ List.mem_map_of_mem hb'), hblocks b' hb'⟩
    have hnew : seen.contains b.1 = false := by simpa using hb
    rw [checkBlocks, hx]
    dsimp only
    rw [hnew, gather_map_ok, hrest]
    rfl

theorem initialState_eq_ok {l : List (Located Section)} {initial : String}
    (blocks : List (Block α)) (h : found? l Section.initial? = some initial) :
    initialState l blocks = .ok initial := by
  unfold initialState
  rw [h]

/-- The lines of blocks end visibly if those of their items do. -/
theorem endsVisibly_ofBlocks {line : α → Line} {blocks : List (Block α)}
    (h : ∀ b ∈ blocks, ∀ a ∈ b.2, EndsVisibly (line a)) :
    ∀ q ∈ Written.ofBlocks line blocks, EndsVisibly q := by
  intro q hq
  obtain ⟨b, hb, hq⟩ := List.mem_flatMap.mp hq
  rcases List.mem_cons.mp hq with rfl | hq
  · exact endsVisibly_heading b.1
  · obtain ⟨a, ha, rfl⟩ := List.mem_map.mp hq
    exact h b hb a ha

end

end Acceptors.Description
