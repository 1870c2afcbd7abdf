import Acceptors.Proofs.Description.Uncommented

/-!
# Reading pruned texts

Every token that stands at the start of a text stands at the start of the pruned text as well, and
the other way round. A token ends in front of a comment or, where the comment is gone, in front of
the end of the line. Only quoted characters need that no comment keeps two quotes apart, and only
the text of a name may lose blanks at its end, which are not part of the name.

## Main definitions

* `SameRead`: the same is read of a text and of the pruned text
* `Tidy`: there is nothing to skip in front of a token

## Main results

* `Pruned.rel_run`, `Pruned.rel_upTo`, `Pruned.rel_quotedChar`: the parts that tokens are made of
* `Pruned.rel_token`, `Pruned.rel_text`: the tokens
* `carriage_pruned`: readers read the same from a pruned text
-/

namespace Acceptors.Description

open Reader (Carries)

/-! ## Tokens of pruned texts -/

/-- What is read of a text and of the pruned text: the same, and what is left is pruned again; or
nothing. -/
abbrev SameRead {α : Type} : Option (α × List Char) → Option (α × List Char) → Prop :=
  Option.Rel fun p p' => p.1 = p'.1 ∧ Pruned p.2 p'.2

section

variable {s s' : List Char} {p : Char → Bool} {marks : List Char}

/-! ### Gaps -/

theorem IsGap.head?_any (h : IsGap s) (hslash : p '/' = false)
    (hp : ∀ c, isSpace c = true ∨ isNewline c = true → p c = false) : s.head?.any p = false := by
  rcases h with hcomment | hblank
  · obtain ⟨t, rfl⟩ := commentAhead_eq_true hcomment
    exact hslash
  · cases s with
    | nil => rfl
    | cons c s => exact hp c (hblank c rfl)

theorem IsGap.stopsAt (h : IsGap s) (hmarks : ∀ c, isSpace c = true → c ∈ marks) (hne : s ≠ []) :
    Token.stopsAt marks s = true := by
  cases s with
  | nil => exact absurd rfl hne
  | cons c s =>
    rw [Token.stopsAt]
    rcases h with hcomment | hblank
    · rw [hcomment, Bool.or_true]
    · rcases hblank c rfl with hspace | hline
      · rw [List.contains_iff_mem.mpr (hmarks c hspace), Bool.or_true, Bool.true_or]
      · rw [hline, Bool.true_or, Bool.true_or]

theorem Pruned.stopsAt_cons (h : Pruned s s') {c : Char}
    (hcomment : commentAhead (c :: s) = false) :
    Token.stopsAt marks (c :: s') = Token.stopsAt marks (c :: s) := by
  rw [Token.stopsAt, Token.stopsAt, hcomment, h.commentAhead_cons hcomment]

theorem Pruned.head?_any (h : Pruned s s') (hslash : p '/' = false)
    (hp : ∀ c, isSpace c = true ∨ isNewline c = true → p c = false) :
    s.head?.any p = s'.head?.any p := by
  rcases h.cases with ⟨hs, hs'⟩ | ⟨c, t, t', rfl, rfl, -⟩
  · rw [hs.head?_any hslash hp, hs'.head?_any hslash hp]
  · rfl

/-! ### Words -/

/-- A word stands at the start of both texts or of neither. -/
theorem Pruned.prefix_cases (h : Pruned s s') {w : List Char}
    (hw : ∀ c ∈ w, isSpace c = false ∧ isNewline c = false ∧ c ≠ '/') :
    (∃ t t', s = w ++ t ∧ s' = w ++ t' ∧ Pruned t t') ∨ (¬w <+: s ∧ ¬w <+: s') := by
  induction w generalizing s s' with
  | nil => exact .inl ⟨s, s', rfl, rfl, h⟩
  | cons c w ih =>
    obtain ⟨⟨hspace, hline, hslash⟩, hw⟩ := List.forall_mem_cons.mp hw
    rcases h.cases with ⟨hs, hs'⟩ | ⟨d, t, t', rfl, rfl, -, -, ht⟩
    · -- no word starts in a gap
      have hgap : ∀ {u}, IsGap u → ¬c :: w <+: u := by
        rintro u hu ⟨v, rfl⟩
        rcases hu with hcomment | hblank
        · rw [List.cons_append, commentAhead_of_head hslash] at hcomment
          cases hcomment
        · rcases hblank c rfl with hc | hc
          · rw [hspace] at hc
            cases hc
          · rw [hline] at hc
            cases hc
      exact .inr ⟨hgap hs, hgap hs'⟩
    · by_cases hcd : c = d
      · subst hcd
        rcases ih ht hw with ⟨v, v', rfl, rfl, hv⟩ | ⟨hno, hno'⟩
        · exact .inl ⟨v, v', rfl, rfl, hv⟩
        · exact .inr ⟨fun hp => hno (List.cons_prefix_cons.mp hp).2,
            fun hp => hno' (List.cons_prefix_cons.mp hp).2⟩
      · exact .inr ⟨fun hp => hcd (List.cons_prefix_cons.mp hp).1,
          fun hp => hcd (List.cons_prefix_cons.mp hp).1⟩

theorem Pruned.isPrefixOf_eq (h : Pruned s s') {w : List Char}
    (hw : ∀ c ∈ w, isSpace c = false ∧ isNewline c = false ∧ c ≠ '/') :
    w.isPrefixOf s = w.isPrefixOf s' := by
  rw [Bool.eq_iff_iff, List.isPrefixOf_iff_prefix, List.isPrefixOf_iff_prefix]
  rcases h.prefix_cases hw with ⟨t, t', rfl, rfl, -⟩ | ⟨hno, hno'⟩
  · exact iff_of_true (List.prefix_append w t) (List.prefix_append w t')
  · exact iff_of_false hno hno'

theorem Pruned.rel_lit (h : Pruned s s') {word : String} (hword : isMark word = true) :
    SameRead ((Reader.lit word).read s) ((Reader.lit word).read s') := by
  rcases h.prefix_cases (forall_of_isMark hword) with ⟨t, t', rfl, rfl, ht⟩ | ⟨hno, hno'⟩
  · rw [read_lit_append, read_lit_append]
    exact .some ⟨rfl, ht⟩
  · simp only [Reader.lit, List.isPrefixOf_iff_prefix, if_neg hno, if_neg hno']
    exact .none

theorem Pruned.keywordAhead_eq (h : Pruned s s') {keywords : List String}
    (hkeywords : ∀ k ∈ keywords, isMark (k ++ ":") = true) :
    Token.keywordAhead keywords s = Token.keywordAhead keywords s' := by
  rw [Token.keywordAhead, Token.keywordAhead, Bool.eq_iff_iff, List.any_eq_true, List.any_eq_true]
  refine exists_congr fun k => and_congr_right fun hk => ?_
  have hchars := forall_of_isMark (hkeywords k hk)
  rw [String.toList_append] at hchars
  have hstands : (k.toList ++ [':']).isPrefixOf s = (k.toList ++ [':']).isPrefixOf s' :=
    h.isPrefixOf_eq hchars
  rw [hstands]

theorem Pruned.instructionWordAhead_eq (h : Pruned s s') :
    Token.instructionWordAhead s = Token.instructionWordAhead s' := by
  have hwords : ∀ k ∈ Token.instructionWords, isMark k = true := by decide
  rw [Token.instructionWordAhead, Token.instructionWordAhead, Bool.eq_iff_iff, List.any_eq_true,
    List.any_eq_true]
  refine exists_congr fun k => and_congr_right fun hk => ?_
  have hchars := forall_of_isMark (hwords k hk)
  rw [h.isPrefixOf_eq hchars, Bool.and_eq_true, Bool.and_eq_true]
  refine and_congr_right fun hstands => ?_
  rcases h.prefix_cases hchars with ⟨t, t', rfl, rfl, ht⟩ | ⟨-, hno'⟩
  · rw [← String.length_toList, List.drop_left, List.drop_left,
      ht.head?_any rfl (forall_gap rfl rfl rfl rfl)]
  · exact absurd (List.isPrefixOf_iff_prefix.mp hstands) hno'

/-! ### Runs of characters -/

theorem IsGap.takeWhile (h : IsGap s) (hslash : p '/' = false)
    (hp : ∀ c, isSpace c = true ∨ isNewline c = true → p c = false) :
    s.takeWhile p = [] ∧ s.dropWhile p = s := by
  have hhead := h.head?_any hslash hp
  cases s with
  | nil => exact ⟨rfl, rfl⟩
  | cons c s =>
    have hc : ¬p c = true := Bool.eq_false_iff.mp hhead
    exact ⟨List.takeWhile_cons_of_neg hc, List.dropWhile_cons_of_neg hc⟩

theorem Pruned.takeWhile (h : Pruned s s') (hslash : p '/' = false)
    (hp : ∀ c, isSpace c = true ∨ isNewline c = true → p c = false) :
    s.takeWhile p = s'.takeWhile p ∧ Pruned (s.dropWhile p) (s'.dropWhile p) := by
  induction s generalizing s' with
  | nil => rw [h.eq_nil]; exact ⟨rfl, .done rfl⟩
  | cons c s ih =>
    rcases h.cases with ⟨hs, hs'⟩ | ⟨_, t, t', heq, rfl, -, -, ht⟩
    · obtain ⟨htake, hdrop⟩ := hs.takeWhile hslash hp
      obtain ⟨htake', hdrop'⟩ := hs'.takeWhile hslash hp
      rw [htake, htake', hdrop, hdrop']
      exact ⟨rfl, h⟩
    · obtain ⟨rfl, rfl⟩ := List.cons.inj heq
      cases hc : p c with
      | true =>
        obtain ⟨htake, hdrop⟩ := ih ht
        simp only [List.takeWhile_cons_of_pos hc, List.dropWhile_cons_of_pos hc, htake]
        exact ⟨trivial, hdrop⟩
      | false =>
        have hneg : ¬p c = true := Bool.eq_false_iff.mp hc
        simp only [List.takeWhile_cons_of_neg hneg, List.dropWhile_cons_of_neg hneg]
        exact ⟨trivial, h⟩

theorem Pruned.rel_run (h : Pruned s s') (hslash : p '/' = false)
    (hp : ∀ c, isSpace c = true ∨ isNewline c = true → p c = false) :
    SameRead (Token.run p s) (Token.run p s') := by
  obtain ⟨htake, hdrop⟩ := h.takeWhile hslash hp
  rw [Token.run_eq, Token.run_eq, htake]
  split
  · exact .none
  · exact .some ⟨rfl, hdrop⟩

/-! ### Characters up to a stop -/

theorem IsGap.takeUntil_stopsAt (h : IsGap s) (hmarks : ∀ c, isSpace c = true → c ∈ marks) :
    takeUntil (Token.stopsAt marks) s = ([], s) :=
  Token.takeUntil_of_stop (h.stopsAt hmarks)

theorem Pruned.takeUntil_stopsAt (h : Pruned s s') (hmarks : ∀ c, isSpace c = true → c ∈ marks) :
    (takeUntil (Token.stopsAt marks) s).1 = (takeUntil (Token.stopsAt marks) s').1 ∧
      Pruned (takeUntil (Token.stopsAt marks) s).2 (takeUntil (Token.stopsAt marks) s').2 := by
  induction s generalizing s' with
  | nil => rw [h.eq_nil]; exact ⟨rfl, .done rfl⟩
  | cons c s ih =>
    rcases h.cases with ⟨hs, hs'⟩ | ⟨_, t, t', heq, rfl, hcomment, -, ht⟩
    · rw [hs.takeUntil_stopsAt hmarks, hs'.takeUntil_stopsAt hmarks]
      exact ⟨rfl, h⟩
    · obtain ⟨rfl, rfl⟩ := List.cons.inj heq
      rw [takeUntil, takeUntil, ht.stopsAt_cons hcomment]
      split
      · exact ⟨rfl, h⟩
      · obtain ⟨htake, hrest⟩ := ih ht
        exact ⟨congrArg (c :: ·) htake, hrest⟩

theorem Pruned.rel_upTo (h : Pruned s s') (hmarks : ∀ c, isSpace c = true → c ∈ marks) :
    SameRead (Token.upTo (Token.stopsAt marks) s) (Token.upTo (Token.stopsAt marks) s') := by
  obtain ⟨htake, hrest⟩ := h.takeUntil_stopsAt hmarks
  rw [Token.upTo_eq, Token.upTo_eq, htake]
  split
  · exact .none
  · exact .some ⟨htake, hrest⟩

/-! ### Single characters -/

theorem quotedChar_append {c : Char} (hc : c ≠ '\'') (rest : List Char) :
    Token.quotedChar ('\'' :: c :: '\'' :: rest) = some (c, rest) :=
  if_pos ⟨rfl, rfl, hc⟩

/-- A quoted character of the text is one of the pruned text. -/
theorem Pruned.of_quoted {c : Char} {rest : List Char}
    (h : Pruned ('\'' :: c :: '\'' :: rest) s') :
    ∃ rest', s' = '\'' :: c :: '\'' :: rest' ∧ Pruned rest rest' := by
  have hquote : ∀ {t t' : List Char}, Pruned ('\'' :: t) t' → ∃ u, t' = '\'' :: u ∧ Pruned t u := by
    intro t t' ht
    rcases ht.cases with ⟨hgap | hgap, -⟩ | ⟨_, _, u, heq, rfl, -, -, hu⟩
    · rw [commentAhead_of_head (by decide)] at hgap
      cases hgap
    · exact absurd (hgap '\'' rfl) (by decide)
    · obtain ⟨rfl, rfl⟩ := List.cons.inj heq
      exact ⟨u, rfl, hu⟩
  obtain ⟨t, rfl, ht⟩ := hquote h
  -- what stands between the quotes is kept, as the quote behind it is left
  have hsecond : ∃ u, t = c :: u ∧ Pruned ('\'' :: rest) u := by
    cases ht with
    | done hnil =>
      rw [skipLines_cons] at hnil
      split at hnil
      · cases hnil
      · split at hnil
        · next hcomment =>
          rw [commentAhead_cons_cons] at hcomment
          simp at hcomment
        · cases hnil
    | keep _ _ hrest => exact ⟨_, rfl, hrest⟩
    | comment hcomment =>
      rw [commentAhead_cons_cons] at hcomment
      simp at hcomment
  obtain ⟨u, rfl, hu⟩ := hsecond
  obtain ⟨rest', rfl, hrest⟩ := hquote hu
  exact ⟨rest', rfl, hrest⟩

/-- A quoted character of the pruned text is one of the text: no comment has kept the quotes
apart. -/
theorem Pruned.quoted_of {c : Char} {rest' : List Char}
    (h : Pruned s ('\'' :: c :: '\'' :: rest')) : ∃ rest, s = '\'' :: c :: '\'' :: rest := by
  have hquote : ∀ {t t' : List Char}, Pruned t ('\'' :: t') →
      ∃ u, t = '\'' :: u ∧ ¬JoinsQuotes u ∧ Pruned u t' := by
    intro t t' ht
    rcases ht.cases with ⟨-, hgap | hgap⟩ | ⟨_, u, _, rfl, heq, -, hjoins, hu⟩
    · rw [commentAhead_of_head (by decide)] at hgap
      cases hgap
    · exact absurd (hgap '\'' rfl) (by decide)
    · obtain ⟨rfl, rfl⟩ := List.cons.inj heq
      exact ⟨u, rfl, hjoins rfl, hu⟩
  obtain ⟨t, rfl, hjoins, ht⟩ := hquote h
  cases ht with
  | @keep _ u _ _ _ hu =>
    obtain ⟨rest, rfl, -⟩ := hquote hu
    exact ⟨rest, rfl⟩
  | comment hcomment hrest =>
    -- the first quote would stand in front of a comment, and the other one on the next line
    refine absurd ⟨hcomment, ?_⟩ hjoins
    cases hline : lineRest t with
    | nil => rw [hline] at hrest; cases hrest.eq_nil
    | cons d k =>
      rw [hline] at hrest
      cases hrest with
      | keep _ _ hk =>
        obtain ⟨k', rfl, -⟩ := hquote hk
        exact ⟨_, k', rfl⟩
      | comment hcomment' =>
        have hd : isNewline d = true := isNewline_of_mem_lineRest d (by rw [hline]; rfl)
        rw [commentAhead_of_isNewline hd] at hcomment'
        cases hcomment'

theorem Pruned.rel_quotedChar (h : Pruned s s') :
    SameRead (Token.quotedChar s) (Token.quotedChar s') := by
  cases hs : Token.quotedChar s with
  | some p =>
    obtain ⟨rfl, hc⟩ := eq_append_of_quotedChar hs
    obtain ⟨rest', rfl, hrest⟩ := h.of_quoted
    rw [quotedChar_append hc]
    exact .some ⟨rfl, hrest⟩
  | none =>
    cases hs' : Token.quotedChar s' with
    | none => exact .none
    | some p' =>
      obtain ⟨rfl, hc⟩ := eq_append_of_quotedChar hs'
      obtain ⟨rest, rfl⟩ := h.quoted_of
      rw [quotedChar_append hc] at hs
      cases hs

theorem Pruned.rel_plainChar (h : Pruned s s') (hmarks : ∀ c, isSpace c = true → c ∈ marks) :
    SameRead (Token.plainChar (Token.stopsAt marks) s)
      (Token.plainChar (Token.stopsAt marks) s') := by
  have hgap : ∀ {u}, IsGap u → Token.plainChar (Token.stopsAt marks) u = none := by
    intro u hu
    cases u with
    | nil => rfl
    | cons c u => rw [Token.plainChar, if_pos (hu.stopsAt hmarks (List.cons_ne_nil c u))]
  rcases h.cases with ⟨hs, hs'⟩ | ⟨c, t, t', rfl, rfl, hcomment, -, ht⟩
  · rw [hgap hs, hgap hs']
    exact .none
  · rw [Token.plainChar, Token.plainChar, ht.stopsAt_cons hcomment]
    split
    · exact .none
    · exact .some ⟨rfl, ht⟩

/-! ### Names -/

/-- Where nothing is left on later lines, only blanks are left on this line. -/
theorem takeUntil_of_skipLines (h : skipLines s = []) :
    (∀ c ∈ (takeUntil (Token.stopsAt []) s).1, isSpace c = true) ∧
      skipLines (takeUntil (Token.stopsAt []) s).2 = [] := by
  induction s with
  | nil => exact ⟨List.forall_mem_nil _, rfl⟩
  | cons c s ih =>
    rw [takeUntil]
    split
    · exact ⟨List.forall_mem_nil _, h⟩
    · next hstop =>
      -- neither a line ends nor a comment starts here, so a blank stands here
      simp only [Token.stopsAt, Bool.or_eq_true, not_or, Bool.not_eq_true] at hstop
      rw [skipLines_cons, hstop.1.1, hstop.2, Bool.or_false] at h
      split at h
      · next hspace =>
        obtain ⟨hblank, hrest⟩ := ih h
        exact ⟨List.forall_mem_cons.mpr ⟨hspace, hblank⟩, hrest⟩
      · cases h

/-- On the rest of the line the pruned text may lack blanks at the end. -/
theorem Pruned.takeUntil_line (h : Pruned s s') :
    (∃ b, (∀ c ∈ b, isSpace c = true) ∧ (takeUntil (Token.stopsAt []) s).1 =
      (takeUntil (Token.stopsAt []) s').1 ++ b) ∧
        Pruned (takeUntil (Token.stopsAt []) s).2 (takeUntil (Token.stopsAt []) s').2 := by
  induction h with
  | done h =>
    obtain ⟨hblank, hrest⟩ := takeUntil_of_skipLines h
    exact ⟨⟨_, hblank, rfl⟩, .done hrest⟩
  | @keep c s s' hcomment hquote rest ih =>
    obtain ⟨⟨b, hb, htake⟩, hrest⟩ := ih
    rw [takeUntil, takeUntil, rest.stopsAt_cons hcomment]
    split
    · exact ⟨⟨[], List.forall_mem_nil _, (List.append_nil _).symm⟩, .keep hcomment hquote rest⟩
    · exact ⟨⟨b, hb, congrArg (c :: ·) htake⟩, hrest⟩
  | @comment s s' hcomment rest =>
    -- the text stops in front of the comment, the pruned text in front of the end of the line
    have hs : s ≠ [] → Token.stopsAt [] s = true := by
      obtain ⟨t, rfl⟩ := commentAhead_eq_true hcomment
      exact fun _ => rfl
    have hs' : s' ≠ [] → Token.stopsAt [] s' = true := by
      have hline := rest.head?_newline isNewline_of_mem_lineRest
      cases s' with
      | nil => exact fun hne => absurd rfl hne
      | cons c t => exact fun _ => by rw [Token.stopsAt, hline c rfl]; rfl
    rw [Token.takeUntil_of_stop hs, Token.takeUntil_of_stop hs']
    exact ⟨⟨[], List.forall_mem_nil _, (List.append_nil _).symm⟩, .comment hcomment rest⟩

end

/-! ## Where a token starts -/

/-- The texts are in the relation, and there is nothing to skip in the first. -/
def Tidy (Y : TextRel) : TextRel := fun s s' => skipBlanks s = s ∧ Y s s'

section

variable {s s' : List Char}

theorem not_isSpace_of_skipBlanks (h : skipBlanks s = s) : ∀ c ∈ s.head?, isSpace c = false :=
  (skipBlanks_eq_self_iff.mp h).1

theorem not_commentAhead_of_skipBlanks (h : skipBlanks s = s) : commentAhead s = false :=
  (skipBlanks_eq_self_iff.mp h).2

/-- In the pruned text there is nothing to skip either. -/
theorem Pruned.skipBlanks_eq_self (h : Pruned s s') (hs : Description.skipBlanks s = s) :
    Description.skipBlanks s' = s' := by
  obtain ⟨hspace, hcomment⟩ := skipBlanks_eq_self_iff.mp hs
  cases h with
  | done => rfl
  | keep _ _ rest => exact Description.skipBlanks_eq_self hspace (rest.commentAhead_cons hcomment)
  | comment hahead => rw [hcomment] at hahead; cases hahead

theorem direction_of_isGap (hs : skipBlanks s = s) (hgap : IsGap s) : Token.direction s = none := by
  cases s with
  | nil => rfl
  | cons c s =>
    rcases hgap with hcomment | hblank
    · rw [not_commentAhead_of_skipBlanks hs] at hcomment
      cases hcomment
    · rcases hblank c rfl with hspace | hline
      · rw [not_isSpace_of_skipBlanks hs c rfl] at hspace
        cases hspace
      · rw [Token.direction, hline]
        rfl

theorem Pruned.rel_direction (h : Pruned s s') (hs : Description.skipBlanks s = s) :
    SameRead (Token.direction s) (Token.direction s') := by
  have hs' := h.skipBlanks_eq_self hs
  rcases h.cases with ⟨hgap, hgap'⟩ | ⟨c, t, t', rfl, rfl, -, -, ht⟩
  · rw [direction_of_isGap hs hgap, direction_of_isGap hs' hgap']
    exact .none
  · rw [Token.direction, Token.direction]
    split
    · exact .none
    · exact .some ⟨rfl, ht⟩

/-- The text of a name may lack blanks at its end. -/
theorem Pruned.rel_text (h : Pruned s s') (hs : Description.skipBlanks s = s) :
    Option.Rel (fun p p' => Text.trim p.1 = Text.trim p'.1 ∧ Pruned p.2 p'.2) (Token.text s)
      (Token.text s') := by
  obtain ⟨⟨b, hb, htake⟩, hrest⟩ := h.takeUntil_line
  have hempty : (takeUntil (Token.stopsAt []) s).1 = [] ↔
      (takeUntil (Token.stopsAt []) s').1 = [] := by
    rw [htake]
    refine ⟨fun hnil => (List.append_eq_nil_iff.mp hnil).1, fun hnil => ?_⟩
    -- the text of a name does not start with a blank
    have hsplit := takeUntil_eq (Token.stopsAt []) s
    rw [htake, hnil, List.nil_append] at hsplit
    cases b with
    | nil => rw [hnil, List.append_nil]
    | cons c b =>
      have hc := not_isSpace_of_skipBlanks hs c (by rw [← hsplit]; rfl)
      rw [hb c List.mem_cons_self] at hc
      cases hc
  rw [Token.text, Token.upTo_eq, Token.upTo_eq]
  by_cases hnil : (takeUntil (Token.stopsAt []) s).1 = []
  · rw [if_pos hnil, if_pos (hempty.mp hnil)]
    exact .none
  · rw [if_neg hnil, if_neg fun hnil' => hnil (hempty.mpr hnil')]
    refine .some ⟨?_, hrest⟩
    rw [htake]
    exact trim_append_blanks hb _

end

/-! ## Readers of pruned texts -/

section

variable {α β : Type}

theorem rel_map_token {x x' : Option (α × List Char)} (h : SameRead x x') (f : α → β) :
    SameRead (x.map fun p => (f p.1, p.2)) (x'.map fun p => (f p.1, p.2)) :=
  Reader.rel_map h fun _ _ hp => ⟨congrArg f hp.1, hp.2⟩

theorem rel_unless {x x' : Option (α × List Char)} {refused refused' : Bool}
    (hrefused : refused = refused') (h : SameRead x x') :
    SameRead (if refused then none else x) (if refused' then none else x') := by
  rw [hrefused]
  split
  · exact .none
  · exact h

variable {s s' : List Char}

theorem Pruned.rel_ident (h : Pruned s s') : SameRead (Token.ident s) (Token.ident s') :=
  rel_map_token (h.rel_run rfl (forall_gap rfl rfl rfl rfl)) String.ofList

theorem Pruned.rel_stateName (h : Pruned s s') :
    SameRead (Token.stateName s) (Token.stateName s') :=
  rel_unless (h.keywordAhead_eq (by decide)) h.rel_ident

theorem Pruned.rel_label (h : Pruned s s') : SameRead (Token.label s) (Token.label s') :=
  rel_unless (h.keywordAhead_eq (by decide)) <|
    rel_map_token (h.rel_run rfl (forall_gap rfl rfl rfl rfl)) String.ofList

theorem Pruned.rel_variableName (h : Pruned s s') :
    SameRead (Token.variableName s) (Token.variableName s') := by
  have hrun := h.rel_run (p := Token.isLabelChar) rfl (forall_gap rfl rfl rfl rfl)
  refine rel_unless ?_ (rel_map_token hrun String.ofList)
  rw [h.instructionWordAhead_eq, h.head?_any rfl (forall_gap rfl rfl rfl rfl)]

theorem Pruned.rel_symbol (h : Pruned s s') : SameRead (Token.symbol s) (Token.symbol s') := by
  rw [Token.symbol_eq, Token.symbol_eq]
  exact Reader.rel_or h.rel_quotedChar
    (h.rel_plainChar (Token.forall_isSpace (by decide) (by decide)))

theorem Pruned.rel_bodySymbol (h : Pruned s s') :
    SameRead (Token.bodySymbol s) (Token.bodySymbol s') := by
  rw [Token.bodySymbol_eq, Token.bodySymbol_eq]
  exact Reader.rel_or (rel_map_token h.rel_quotedChar fun c => ['\'', c, '\''])
    (h.rel_upTo (Token.forall_isSpace (by decide) (by decide)))

theorem Pruned.rel_word (h : Pruned s s') : SameRead (Token.word s) (Token.word s') := by
  rw [Token.word_eq, Token.word_eq]
  exact Reader.rel_or (rel_map_token (h.rel_lit rfl) fun _ => [])
    (rel_map_token (h.rel_upTo (Token.forall_isSpace (by decide) (by decide)))
      fun t => if t = emptyWordSign.toList then [] else t)

/-- The tokens of a text are those of the pruned text. -/
theorem Pruned.rel_token (h : Pruned s s') (hs : Description.skipBlanks s = s) {t : Token α}
    (ht : IsToken t) : SameRead (t s) (t s') := by
  cases ht with
  | ident => exact h.rel_ident
  | digits => exact h.rel_run rfl (forall_gap rfl rfl rfl rfl)
  | symbol => exact h.rel_symbol
  | word => exact h.rel_word
  | bodySymbol => exact h.rel_bodySymbol
  | direction => exact h.rel_direction hs
  | label => exact h.rel_label
  | variableName => exact h.rel_variableName

theorem Pruned.skipBlanks_tidy (h : Pruned s s') :
    Tidy Pruned (Description.skipBlanks s) (Description.skipBlanks s') :=
  ⟨skipBlanks_idem s, h.skipBlanks⟩

/-- In both texts the next line starts where a token starts. -/
theorem Pruned.rel_nextLine (h : Pruned s s') (hs : Description.skipBlanks s = s) :
    Option.Rel (Tidy Pruned) (nextLine s) (nextLine s') ∨
      nextLine s = some [] ∧ nextLine s' = none := by
  have hs' := h.skipBlanks_eq_self hs
  rw [nextLine_eq, nextLine_eq, hs, hs']
  cases h with
  | done hnil =>
    rw [hnil]
    split
    · exact .inr ⟨rfl, rfl⟩
    · exact .inl .none
  | @keep c t t' hcomment hquote rest =>
    refine .inl ?_
    rw [List.head?_cons, List.head?_cons]
    split
    · exact .some ⟨skipBlanks_skipLines _, (Pruned.keep hcomment hquote rest).skipLines⟩
    · exact .none
  | comment hcomment => rw [not_commentAhead_of_skipBlanks hs] at hcomment; cases hcomment

theorem carries_newlines_pruned {R : α → α → Prop} {r : Reader α}
    (h : Carries (Tidy Pruned) Pruned R r r) (hr : r.Shrinks) :
    Carries (Tidy Pruned) Pruned R (do Reader.newlines; r) (do Reader.newlines; r) := by
  rintro s s' ⟨hs, hss'⟩
  rw [← hs, ← hss'.skipBlanks_eq_self hs, Reader.read_newlines_bind, Reader.read_newlines_bind]
  rcases hss'.rel_nextLine hs with hline | ⟨hline, hline'⟩
  · exact Reader.rel_bind hline h
  · -- no line is left in the pruned text, and nothing on the last one of the text
    rw [hline, hline', Option.bind_some, hr.read_nil]
    exact .none

/-- Readers read the same from a pruned text. -/
theorem carriage_pruned : Carriage (Tidy Pruned) Pruned Pruned fun _ => False where
  start h := h.2
  name h := h
  skip h := h.skipBlanks_tidy
  lit hword _ _ h := h.2.rel_lit hword
  token ht _ _ _ h := h.2.rel_token h.1 ht
  stateName _ _ h := h.2.rel_stateName
  text _ _ h := h.2.rel_text h.1
  newlines h hr _ := carries_newlines_pruned h hr
  block h hr := carries_block (fun _ _ h => h.2.rel_stateName) (fun h => h.skipBlanks_tidy)
    (fun _ _ h => h.2.rel_lit rfl) (fun h => h.2) (carries_newlines_pruned h hr) hr

end

end Acceptors.Description
