import Acceptors.Proofs.Description.Reordering
import Acceptors.Proofs.Description.Uncommented

/-!
# A comment that keeps quotes apart

If a quote stands right in front of a comment and the next line starts with a quote, the text cannot
be read. A token that ends with the first quote leaves the comment and the next line. No section and
no line of rules starts with a quote; a line inside a block may, but the line in front of it ends
with the name of a state and not with a quote.

So somewhere ahead such a comment stays until it has been reached, and from then on nothing can be
read.

## Main definitions

* `Stuck`: such a comment stands ahead or has just been reached
* `Passes`: what is read neither ends a line nor starts a comment

## Main results

* `Stuck.skipLines`: what a stuck text goes on with
* `Token.Sticks`, `IsToken.sticks`: tokens leave stuck texts
* `carriage_stuck`: readers leave stuck texts
* `Sections.not_stuck`: a text of sections is not stuck
-/

namespace Acceptors.Description

open Reader (Carries)

section

variable {s t : List Char}

/-! ## Stuck texts -/

/-- A comment ahead keeps two quotes apart, or the first of the quotes has been read: the comment
stands here, or the end of its line. -/
def Stuck (s : List Char) : Prop :=
  Trapped s ∨ JoinsQuotes s ∨ ∃ c k, isNewline c = true ∧ s = c :: '\'' :: k

theorem not_trapped_nil : ¬Trapped [] := by
  intro h
  cases h with
  | comment hcomment => cases hcomment

theorem Trapped.tail {c : Char} (h : Trapped (c :: s)) (hcomment : commentAhead (c :: s) = false) :
    Trapped s ∨ c = '\'' ∧ JoinsQuotes s := by
  cases h with
  | here h => exact .inr ⟨rfl, h⟩
  | keep _ rest => exact .inl rest
  | comment hahead => rw [hcomment] at hahead; cases hahead

/-- A text that starts with neither the comment nor the end of its line. -/
theorem Stuck.trapped {c : Char} (h : Stuck (c :: s)) (hline : isNewline c = false)
    (hcomment : commentAhead (c :: s) = false) : Trapped (c :: s) := by
  rcases h with h | h | ⟨_, _, hc, heq⟩
  · exact h
  · exact absurd h.1 (Bool.eq_false_iff.mp hcomment)
  · rw [(List.cons.inj heq).1, hc] at hline
    cases hline

theorem Trapped.dropWhile {p : Char → Bool} (h : Trapped s)
    (hp : ∀ c, p c = true → c ≠ '/' ∧ c ≠ '\'') : Trapped (s.dropWhile p) := by
  induction s with
  | nil => exact h
  | cons c s ih =>
    rw [List.dropWhile_cons]
    split
    · next hc =>
      obtain ⟨hslash, hquote⟩ := hp c hc
      exact ih ((h.tail (commentAhead_of_head hslash s)).resolve_right fun hjoins =>
        hquote hjoins.1)
    · exact h

theorem Trapped.skipBlanks (h : Trapped s) : Trapped (skipBlanks s) := by
  induction h with
  | here h =>
    rw [(skip_eq_self (by rintro _ ⟨⟩; decide)).1]
    exact .here h
  | @keep c s hcomment rest ih =>
    cases hspace : isSpace c with
    | true => rwa [skipBlanks_cons_of_isSpace hspace]
    | false =>
      rw [skipBlanks_eq_self (by rintro _ ⟨⟩; exact hspace) hcomment]
      exact .keep hcomment rest
  | comment hcomment rest => rwa [skipBlanks_of_commentAhead hcomment]

theorem Trapped.skipLines (h : Trapped s) : Trapped (skipLines s) := by
  induction h with
  | here h =>
    rw [(skip_eq_self (by rintro _ ⟨⟩; decide)).2]
    exact .here h
  | keep hcomment rest ih =>
    rw [skipLines_cons, hcomment]
    split
    · exact ih
    · exact .keep hcomment rest
  | comment hcomment _ ih => rwa [skipLines_of_commentAhead hcomment]

theorem skipBlanks_of_newline {c : Char} (hc : isNewline c = true) (s : List Char) :
    skipBlanks (c :: s) = c :: s :=
  skipBlanks_eq_self (fun _ hd => Option.some.inj hd ▸ isSpace_of_isNewline hc)
    (commentAhead_of_isNewline hc s)

theorem skipLines_of_quote {c : Char} (hc : isNewline c = true) (k : List Char) :
    skipLines (c :: '\'' :: k) = '\'' :: k := by
  rw [skipLines_cons, hc, Bool.or_true, if_pos rfl, (skip_eq_self (by rintro _ ⟨⟩; decide)).2]

/-- The line of the comment ends in front of the second quote. -/
theorem JoinsQuotes.lineRest_eq (h : JoinsQuotes s) :
    ∃ c k, isNewline c = true ∧ lineRest s = c :: '\'' :: k := by
  obtain ⟨-, c, k, hrest⟩ := h
  exact ⟨c, k, isNewline_of_mem_lineRest c (by rw [hrest]; rfl), hrest⟩

theorem Stuck.skipBlanks (h : Stuck s) : Stuck (skipBlanks s) := by
  rcases h with h | h | ⟨c, k, hc, rfl⟩
  · exact .inl h.skipBlanks
  · rw [skipBlanks_of_commentAhead h.1]
    exact .inr (.inr h.lineRest_eq)
  · rw [skipBlanks_of_newline hc]
    exact .inr (.inr ⟨c, k, hc, rfl⟩)

/-- On a later line a comment still keeps two quotes apart, or the second quote stands there. -/
theorem Stuck.skipLines (h : Stuck s) :
    Trapped (skipLines s) ∨ (skipLines s).head? = some '\'' := by
  rcases h with h | h | ⟨c, k, hc, rfl⟩
  · exact .inl h.skipLines
  · obtain ⟨c, k, hc, hrest⟩ := h.lineRest_eq
    rw [skipLines_of_commentAhead h.1, hrest, skipLines_of_quote hc]
    exact .inr rfl
  · rw [skipLines_of_quote hc]
    exact .inr rfl

/-! ## Reading along a line -/

/-- From the first text to the second only characters are read that neither end a line nor start a
comment. -/
inductive Passes : TextRel where
  | refl (s : List Char) : Passes s s
  | step {c : Char} {s t : List Char} (hline : isNewline c = false)
    (hcomment : commentAhead (c :: s) = false) (rest : Passes s t) : Passes (c :: s) t

theorem Passes.stuck (h : Passes s t) (hs : Stuck s) : Stuck t := by
  induction h with
  | refl => exact hs
  | step hline hcomment _ ih =>
    refine ih ?_
    rcases (hs.trapped hline hcomment).tail hcomment with hs | ⟨-, hs⟩
    · exact .inl hs
    · exact .inr (.inl hs)

theorem passes_append {w : List Char} (hw : ∀ c ∈ w, isNewline c = false ∧ c ≠ '/')
    (t : List Char) : Passes (w ++ t) t := by
  induction w with
  | nil => exact .refl t
  | cons c w ih =>
    obtain ⟨⟨hline, hslash⟩, hw⟩ := List.forall_mem_cons.mp hw
    exact .step hline (commentAhead_of_head hslash _) (ih hw)

theorem passes_dropWhile {p : Char → Bool} (hp : ∀ c, p c = true → isNewline c = false ∧ c ≠ '/')
    (s : List Char) : Passes s (s.dropWhile p) := by
  have h := passes_append (fun c hc => hp c (List.mem_takeWhile_imp hc)) (s.dropWhile p)
    (w := s.takeWhile p)
  rwa [List.takeWhile_append_dropWhile] at h

theorem passes_takeUntil (marks : List Char) (s : List Char) :
    Passes s (takeUntil (Token.stopsAt marks) s).2 := by
  induction s with
  | nil => exact .refl []
  | cons c s ih =>
    rw [takeUntil]
    split
    · exact .refl _
    · next hstop =>
      simp only [Token.stopsAt, Bool.or_eq_true, not_or, Bool.not_eq_true] at hstop
      exact .step hstop.1.1 hstop.2 ih

end

/-! ## Tokens -/

namespace Token

variable {α β : Type} {t t' : Token α}

/-- The token leaves stuck texts behind. -/
def Sticks (t : Token α) : Prop :=
  ∀ s a rest, skipBlanks s = s → Stuck s → t s = some (a, rest) → Stuck rest

theorem Sticks.map (h : t.Sticks) (f : α → β) :
    Sticks fun s => (t s).map fun p => (f p.1, p.2) := by
  intro s b rest hs hstuck hread
  obtain ⟨p, hp, heq⟩ := Option.map_eq_some_iff.mp hread
  rw [← (Prod.mk.inj heq).2]
  exact h s p.1 p.2 hs hstuck hp

theorem Sticks.or (h : t.Sticks) (h' : t'.Sticks) : Sticks fun s => (t s).or (t' s) := by
  intro s a rest hs hstuck hread
  rcases Option.or_eq_some_iff.mp hread with hread | ⟨-, hread⟩
  · exact h s a rest hs hstuck hread
  · exact h' s a rest hs hstuck hread

theorem Sticks.unless (h : t.Sticks) (refused : List Char → Bool) :
    Sticks fun s => if refused s then none else t s := by
  intro s a rest hs hstuck hread
  dsimp only at hread
  split at hread
  · cases hread
  · exact h s a rest hs hstuck hread

theorem sticks_run {p : Char → Bool} (hp : ∀ c, p c = true → isNewline c = false ∧ c ≠ '/') :
    (run p).Sticks := by
  intro s a rest _ hstuck hread
  rw [run_eq] at hread
  split at hread
  · cases hread
  · rw [← (Prod.mk.inj (Option.some.inj hread)).2]
    exact (passes_dropWhile hp s).stuck hstuck

theorem sticks_upTo (marks : List Char) : (upTo (stopsAt marks)).Sticks := by
  intro s a rest _ hstuck hread
  rw [upTo_eq] at hread
  split at hread
  · cases hread
  · rw [← (Prod.mk.inj (Option.some.inj hread)).2]
    exact (passes_takeUntil marks s).stuck hstuck

theorem sticks_lit {word : String} (hword : isMark word = true) :
    Sticks (Reader.lit word).read := by
  intro s a rest _ hstuck hread
  rw [eq_append_of_read_lit hread] at hstuck
  exact (passes_append (fun c hc => (forall_of_isMark hword c hc).2) rest).stuck hstuck

/-- A token of a single character that neither ends a line nor starts a comment. -/
theorem sticks_of_cons {t : Token α} (h : ∀ s a rest, skipBlanks s = s → t s = some (a, rest) →
    ∃ c, s = c :: rest ∧ isNewline c = false ∧ commentAhead s = false) : t.Sticks := by
  intro s a rest hs hstuck hread
  obtain ⟨c, rfl, hline, hcomment⟩ := h s a rest hs hread
  exact (Passes.step hline hcomment (.refl rest)).stuck hstuck

theorem sticks_plainChar (marks : List Char) : (plainChar (stopsAt marks)).Sticks := by
  refine sticks_of_cons fun s a rest _ hread => ?_
  cases s with
  | nil => cases hread
  | cons c s =>
    rw [plainChar] at hread
    split at hread
    · cases hread
    · next hstop =>
      simp only [stopsAt, Bool.or_eq_true, not_or, Bool.not_eq_true] at hstop
      exact ⟨c, by rw [(Prod.mk.inj (Option.some.inj hread)).2], hstop.1.1, hstop.2⟩

theorem sticks_direction : direction.Sticks := by
  refine sticks_of_cons fun s a rest hs hread => ?_
  cases s with
  | nil => cases hread
  | cons c s =>
    rw [direction] at hread
    split at hread
    · cases hread
    · next hstop =>
      rw [Bool.or_eq_true, not_or, Bool.not_eq_true] at hstop
      exact ⟨c, by rw [(Prod.mk.inj (Option.some.inj hread)).2], hstop.1,
        (skipBlanks_eq_self_iff.mp hs).2⟩

/-- What stands between quotes may be the end of a line. -/
theorem sticks_quotedChar : quotedChar.Sticks := by
  intro s c rest _ hstuck hread
  obtain ⟨rfl, hc⟩ := eq_append_of_quotedChar hread
  have hquote : ∀ u, commentAhead ('\'' :: u) = false := commentAhead_of_head (by decide)
  have hsecond : commentAhead (c :: '\'' :: rest) = false := by
    rw [commentAhead_cons_cons, Bool.and_eq_false_iff]
    exact .inr rfl
  have htrapped := hstuck.trapped (by decide) (hquote _)
  -- neither of the first two characters stands in front of a comment
  have hmiddle : Trapped (c :: '\'' :: rest) :=
    (htrapped.tail (hquote _)).resolve_right fun h => Bool.eq_false_iff.mp hsecond h.2.1
  have hlast : Trapped ('\'' :: rest) := (hmiddle.tail hsecond).resolve_right fun h => hc h.1
  rcases hlast.tail (hquote rest) with h | ⟨-, h⟩
  · exact .inl h
  · exact .inr (.inl h)

theorem sticks_symbol : symbol.Sticks := by
  have h : symbol = _ := funext symbol_eq
  rw [h]
  exact sticks_quotedChar.or (sticks_plainChar _)

theorem sticks_bodySymbol : bodySymbol.Sticks := by
  have h : bodySymbol = _ := funext bodySymbol_eq
  rw [h]
  exact (sticks_quotedChar.map fun c => ['\'', c, '\'']).or (sticks_upTo _)

theorem sticks_word : word.Sticks := by
  have h : word = _ := funext word_eq
  rw [h]
  have hquotes : Sticks (Reader.lit "\'\'").read := sticks_lit rfl
  exact (hquotes.map fun _ => ([] : Word)).or
    ((sticks_upTo _).map fun t => if t = emptyWordSign.toList then [] else t)

end Token

/-- No character of a run ends a line or starts a comment. -/
theorem forall_of_run {p : Char → Bool} (hslash : p '/' = false)
    (hp : ∀ c, isSpace c = true ∨ isNewline c = true → p c = false) (c : Char) (hc : p c = true) :
    isNewline c = false ∧ c ≠ '/' := by
  refine ⟨Bool.eq_false_iff.mpr fun hline => ?_, ?_⟩
  · rw [hp c (.inr hline)] at hc
    cases hc
  · rintro rfl
    rw [hslash] at hc
    cases hc

theorem IsToken.sticks {α : Type} {t : Token α} (ht : IsToken t) : t.Sticks := by
  have hrun : ∀ {p : Char → Bool}, p '/' = false → p ' ' = false → p '\t' = false →
      p '\n' = false → p '\r' = false → (Token.run p).Sticks :=
    fun hslash hblank htab hfeed hreturn =>
      Token.sticks_run (forall_of_run hslash (forall_gap hblank htab hfeed hreturn))
  have hlabel : (Token.run Token.isLabelChar).Sticks := hrun rfl rfl rfl rfl rfl
  cases ht with
  | ident => exact (hrun rfl rfl rfl rfl rfl).map String.ofList
  | digits => exact hrun rfl rfl rfl rfl rfl
  | symbol => exact Token.sticks_symbol
  | word => exact Token.sticks_word
  | bodySymbol => exact Token.sticks_bodySymbol
  | direction => exact Token.sticks_direction
  | label => exact (hlabel.map String.ofList).unless _
  | variableName => exact (hlabel.map String.ofList).unless _

/-! ## Readers -/

/-- The texts are one text with the property. -/
def Same (P : List Char → Prop) : TextRel := fun s s' => s = s' ∧ P s

/-- There is nothing to skip, and the text is stuck. -/
def StuckAtToken (s : List Char) : Prop := skipBlanks s = s ∧ Stuck s

/-- There is nothing to skip, and a comment ahead keeps two quotes apart. -/
def TrappedAtToken (s : List Char) : Prop := skipBlanks s = s ∧ Trapped s

section

variable {α : Type} {R : α → α → Prop} {r : Reader α} {P Q : List Char → Prop}

theorem carries_same (hR : ∀ a, R a a)
    (h : ∀ s a t, P s → r.read s = some (a, t) → Q t) : Carries (Same P) (Same Q) R r r := by
  rintro s _ ⟨rfl, hs⟩
  cases hread : r.read s with
  | none => exact .none
  | some p => exact .some ⟨hR p.1, rfl, h s p.1 p.2 hs hread⟩

/-- Behind the name of a state there is no quote that has been read. -/
theorem trapped_of_read_stateName {s t : List Char} {a : String} (hs : StuckAtToken s)
    (h : stateName.read s = some (a, t)) : Trapped t := by
  obtain ⟨hskip, hstuck⟩ := hs
  have hident : ∀ c, Token.isIdentChar c = true → isNewline c = false ∧ c ≠ '/' :=
    forall_of_run rfl (forall_gap rfl rfl rfl rfl)
  have hread : Token.ident s = some (a, t) := by
    rw [stateName, Reader.read_token, Token.stateName] at h
    split at h
    · cases h
    · exact h
  obtain ⟨p, hp, heq⟩ := Option.map_eq_some_iff.mp hread
  rw [Token.run_eq] at hp
  split at hp
  · cases hp
  · next hne =>
    rw [← (Prod.mk.inj heq).2, ← Option.some.inj hp]
    cases s with
    | nil => exact absurd rfl hne
    | cons c s =>
      -- the name has a first character, so neither the comment nor the end of its line stands here
      have hc : Token.isIdentChar c = true := by
        by_contra hc
        exact hne (List.takeWhile_cons_of_neg hc)
      have htrapped := hstuck.trapped (hident c hc).1 (skipBlanks_eq_self_iff.mp hskip).2
      refine htrapped.dropWhile fun d hd => ⟨(hident d hd).2, ?_⟩
      rintro rfl
      cases hd

theorem carries_stateName : Carries (Same StuckAtToken) (Same Trapped) Eq stateName stateName :=
  carries_same (fun _ => rfl) fun _ _ _ hs h => trapped_of_read_stateName hs h

theorem carries_token {t : Token α} {p : Phrase} (ht : t.Sticks) (hR : ∀ a, R a a) :
    Carries (Same StuckAtToken) (Same Stuck) R (Reader.token p t) (Reader.token p t) :=
  carries_same hR fun _ _ _ hs h => ht _ _ _ hs.1 hs.2 h

theorem skip_trapped {s s' : List Char} (h : Same Trapped s s') :
    Same TrappedAtToken (skipBlanks s) (skipBlanks s') := by
  obtain ⟨rfl, hs⟩ := h
  exact ⟨rfl, skipBlanks_idem s, hs.skipBlanks⟩

theorem carries_colon :
    Carries (Same TrappedAtToken) (Same Trapped) Eq (Reader.lit ":") (Reader.lit ":") := by
  refine carries_same (fun _ => rfl) fun s _ t hs h => ?_
  obtain rfl : s = ':' :: t := eq_append_of_read_lit h
  exact (hs.2.tail (commentAhead_of_head (by decide) t)).resolve_right fun hjoins =>
    absurd hjoins.1 (by decide)

/-- An item on the next line is read where a comment still keeps quotes apart, or it cannot be read
where the second quote stands. -/
theorem carries_newlines {Y : TextRel} (h : Carries (Same StuckAtToken) Y R r r)
    (hP : ∀ s, P s → skipBlanks s = s ∧
      (Trapped (skipLines s) ∨ r.read (skipLines s) = none)) :
    Carries (Same P) Y R (do Reader.newlines; r) (do Reader.newlines; r) := by
  rintro s _ ⟨rfl, hs⟩
  obtain ⟨hskip, hlines⟩ := hP s hs
  rw [← hskip, Reader.read_newlines_bind]
  cases hline : nextLine s with
  | none => exact .none
  | some u =>
    rw [nextLine_eq_some hline, Option.bind_some]
    rcases hlines with htrapped | hnone
    · exact h _ _ ⟨rfl, skipBlanks_skipLines s, .inl htrapped⟩
    · rw [hnone]
      exact .none

/-- Readers leave stuck texts, and behind the name of a state a text with the comment ahead. -/
theorem carriage_stuck :
    Carriage (Same StuckAtToken) (Same Stuck) (Same Trapped) fun v => v.head? = some '\'' where
  start := fun ⟨heq, hs⟩ => ⟨heq, hs.2⟩
  name := fun ⟨heq, hs⟩ => ⟨heq, .inl hs⟩
  skip := fun ⟨heq, hs⟩ => ⟨congrArg skipBlanks heq, skipBlanks_idem _, hs.skipBlanks⟩
  lit hword := carries_same (fun _ => rfl) fun _ _ _ hs h =>
    Token.sticks_lit hword _ _ _ hs.1 hs.2 h
  token ht _ := carries_token ht.sticks fun _ => rfl
  stateName := carries_stateName
  text := carries_token (Token.sticks_upTo []) fun _ => rfl
  newlines h _ hV := carries_newlines h fun _ hs => ⟨hs.1, hs.2.skipLines.imp_right (hV _)⟩
  block h hr := .post (carries_block carries_stateName skip_trapped carries_colon
    (fun ⟨heq, hs⟩ => ⟨heq, hs.2⟩)
    (carries_newlines h fun _ hs => ⟨hs.1, .inl hs.2.skipLines⟩) hr) fun ⟨heq, hs⟩ => ⟨heq, .inl hs⟩

end

/-! ## Sections -/

section

variable {kind : Kind} {s : List Char} {l : List (Located Section)}

/-- No rule starts with a quote. -/
theorem startsRule_of_quote (kind : Kind) {v : List Char} (h : v.head? = some '\'') :
    startsRule kind v = false := by
  obtain ⟨k, rfl⟩ := List.head?_eq_some_iff.mp h
  cases kind <;> rfl

/-- No section starts with a quote. -/
theorem sectionReader_of_quote (kind : Kind) {v : List Char} (h : v.head? = some '\'') :
    (sectionReader kind).read v = none := by
  cases hread : (sectionReader kind).read v with
  | none => rfl
  | some p =>
    have hkeyword := (hasHeading_of_read_sectionReader hread).startsWithKeyword
    exact absurd h (no_rule_of_startsWithKeyword hkeyword).2.2

/-- A text of sections is not stuck: a comment that keeps two quotes apart stays ahead from section
to section, and nothing is read where it has been reached. -/
theorem Sections.not_stuck (h : Sections kind s l) : ¬Stuck s := by
  have hsection : Carries (Same StuckAtToken) (Same Stuck) Section.Alike (sectionReader kind)
      (sectionReader kind) := carriage_stuck.sectionReader fun _ => startsRule_of_quote kind
  induction h with
  | done hnil =>
    intro hs
    -- behind the last section nothing is left
    rcases hs.skipLines with h | h <;> rw [hnil] at h
    · exact not_trapped_nil h
    · cases h
  | @next s t _ x _ hline hx _ ih =>
    intro hs
    obtain ⟨⟨y, v⟩, hy, heq⟩ := Option.map_eq_some_iff.mp hx
    obtain ⟨-, rfl⟩ := Prod.mk.inj heq
    rw [nextLine_eq_some hline] at hy
    rcases hs.skipLines with h | h
    · obtain ⟨_, -, -, hq, hstuck⟩ := Reader.rel_of_eq_some
        (hsection _ _ ⟨rfl, skipBlanks_skipLines s, .inl h⟩) hy
      exact ih hstuck
    · rw [sectionReader_of_quote kind h] at hy
      cases hy

end

end Acceptors.Description
