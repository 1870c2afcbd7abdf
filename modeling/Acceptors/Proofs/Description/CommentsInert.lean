import Acceptors.Proofs.Description.PrunedReading
import Acceptors.Proofs.Description.Traps

/-!
# Comments are inert

A description without its comments describes the same. In a text that can be read no comment keeps
two quotes apart, so the text without its comments is pruned, and its sections are read from the
pruned text as well. The white space at the two ends of the text is left out before the text is
read; what is left between them is the same with and without comments, as long as it is white space
that may stand between sections.

## Main definitions

* `SkippableWhite`: all white space is blanks, tabs and ends of lines

## Main results

* `Sections.pruned`: the sections of a pruned text
* `trim_uncommented`: white space around a text without its comments
* `parse_uncommented`: a text without its comments describes the same
-/

namespace Acceptors.Description

open Reader (Carries)

section

variable {kind : Kind} {s s' : List Char} {l l' : List (Located Section)}

/-! ## Sections -/

/-- A pruned text holds the sections of the text. -/
theorem Sections.pruned (h : Sections kind s l) (hs : Pruned s s') :
    ∃ l', Sections kind s' l' ∧ AllAlike l l' := by
  have hsection : Carries (Tidy Pruned) Pruned Section.Alike (sectionReader kind)
      (sectionReader kind) := carriage_pruned.sectionReader fun _ h => h.elim
  induction h generalizing s' with
  | done hnil =>
    have hlines := hs.skipLines
    rw [hnil] at hlines
    exact ⟨[], .done hlines.eq_nil, .nil⟩
  | @next s t u x _ hline hx _ ih =>
    obtain ⟨⟨y, v⟩, hy, heq⟩ := Option.map_eq_some_iff.mp hx
    obtain ⟨rfl, rfl⟩ := Prod.mk.inj heq
    have hnext := hs.skipBlanks.rel_nextLine (skipBlanks_idem s)
    rw [nextLine_skipBlanks, nextLine_skipBlanks, hline] at hnext
    rcases hnext with hnext | ⟨hnil, -⟩
    · obtain ⟨u', hline', hu⟩ := Reader.rel_of_eq_some hnext rfl
      obtain ⟨⟨y', v'⟩, hy', halike, hv⟩ := Reader.rel_of_eq_some (hsection u u' hu) hy
      obtain ⟨l', hl', hall⟩ := ih hv
      exact ⟨⟨y', u', v'⟩ :: l', .next hline' (Option.map_eq_some_iff.mpr ⟨_, hy', rfl⟩) hl',
        .cons halike hall⟩
    · rw [Option.some.inj hnil, (shrinks_sectionReader kind).read_nil] at hy
      cases hy

/-- Lists of alike sections describe the same. -/
theorem AllAlike.rearranged (h : AllAlike l l') (hnodup : (keywords l).Nodup) :
    Rearranged l l' := by
  have hself : Resemble (l.map Located.value) l :=
    List.forall₂_map_left_iff.mpr (List.forall₂_same.mpr fun x _ => .same x.value)
  exact rearranged_of_perm (.refl _) hself (List.forall₂_map_left_iff.mpr h) hnodup

/-! ## White space around a text -/

/-- All white space of the text is blanks, tabs and ends of lines. -/
def SkippableWhite (text : List Char) : Prop :=
  ∀ c ∈ text, Text.isBlank c = true → isSpace c = true ∨ isNewline c = true

instance (text : List Char) : Decidable (SkippableWhite text) :=
  List.decidableBAll _ text

theorem SkippableWhite.mono {text t : List Char} (h : SkippableWhite text) (ht : t ⊆ text) :
    SkippableWhite t :=
  fun c hc => h c (ht hc)

theorem trim_subset (text : List Char) : Text.trim text ⊆ text := by
  obtain ⟨a, e, heq, -, -⟩ := exists_trim_append text
  intro c hc
  rw [heq]
  exact List.mem_append_right _ (List.mem_append_left _ hc)

/-- What is left out around the text may stand between sections. -/
theorem SkippableWhite.exists_trim_append {text : List Char} (h : SkippableWhite text) :
    ∃ a e, text = a ++ (Text.trim text ++ e) ∧ (∀ c ∈ a, isSpace c = true ∨ isNewline c = true) ∧
      ∀ c ∈ e, isSpace c = true ∨ isNewline c = true := by
  obtain ⟨a, e, htext, ha, he⟩ := Description.exists_trim_append text
  refine ⟨a, e, htext, fun c hc => h c ?_ (ha c hc), fun c hc => h c ?_ (he c hc)⟩
  · rw [htext]
    exact List.mem_append_left _ hc
  · rw [htext]
    exact List.mem_append_right _ (List.mem_append_right _ hc)

theorem ne_slash_of_blank {c : Char} (hc : isSpace c = true ∨ isNewline c = true) : c ≠ '/' :=
  forall_gap (P := (· ≠ '/')) (by decide) (by decide) (by decide) (by decide) c hc

theorem isBlank_of_blank {c : Char} (hc : isSpace c = true ∨ isNewline c = true) :
    Text.isBlank c = true :=
  forall_gap (P := fun c => Text.isBlank c = true) rfl rfl rfl rfl c hc

theorem uncommentedFrom_sublist (flag : Bool) (s : List Char) :
    (uncommentedFrom flag s).Sublist s := by
  induction s generalizing flag with
  | nil => exact .slnil
  | cons c s ih =>
    rw [uncommentedFrom]
    split
    · exact (ih false).cons_cons c
    · split
      · exact (ih true).cons c
      · exact (ih false).cons_cons c

/-- White space in front of a text stays in front of it. -/
theorem uncommented_blanks_append {a : List Char}
    (ha : ∀ c ∈ a, isSpace c = true ∨ isNewline c = true) (s : List Char) :
    uncommented (a ++ s) = a ++ uncommented s := by
  induction a with
  | nil => rfl
  | cons c a ih =>
    obtain ⟨hc, ha⟩ := List.forall_mem_cons.mp ha
    have hcomment := commentAhead_of_head (ne_slash_of_blank hc) (a ++ s)
    rw [List.cons_append, uncommented_cons hcomment, ih ha, List.cons_append]

/-- White space behind a text stays behind it, or goes with a comment. -/
theorem exists_uncommented_append {e : List Char}
    (he : ∀ c ∈ e, isSpace c = true ∨ isNewline c = true) (flag : Bool) (s : List Char) :
    ∃ e', (∀ c ∈ e', c ∈ e) ∧ uncommentedFrom flag (s ++ e) = uncommentedFrom flag s ++ e' := by
  induction s generalizing flag with
  | nil =>
    refine ⟨uncommentedFrom flag e, (uncommentedFrom_sublist flag e).subset, ?_⟩
    cases flag <;> rfl
  | cons c s ih =>
    have hslash : ∀ d ∈ e.head?, d ≠ '/' := fun d hd =>
      ne_slash_of_blank (he d (List.mem_of_mem_head? hd))
    have hahead := commentAhead_append (List.cons_ne_nil c s) hslash
    rw [List.cons_append] at hahead ⊢
    rw [uncommentedFrom, uncommentedFrom, hahead]
    split
    · obtain ⟨e', he', happend⟩ := ih false
      exact ⟨e', he', congrArg (c :: ·) happend⟩
    · split
      · exact ih true
      · obtain ⟨e', he', happend⟩ := ih false
        exact ⟨e', he', congrArg (c :: ·) happend⟩

theorem trim_blanks_append {a : List Char} (ha : ∀ c ∈ a, Text.isBlank c = true) (s : List Char) :
    Text.trim (a ++ s) = Text.trim s := by
  rw [Text.trim, Text.trim, Text.trimStart, Text.trimStart, List.dropWhile_append_of_pos ha]

/-- The white space around a text plays no part, whether its comments are left out before or
after. -/
theorem trim_uncommented {text : List Char} (h : SkippableWhite text) :
    Text.trim (uncommented text) = Text.trim (uncommented (Text.trim text)) := by
  obtain ⟨a, e, htext, ha, he⟩ := h.exists_trim_append
  obtain ⟨e', hsub, happend⟩ := exists_uncommented_append he false (Text.trim text)
  have ha' : ∀ c ∈ a, Text.isBlank c = true := fun c hc => isBlank_of_blank (ha c hc)
  have he' : ∀ c ∈ e', Text.isBlank c = true := fun c hc => isBlank_of_blank (he c (hsub c hc))
  calc Text.trim (uncommented text)
      = Text.trim (a ++ uncommented (Text.trim text ++ e)) := by
        rw [← uncommented_blanks_append ha, ← htext]
    _ = Text.trim (uncommented (Text.trim text) ++ e') := by
        rw [trim_blanks_append ha', uncommented, happend, uncommented]
    _ = Text.trim (uncommented (Text.trim text)) := Text.trim_append he' _

/-- A text that is pruned but for white space in front. -/
theorem Sections.pruned_trim {text : List Char} (h : Sections kind ('\n' :: s) l)
    (hs : Pruned ('\n' :: s) ('\n' :: text)) (htext : SkippableWhite text) :
    ∃ l', Sections kind ('\n' :: Text.trim text) l' ∧ AllAlike l l' := by
  obtain ⟨a, e, heq, ha, he⟩ := htext.exists_trim_append
  have hcut : Pruned ('\n' :: s) ('\n' :: (a ++ Text.trim text)) :=
    .of_append (b := e) (by rwa [List.cons_append, List.append_assoc, ← heq]) he
  obtain ⟨l', hl', hall⟩ := h.pruned hcut
  exact ⟨l', hl'.congr (skipLines_append_of_blank ha _), hall⟩

end

/-! ## Descriptions -/

/-- Comments are inert: where all white space is blanks, tabs and ends of lines, a text without its
comments describes the same. -/
theorem parse_uncommented {kind : Kind} {text : List Char} {d : Definition}
    (htext : SkippableWhite text) (hok : parse kind text = .ok d) :
    parse kind (uncommented text) = .ok d := by
  obtain ⟨l, u, hread, hnodup, hassembled⟩ := parse_eq_ok_iff.mp hok
  obtain ⟨hne, hl⟩ := read_iff_sections.mp ⟨u, hread⟩
  -- no comment keeps quotes apart, or the text could not be read
  have hpruned : Pruned ('\n' :: Text.trim text) ('\n' :: uncommented (Text.trim text)) :=
    pruned_uncommented fun htrapped => hl.not_stuck (.inl htrapped)
  have htrim : SkippableWhite (uncommented (Text.trim text)) :=
    (htext.mono (trim_subset text)).mono (uncommentedFrom_sublist false _).subset
  -- the same sections are read, apart from the places they stand in
  obtain ⟨l', hl', hall⟩ := hl.pruned_trim hpruned htrim
  have hne' : l' ≠ [] := by
    rintro rfl
    cases hall
    exact hne rfl
  obtain ⟨u', hread'⟩ := read_iff_sections.mpr ⟨hne', hl'⟩
  rw [← trim_uncommented htext] at hread'
  have hrearranged := hall.rearranged hnodup
  refine parse_eq_ok_iff.mpr ⟨l', u', hread', hrearranged.nodup', ?_⟩
  rw [← hrearranged.assembled_eq, hassembled]

/-- A grammar with comments on lines of their own and at the ends of lines. Neither the quoted slash
nor the single one starts a comment. -/
def commentedGrammar : List Char :=
  "// g\nname: a/b // short\r\nrules:\n  S -> S S | \'/\' | a//b\n\n// end".toList

/-- What the text describes. -/
def slashGrammar : Definition where
  name := "a/b"
  checks := []
  automaton := .grammar
    { start := "S"
      productions := [⟨"S", [.nonterminal "S", .nonterminal "S"]⟩, ⟨"S", [.terminal '/']⟩,
        ⟨"S", [.terminal 'a']⟩] }

/-- The comments are left out, and the ends of their lines stay. -/
theorem commentedGrammar_uncommented :
    SkippableWhite commentedGrammar ∧ parse .grammar commentedGrammar = .ok slashGrammar ∧
      uncommented commentedGrammar =
        "\nname: a/b \r\nrules:\n  S -> S S | \'/\' | a\n\n".toList ∧
      parse .grammar (uncommented commentedGrammar) = .ok slashGrammar := by
  have htext : SkippableWhite commentedGrammar := by decide +kernel
  have hok : parse .grammar commentedGrammar = .ok slashGrammar :=
    toOption_eq_some_iff.mp (by decide +kernel)
  exact ⟨htext, hok, by decide +kernel, parse_uncommented htext hok⟩

end Acceptors.Description
