import Acceptors.Proofs.Description.Carriage

/-!
# Texts without their comments

A comment stands from the first two slashes of a line to the end of the line. Nothing that is read
depends on comments, with one exception: if a quote stands right in front of a comment and the next
line starts with a quote, then without the comment the two quotes enclose the end of the line.

A pruned text is a text without comments in which nothing of this kind happens. It may also lack
blanks and ends of lines at its end, where nothing else is left.

## Main definitions

* `uncommented`: a text without its comments
* `JoinsQuotes`: a comment that keeps two quotes apart
* `Trapped`: somewhere ahead a comment keeps two quotes apart
* `Pruned`: a text and the text without comments

## Main results

* `uncommented_append`: in each line the first two slashes and what stands behind them are left out
* `pruned_uncommented`: a text without its comments is pruned, if no comment keeps quotes apart
* `Pruned.skipBlanks`, `Pruned.skipLines`: skipping in a pruned text
-/

namespace Acceptors.Description

/-! ## Leaving out comments -/

/-- The text without its comments. The flag tells whether a comment goes on; it ends in front of the
end of its line. -/
def uncommentedFrom : Bool → List Char → List Char
  | _, [] => []
  | inside, c :: s =>
    if isNewline c then c :: uncommentedFrom false s
    else if inside || commentAhead (c :: s) then uncommentedFrom true s
    else c :: uncommentedFrom false s

/-- The text without its comments. -/
def uncommented (text : List Char) : List Char := uncommentedFrom false text

/-- What is left from the end of the line on. -/
def lineRest (s : List Char) : List Char := s.dropWhile fun c => !isNewline c

/-- A comment starts here, and the next line starts with a quote. -/
def JoinsQuotes (s : List Char) : Prop :=
  commentAhead s = true ∧ ∃ c k, lineRest s = c :: '\'' :: k

/-- Somewhere ahead, not in a comment, a quote stands right in front of a comment, and the next line
starts with a quote. -/
inductive Trapped : List Char → Prop where
  | here {s : List Char} (h : JoinsQuotes s) : Trapped ('\'' :: s)
  | keep {c : Char} {s : List Char} (hcomment : commentAhead (c :: s) = false)
    (rest : Trapped s) : Trapped (c :: s)
  | comment {s : List Char} (hcomment : commentAhead s = true) (rest : Trapped (lineRest s)) :
    Trapped s

/-- The second text is the first without its comments, and perhaps without blanks and ends of lines
at the end. No comment keeps quotes apart. -/
inductive Pruned : TextRel where
  | done {s : List Char} (h : skipLines s = []) : Pruned s []
  | keep {c : Char} {s s' : List Char} (hcomment : commentAhead (c :: s) = false)
    (hquote : c = '\'' → ¬JoinsQuotes s) (rest : Pruned s s') : Pruned (c :: s) (c :: s')
  | comment {s s' : List Char} (hcomment : commentAhead s = true)
    (rest : Pruned (lineRest s) s') : Pruned s s'

/-! ## Ends of lines -/

section

variable {s : List Char}

theorem isNewline_of_mem_lineRest : ∀ c ∈ (lineRest s).head?, isNewline c = true := by
  intro c hc
  simpa using head?_dropWhile_eq_false (p := fun c => !isNewline c) c hc

theorem forall_gap {P : Char → Prop} (hblank : P ' ') (htab : P '\t') (hfeed : P '\n')
    (hreturn : P '\r') : ∀ c, isSpace c = true ∨ isNewline c = true → P c := by
  rintro c (hc | hc)
  · exact Token.forall_isSpace hblank htab c hc
  · simp only [isNewline, Bool.or_eq_true, decide_eq_true_eq] at hc
    rcases hc with rfl | rfl
    · exact hfeed
    · exact hreturn

theorem commentAhead_of_newlines (h : ∀ c ∈ s.head?, isNewline c = true) :
    commentAhead s = false := by
  cases s with
  | nil => rfl
  | cons c s => exact commentAhead_of_isNewline (h c rfl) s

/-- Nothing is skipped exactly where neither a blank nor a comment starts. -/
theorem skipBlanks_eq_self_iff :
    skipBlanks s = s ↔ (∀ c ∈ s.head?, isSpace c = false) ∧ commentAhead s = false := by
  constructor
  · intro h
    rw [← h]
    exact skipBlanks_stops s
  · exact fun h => skipBlanks_eq_self h.1 h.2

theorem skipBlanks_cons_of_isSpace {c : Char} (hc : isSpace c = true) :
    skipBlanks (c :: s) = skipBlanks s := by
  rw [skipBlanks, List.dropWhile_cons_of_pos hc, skipBlanks]

/-- A comment is skipped to the end of its line. -/
theorem skipBlanks_of_commentAhead (h : commentAhead s = true) : skipBlanks s = lineRest s := by
  obtain ⟨t, rfl⟩ := commentAhead_eq_true h
  rfl

theorem skipLines_of_commentAhead (h : commentAhead s = true) :
    skipLines s = skipLines (lineRest s) := by
  rw [← skipLines_skipBlanks, skipBlanks_of_commentAhead h]

/-- Where lines have been skipped there are no blanks to skip. -/
theorem skipBlanks_skipLines (s : List Char) : skipBlanks (skipLines s) = skipLines s := by
  have hfrom : ∀ flag, skipBlanks (skipLinesFrom flag s) = skipLinesFrom flag s := by
    induction s with
    | nil => exact fun flag => by cases flag <;> rfl
    | cons c s ih =>
      intro flag
      cases flag with
      | true => exact ih _
      | false =>
        rw [skipLinesFrom]
        split
        · exact ih false
        · next hblank =>
          split
          · exact ih true
          · next hcomment =>
            rw [Bool.or_eq_true, not_or] at hblank
            refine skipBlanks_eq_self (fun d hd => ?_) (Bool.eq_false_iff.mpr hcomment)
            obtain rfl := Option.some.inj hd
            exact Bool.eq_false_iff.mpr hblank.1
  exact hfrom false

/-! ## Lines without their comments -/

/-- Where a comment goes on, the text goes on at the end of the line. -/
theorem uncommentedFrom_true (s : List Char) :
    uncommentedFrom true s = uncommented (lineRest s) := by
  induction s with
  | nil => rfl
  | cons c s ih =>
    cases hline : isNewline c with
    | true =>
      rw [lineRest, List.dropWhile_cons_of_neg (by simp [hline]), uncommented, uncommentedFrom,
        uncommentedFrom, if_pos hline, if_pos hline]
    | false =>
      rw [lineRest, List.dropWhile_cons_of_pos (by simp [hline]), uncommentedFrom,
        if_neg (by simp [hline]), Bool.true_or, if_pos rfl, ih, lineRest]

theorem uncommented_cons {c : Char} (h : commentAhead (c :: s) = false) :
    uncommented (c :: s) = c :: uncommented s := by
  rw [uncommented, uncommentedFrom, h, uncommented]
  split <;> rfl

theorem uncommented_of_commentAhead (h : commentAhead s = true) :
    uncommented s = uncommented (lineRest s) := by
  obtain ⟨t, rfl⟩ := commentAhead_eq_true h
  exact uncommentedFrom_true _

/-- In a line the first two slashes and all that stands behind them are left out. -/
theorem uncommented_append {line rest : List Char} (hline : ∀ c ∈ line, isNewline c = false)
    (hrest : ∀ c ∈ rest.head?, isNewline c = true) :
    uncommented (line ++ rest) = (takeUntil commentAhead line).1 ++ uncommented rest := by
  have hslash : ∀ c ∈ rest.head?, c ≠ '/' := by
    rintro c hc rfl
    cases hrest _ hc
  induction line with
  | nil => rfl
  | cons c line ih =>
    have hahead := commentAhead_append (List.cons_ne_nil c line) hslash
    obtain ⟨hc, hline'⟩ := List.forall_mem_cons.mp hline
    rw [takeUntil]
    split
    · next hcomment =>
      rw [uncommented_of_commentAhead (hahead.trans hcomment), lineRest,
        List.dropWhile_append_of_pos (by simpa using hline),
        dropWhile_eq_self (by simpa using hrest)]
      rfl
    · next hcomment =>
      rw [List.cons_append] at hahead ⊢
      rw [uncommented_cons (hahead.trans (Bool.eq_false_iff.mpr hcomment)), ih hline']
      rfl

/-- A third slash belongs to the comment, and so does a quoted slash behind two. -/
example : uncommented "a / b /// '/'\r// c\n'/'".toList = "a / b \r\n'/'".toList := rfl

end

/-! ## Pruned texts -/

section

variable {s s' : List Char}

theorem length_lineRest_lt (h : commentAhead s = true) : (lineRest s).length < s.length := by
  obtain ⟨t, rfl⟩ := commentAhead_eq_true h
  have hle : (lineRest t).length ≤ t.length := (List.dropWhile_suffix _).length_le
  change (lineRest t).length < t.length + 2
  omega

/-- Without its comments a text is pruned, if no comment keeps quotes apart. -/
theorem pruned_uncommented {s : List Char} (h : ¬Trapped s) : Pruned s (uncommented s) := by
  match s with
  | [] => exact .done rfl
  | c :: s =>
    cases hcomment : commentAhead (c :: s) with
    | true =>
      rw [uncommented_of_commentAhead hcomment]
      exact .comment hcomment (pruned_uncommented fun hrest => h (.comment hcomment hrest))
    | false =>
      rw [uncommented_cons hcomment]
      exact .keep hcomment (fun hc hjoins => h (hc ▸ .here hjoins))
        (pruned_uncommented fun hrest => h (.keep hcomment hrest))
termination_by s.length
decreasing_by
  · exact Nat.lt_succ_self s.length
  · exact length_lineRest_lt hcomment

/-- No token goes on here: the text or the line ends, or a blank or a comment stands here. -/
def IsGap (s : List Char) : Prop :=
  commentAhead s = true ∨ ∀ c ∈ s.head?, isSpace c = true ∨ isNewline c = true

theorem isGap_of_skipLines (h : skipLines s = []) : IsGap s := by
  cases s with
  | nil => exact .inr (by simp)
  | cons c s =>
    rw [skipLines_cons] at h
    split at h
    · next hblank =>
      refine .inr ?_
      rintro _ ⟨⟩
      exact Bool.or_eq_true_iff.mp hblank
    · split at h
      · next hcomment => exact .inl hcomment
      · cases h

theorem Pruned.eq_nil (h : Pruned [] s') : s' = [] := by
  cases h with
  | done => rfl
  | comment hcomment => cases hcomment

theorem Pruned.skipLines_eq_nil (h : Pruned s []) : skipLines s = [] := by
  generalize ht : ([] : List Char) = t at h
  induction h with
  | done h => exact h
  | keep => cases ht
  | comment hcomment _ ih => rw [skipLines_of_commentAhead hcomment, ih ht]

/-- At the end of a line the pruned line ends. -/
theorem Pruned.head?_newline (h : Pruned s s') (hs : ∀ c ∈ s.head?, isNewline c = true) :
    ∀ c ∈ s'.head?, isNewline c = true := by
  cases h with
  | done => simp
  | keep => exact hs
  | comment hcomment => rw [commentAhead_of_newlines hs] at hcomment; cases hcomment

/-- Both texts go on with one character, or no token goes on in either of them. -/
theorem Pruned.cases (h : Pruned s s') :
    (IsGap s ∧ IsGap s') ∨ ∃ c t t', s = c :: t ∧ s' = c :: t' ∧ commentAhead (c :: t) = false ∧
      (c = '\'' → ¬JoinsQuotes t) ∧ Pruned t t' := by
  cases h with
  | done h => exact .inl ⟨isGap_of_skipLines h, .inr (by simp)⟩
  | keep hcomment hquote rest => exact .inr ⟨_, _, _, rfl, rfl, hcomment, hquote, rest⟩
  | comment hcomment rest =>
    exact .inl ⟨.inl hcomment, .inr fun c hc =>
      .inr (rest.head?_newline isNewline_of_mem_lineRest c hc)⟩

/-- Pruning a text makes no comment. -/
theorem Pruned.commentAhead_cons (h : Pruned s s') {c : Char}
    (hcomment : commentAhead (c :: s) = false) : commentAhead (c :: s') = false := by
  rw [Bool.eq_false_iff] at hcomment ⊢
  intro hahead
  obtain ⟨t', ht'⟩ := commentAhead_eq_true hahead
  obtain ⟨rfl, rfl⟩ := List.cons.inj ht'
  cases h with
  | keep => exact hcomment rfl
  | comment _ rest =>
    have hslash := rest.head?_newline isNewline_of_mem_lineRest '/' rfl
    cases hslash

theorem Pruned.skipBlanks (h : Pruned s s') : Pruned (skipBlanks s) (skipBlanks s') := by
  induction h with
  | done h => exact .done (by rw [skipLines_skipBlanks, h])
  | @keep c s s' hcomment hquote rest ih =>
    cases hspace : isSpace c with
    | true => rwa [skipBlanks_cons_of_isSpace hspace, skipBlanks_cons_of_isSpace hspace]
    | false =>
      have hhead : ∀ k : List Char, ∀ d ∈ (c :: k).head?, isSpace d = false := by
        rintro k _ ⟨⟩
        exact hspace
      rw [skipBlanks_eq_self (hhead s) hcomment,
        skipBlanks_eq_self (hhead s') (rest.commentAhead_cons hcomment)]
      exact .keep hcomment hquote rest
  | @comment s s' hcomment rest ih =>
    have hself : Description.skipBlanks (lineRest s) = lineRest s :=
      skipBlanks_eq_self (fun c hc => isSpace_of_isNewline (isNewline_of_mem_lineRest c hc))
        (commentAhead_of_newlines isNewline_of_mem_lineRest)
    rwa [hself, ← skipBlanks_of_commentAhead hcomment] at ih

theorem Pruned.skipLines (h : Pruned s s') : Pruned (skipLines s) (skipLines s') := by
  induction h with
  | done h =>
    rw [h]
    exact .done rfl
  | @keep c s s' hcomment hquote rest ih =>
    rw [skipLines_cons, skipLines_cons, hcomment, rest.commentAhead_cons hcomment]
    split
    · exact ih
    · exact .keep hcomment hquote rest
  | comment hcomment _ ih => rwa [skipLines_of_commentAhead hcomment]

/-- Blanks and ends of lines at the end may be left out. -/
theorem Pruned.of_append {b : List Char} (h : Pruned s (s' ++ b))
    (hb : ∀ c ∈ b, isSpace c = true ∨ isNewline c = true) : Pruned s s' := by
  generalize ht : s' ++ b = t at h
  induction h generalizing s' b with
  | done h =>
    obtain ⟨rfl, -⟩ := List.append_eq_nil_iff.mp ht
    exact .done h
  | @keep c s t hcomment hquote rest ih =>
    cases s' with
    | nil =>
      rw [List.nil_append] at ht
      subst ht
      obtain ⟨hc, hb⟩ := List.forall_mem_cons.mp hb
      refine .done ?_
      rw [skipLines_cons, if_pos (Bool.or_eq_true_iff.mpr hc)]
      exact (ih hb (List.nil_append t)).skipLines_eq_nil
    | cons d s' =>
      obtain ⟨rfl, hrest⟩ := List.cons.inj ht
      exact .keep hcomment hquote (ih hb hrest)
  | comment hcomment _ ih => exact .comment hcomment (ih hb ht)

end

end Acceptors.Description
