import Acceptors.Description.Section

/-!
# Reading line by line

Items that stand on lines of their own are read one after the other: when the rest of a line is
blank, the next item starts where the next line with something on it starts. A repetition goes on
until an item cannot be read. The characters that are left bound the number of items, but play no
part otherwise.

## Main definitions

* `skipLines`: what is left after blanks, comments and ends of lines
* `nextLine`: where the next item starts
* `Reader.Shrinks`: a reader takes a character at least and leaves the rest as it is
* `Reader.Repeats`: the items that a repetition reads, and what it leaves
* `Follow`: the items that stand in the rest of a text

## Main results

* `read_newlines`: reading ends of lines leads to the next line
* `read_many_iff`, `read_many_of_repeats`: what a repetition reads
* `read_sections_iff`: what is read of a whole text
-/

namespace Acceptors.Description

/-! ## Skipping lines -/

/-- What is left after blanks, comments and ends of lines. The flag tells whether a comment goes
on. -/
def skipLinesFrom : Bool → List Char → List Char
  | _, [] => []
  | true, c :: s => skipLinesFrom (!isNewline c) s
  | false, c :: s =>
    if isSpace c || isNewline c then skipLinesFrom false s
    else if commentAhead (c :: s) then skipLinesFrom true s
    else c :: s

/-- What is left after blanks, comments and ends of lines. -/
def skipLines (s : List Char) : List Char := skipLinesFrom false s

/-- Where the next line with something on it starts, if the rest of this line is blank. -/
def nextLine (s : List Char) : Option (List Char) := (newline (skipBlanks s)).map skipLines

theorem skipLines_nil : skipLines [] = [] := rfl

theorem skipLines_cons (c : Char) (s : List Char) :
    skipLines (c :: s) =
      if isSpace c || isNewline c then skipLines s
      else if commentAhead (c :: s) then skipLinesFrom true s
      else c :: s := rfl

theorem isSpace_of_isNewline {c : Char} (h : isNewline c = true) : isSpace c = false := by
  simp only [isNewline, Bool.or_eq_true, decide_eq_true_eq] at h
  rcases h with rfl | rfl <;> rfl

theorem isNewline_of_isSpace {c : Char} (h : isSpace c = true) : isNewline c = false := by
  rw [Bool.eq_false_iff]
  intro hline
  rw [isSpace_of_isNewline hline] at h
  cases h

theorem commentAhead_of_head {c : Char} (hc : c ≠ '/') (s : List Char) :
    commentAhead (c :: s) = false := by
  rw [Bool.eq_false_iff]
  intro h
  obtain ⟨t, ht⟩ := commentAhead_eq_true h
  exact hc (List.cons.inj ht).1

theorem commentAhead_of_isNewline {c : Char} (h : isNewline c = true) (s : List Char) :
    commentAhead (c :: s) = false := by
  simp only [isNewline, Bool.or_eq_true, decide_eq_true_eq] at h
  rcases h with rfl | rfl <;> rfl

theorem skipLinesFrom_true (s : List Char) :
    skipLinesFrom true s = skipLines (s.dropWhile fun c => !isNewline c) := by
  induction s with
  | nil => rfl
  | cons c s ih =>
    rw [skipLinesFrom]
    cases hc : isNewline c with
    | true =>
      rw [List.dropWhile_cons_of_neg (by simp [hc]), skipLines_cons, hc, Bool.or_true, if_pos rfl]
      rfl
    | false => simpa [hc] using ih

theorem skipLines_dropWhile (s : List Char) : skipLines (s.dropWhile isSpace) = skipLines s := by
  induction s with
  | nil => rfl
  | cons c s ih =>
    cases hc : isSpace c with
    | true => simpa [hc, skipLines_cons] using ih
    | false => simp [hc]

/-- Blanks and ends of lines in front of a text are skipped. -/
theorem skipLines_append_of_blank {a : List Char}
    (ha : ∀ c ∈ a, isSpace c = true ∨ isNewline c = true) (s : List Char) :
    skipLines (a ++ s) = skipLines s := by
  induction a with
  | nil => rfl
  | cons c a ih =>
    obtain ⟨hc, ha⟩ := List.forall_mem_cons.mp ha
    rw [List.cons_append, skipLines_cons, if_pos (Bool.or_eq_true_iff.mpr hc), ih ha]

theorem skipLines_skipComment (s : List Char) : skipLines (skipComment s) = skipLines s := by
  rw [skipComment]
  split
  · next h =>
    obtain ⟨t, rfl⟩ := commentAhead_eq_true h
    rw [skipLines_cons ('/'), if_neg (by decide), if_pos h, skipLinesFrom_true]
    rfl
  · rfl

@[simp] theorem skipLines_skipBlanks (s : List Char) : skipLines (skipBlanks s) = skipLines s := by
  rw [skipBlanks, skipLines_skipComment, skipLines_dropWhile]

/-- A line ends with a line feed, with a carriage return, or with both. -/
theorem newline_eq_some {s t : List Char} (h : newline s = some t) :
    s = '\n' :: t ∨ s = '\r' :: '\n' :: t ∨ s = '\r' :: t := by
  unfold newline at h
  split at h
  · exact .inl (by rw [Option.some.inj h])
  · exact .inr (.inl (by rw [Option.some.inj h]))
  · exact .inr (.inr (by rw [Option.some.inj h]))
  · cases h

theorem skipLines_of_newline {s t : List Char} (h : newline s = some t) :
    skipLines t = skipLines s := by
  rcases newline_eq_some h with rfl | rfl | rfl <;> rfl

theorem skipBlanks_eq_self {s : List Char} (hspace : ∀ c ∈ s.head?, isSpace c = false)
    (hcomment : commentAhead s = false) : skipBlanks s = s := by
  rw [skipBlanks, dropWhile_eq_self hspace, skipComment, hcomment]
  rfl

theorem skipBlanks_blank (s : List Char) : skipBlanks (' ' :: s) = skipBlanks s := rfl

/-- Neither a blank nor a comment starts where blanks and a comment have been skipped. -/
theorem skipBlanks_stops (s : List Char) :
    (∀ c ∈ (skipBlanks s).head?, isSpace c = false) ∧ commentAhead (skipBlanks s) = false := by
  rw [skipBlanks, skipComment]
  split
  · -- behind a comment the line or the text ends
    have hline := head?_dropWhile_eq_false (p := fun c => !isNewline c) (s := s.dropWhile isSpace)
    cases hrest : (s.dropWhile isSpace).dropWhile fun c => !isNewline c with
    | nil => simp [commentAhead]
    | cons c t =>
      have hc : isNewline c = true := by simpa [hrest] using hline
      refine ⟨fun d hd => ?_, commentAhead_of_isNewline hc t⟩
      obtain rfl : c = d := Option.some.inj hd
      exact isSpace_of_isNewline hc
  · next h => exact ⟨head?_dropWhile_eq_false, Bool.eq_false_iff.mpr h⟩

/-- Where no line ends behind the blanks, no line is skipped. -/
theorem skipLines_eq_skipBlanks {s : List Char} (h : newline (skipBlanks s) = none) :
    skipLines s = skipBlanks s := by
  obtain ⟨hspace, hcomment⟩ := skipBlanks_stops s
  rw [← skipLines_skipBlanks]
  cases hs : skipBlanks s with
  | nil => rfl
  | cons c t =>
    rw [hs] at h hspace hcomment
    have hc : isSpace c = false := hspace c rfl
    have hn : isNewline c = false := by
      rw [Bool.eq_false_iff]
      intro hn
      simp only [isNewline, Bool.or_eq_true, decide_eq_true_eq] at hn
      rcases hn with rfl | rfl
      · cases h
      · -- a carriage return ends a line whatever follows
        unfold newline at h
        split at h <;> simp_all
    rw [skipLines_cons, hc, hn, hcomment]
    rfl

/-- Nothing is skipped in front of a character that is no white space and starts no comment. -/
theorem skip_eq_self {s : List Char}
    (h : ∀ c ∈ s.head?, isSpace c = false ∧ isNewline c = false ∧ c ≠ '/') :
    skipBlanks s = s ∧ skipLines s = s := by
  have hblanks : skipBlanks s = s := by
    refine skipBlanks_eq_self (fun c hc => (h c hc).1) ?_
    cases s with
    | nil => rfl
    | cons c s => exact commentAhead_of_head (h c rfl).2.2 s
  refine ⟨hblanks, ?_⟩
  rw [skipLines_eq_skipBlanks] <;> rw [hblanks]
  cases hline : newline s with
  | none => rfl
  | some t => rcases newline_eq_some hline with rfl | rfl | rfl <;> cases (h _ rfl).2.1

theorem skipBlanks_suffix (s : List Char) : skipBlanks s <:+ s := by
  rw [skipBlanks, skipComment]
  split
  · exact (List.dropWhile_suffix _).trans (List.dropWhile_suffix _)
  · exact List.dropWhile_suffix _

theorem skipLines_suffix (s : List Char) : skipLines s <:+ s := by
  have hfrom : ∀ b, skipLinesFrom b s <:+ s := by
    induction s with
    | nil => exact fun b => by cases b <;> exact List.suffix_rfl
    | cons c s ih =>
      intro b
      cases b with
      | true => exact (ih _).trans (List.suffix_cons c s)
      | false =>
        rw [skipLinesFrom]
        split
        · exact (ih _).trans (List.suffix_cons c s)
        · split
          · exact (ih _).trans (List.suffix_cons c s)
          · exact List.suffix_rfl
  exact hfrom false

/-- What is left of a text of which a character at least has been read. -/
def IsRest (t s : List Char) : Prop := t <:+ s ∧ t.length < s.length

theorem isRest_cons (c : Char) (s : List Char) : IsRest s (c :: s) :=
  ⟨List.suffix_cons c s, Nat.lt_succ_self _⟩

theorem isRest_append {p : List Char} (hp : p ≠ []) (s : List Char) : IsRest s (p ++ s) := by
  refine ⟨List.suffix_append p s, ?_⟩
  have hpos := List.length_pos_iff.mpr hp
  rw [List.length_append]
  omega

theorem IsRest.of_suffix {t u s : List Char} (h : t <:+ u) (hu : IsRest u s) : IsRest t s :=
  ⟨h.trans hu.1, Nat.lt_of_le_of_lt h.length_le hu.2⟩

theorem IsRest.trans_suffix {t u s : List Char} (ht : IsRest t u) (h : u <:+ s) : IsRest t s :=
  ⟨ht.1.trans h, Nat.lt_of_lt_of_le ht.2 h.length_le⟩

theorem isRest_of_newline {s t : List Char} (h : newline s = some t) : IsRest t s := by
  rcases newline_eq_some h with rfl | rfl | rfl
  · exact isRest_cons _ t
  · exact isRest_append (p := ['\r', '\n']) (by simp) t
  · exact isRest_cons _ t

@[simp] theorem nextLine_skipBlanks (s : List Char) : nextLine (skipBlanks s) = nextLine s := by
  rw [nextLine, skipBlanks_idem, nextLine]

theorem nextLine_newline (s : List Char) : nextLine ('\n' :: s) = some (skipLines s) := rfl

theorem nextLine_eq_some {s u : List Char} (h : nextLine s = some u) : u = skipLines s := by
  obtain ⟨t, ht, rfl⟩ := Option.map_eq_some_iff.mp h
  rw [skipLines_of_newline ht, skipLines_skipBlanks]

/-! ## Ends of lines -/

/-- What may stand behind a line: nothing, or the line feed that ends it. -/
def EndsLine (u : List Char) : Prop := u = [] ∨ ∃ k, u = '\n' :: k

theorem EndsLine.head {u : List Char} (h : EndsLine u) {p : Char → Bool} (hp : p '\n' = false) :
    ∀ c ∈ u.head?, p c = false := by
  rcases h with rfl | ⟨k, rfl⟩
  · simp
  · intro c hc
    obtain rfl := Option.some.inj hc
    exact hp

theorem EndsLine.append {u v : List Char} (hu : EndsLine u) (hv : EndsLine v) :
    EndsLine (u ++ v) := by
  rcases hu with rfl | ⟨k, rfl⟩
  · exact hv
  · exact .inr ⟨k ++ v, rfl⟩

theorem EndsLine.skipBlanks_eq {u : List Char} (hu : EndsLine u) : skipBlanks u = u := by
  rcases hu with rfl | ⟨k, rfl⟩ <;> rfl

/-! ## Repetitions -/

namespace Reader

variable {α : Type} {r : Reader α}

/-- A character at least is read, and the rest is left as it is. -/
def Shrinks (r : Reader α) : Prop := ∀ s a t, r.read s = some (a, t) → IsRest t s

theorem Shrinks.read_nil (hr : r.Shrinks) : r.read [] = none := by
  cases h : r.read [] with
  | none => rfl
  | some p => exact absurd (hr _ p.1 p.2 h).2 (Nat.not_lt_zero _)

/-- The values that are read one after the other, and what is left where the next one cannot be
read. -/
inductive Repeats (r : Reader α) : List Char → List α → List Char → Prop where
  | stop {s : List Char} (h : r.read (skipBlanks s) = none) : Repeats r s [] s
  | next {s t u : List Char} {a : α} {as : List α} (h : r.read (skipBlanks s) = some (a, t))
    (rest : Repeats r t as u) : Repeats r s (a :: as) u

/-- The bound on the number of values plays no part if it is not smaller than their number. -/
theorem readMany_of_repeats {fuel s u : List Char} {as : List α} (h : r.Repeats s as u)
    (hfuel : as.length ≤ fuel.length) : readMany r fuel s = (as, u) := by
  induction h generalizing fuel with
  | stop h =>
    cases fuel with
    | nil => rfl
    | cons _ fuel => rw [readMany, h]
  | next h _ ih =>
    cases fuel with
    | nil => simp at hfuel
    | cons _ fuel =>
      rw [readMany, h]
      dsimp only
      rw [ih (Nat.le_of_succ_le_succ hfuel)]

theorem repeats_readMany (hr : r.Shrinks) {fuel s : List Char} (hfuel : s.length ≤ fuel.length) :
    r.Repeats s (readMany r fuel s).1 (readMany r fuel s).2 := by
  induction fuel generalizing s with
  | nil =>
    -- nothing is left to read
    obtain rfl := List.length_eq_zero_iff.mp (Nat.le_zero.mp hfuel)
    exact .stop hr.read_nil
  | cons _ fuel ih =>
    rw [readMany]
    split
    · next h => exact .stop h
    · next a t h =>
      have hlt := ((hr _ a t h).trans_suffix (skipBlanks_suffix s)).2
      rw [List.length_cons] at hfuel
      exact .next h (ih (by omega))

theorem Shrinks.bind {β : Type} {f : α → Reader β} (hr : r.Shrinks)
    (hf : ∀ a s b t, (f a).read s = some (b, t) → t <:+ s) : (r >>= f).Shrinks := by
  intro s b t h
  obtain ⟨⟨a, u⟩, ha, hb⟩ := Option.bind_eq_some_iff.mp h
  exact (hr s a u ha).of_suffix (hf a u b t hb)

theorem Shrinks.map {β : Type} (hr : r.Shrinks) (f : α → β) : (f <$> r).Shrinks :=
  hr.bind fun _ _ _ _ h => (Prod.mk.inj (Option.some.inj h)).2 ▸ List.suffix_rfl

theorem Shrinks.orElse {r' : Reader α} (hr : r.Shrinks) (hr' : r'.Shrinks) :
    (r <|> r').Shrinks := by
  intro s a t h
  rcases Option.or_eq_some_iff.mp h with h | ⟨-, h⟩
  · exact hr s a t h
  · exact hr' s a t h

theorem shrinks_lit {word : String} (hne : word ≠ "") : (lit word).Shrinks := by
  intro s a t h
  simp only [lit] at h
  split at h
  · next hprefix =>
    obtain ⟨-, rfl⟩ := Prod.mk.inj (Option.some.inj h)
    obtain ⟨rest, rfl⟩ := List.isPrefixOf_iff_prefix.mp hprefix
    rw [← String.length_toList, List.drop_left]
    exact isRest_append (by simpa using hne) rest
  · cases h

theorem Shrinks.located (hr : r.Shrinks) : r.located.Shrinks := by
  intro s x t h
  obtain ⟨⟨a, u⟩, ha, heq⟩ := Option.map_eq_some_iff.mp h
  obtain ⟨-, rfl⟩ := Prod.mk.inj heq
  exact hr s a u ha

theorem read_many_of_repeats {s u : List Char} {as : List α} (h : r.Repeats s as u)
    (hlength : as.length ≤ s.length) : r.many.read s = some (as, u) := by
  rw [read_many, readMany_of_repeats h hlength]

theorem Repeats.length_le (hr : r.Shrinks) {s u : List Char} {as : List α} (h : r.Repeats s as u) :
    as.length + u.length ≤ s.length := by
  induction h with
  | stop => simp
  | @next s t u a as h _ ih =>
    have hlt := ((hr _ a t h).trans_suffix (skipBlanks_suffix s)).2
    rw [List.length_cons]
    omega

theorem Repeats.read_eq_none {s u : List Char} {as : List α} (h : r.Repeats s as u) :
    r.read (skipBlanks u) = none := by
  induction h with
  | stop h => exact h
  | next _ _ ih => exact ih

theorem Repeats.suffix (hr : r.Shrinks) {s u : List Char} {as : List α} (h : r.Repeats s as u) :
    u <:+ s := by
  induction h with
  | stop => exact List.suffix_rfl
  | @next s t u a as h _ ih => exact ih.trans ((hr _ a t h).1.trans (skipBlanks_suffix s))

/-- A repetition reads values until one cannot be read. -/
theorem read_many_iff (hr : r.Shrinks) {s u : List Char} {as : List α} :
    r.many.read s = some (as, u) ↔ r.Repeats s as u := by
  constructor
  · intro h
    obtain ⟨rfl, rfl⟩ := Prod.mk.inj (Option.some.inj h)
    exact repeats_readMany hr (Nat.le_refl _)
  · intro h
    have hlength := h.length_le hr
    exact read_many_of_repeats h (by omega)

/-! ### Reading ends of lines -/

theorem shrinks_lineEnd : lineEnd.Shrinks := by
  intro s a t h
  obtain ⟨u, hu, heq⟩ := Option.map_eq_some_iff.mp h
  obtain ⟨-, rfl⟩ := Prod.mk.inj heq
  exact isRest_of_newline hu

theorem skipBlanks_of_repeats_lineEnd {s u : List Char} {ends : List Unit}
    (h : lineEnd.Repeats s ends u) : skipBlanks u = skipLines s := by
  induction h with
  | stop h => exact (skipLines_eq_skipBlanks (Option.map_eq_none_iff.mp h)).symm
  | next h _ ih =>
    obtain ⟨v, hv, heq⟩ := Option.map_eq_some_iff.mp h
    obtain ⟨-, rfl⟩ := Prod.mk.inj heq
    rw [ih, skipLines_of_newline hv, skipLines_skipBlanks]

/-- Ends of lines in a row and what may stand between them, if any line ends. -/
theorem skipBlanks_readMany_lineEnd (s : List Char) :
    skipBlanks (readMany lineEnd s s).2 = skipLines s :=
  skipBlanks_of_repeats_lineEnd (repeats_readMany shrinks_lineEnd (Nat.le_refl _))

theorem read_newlines (s : List Char) :
    newlines.read s = (newline s).map fun t => ((), skipLines t) := by
  simp only [newlines, many1, lineEnd, read_bind, read_skip, read_many, read_pure]
  cases newline s with
  | none => rfl
  | some t =>
    have hrest := skipBlanks_readMany_lineEnd (skipBlanks t)
    rw [skipLines_skipBlanks] at hrest
    exact congrArg (fun u => some ((), u)) hrest

theorem Shrinks.newlines (hr : r.Shrinks) : (do Reader.newlines; r).Shrinks := by
  intro s a t h
  rw [read_bind, read_newlines] at h
  obtain ⟨⟨⟨⟩, u⟩, hu, ha⟩ := Option.bind_eq_some_iff.mp h
  obtain ⟨v, hv, heq⟩ := Option.map_eq_some_iff.mp hu
  obtain ⟨-, rfl⟩ := Prod.mk.inj heq
  exact (hr _ a t ha).trans_suffix ((skipLines_suffix v).trans (isRest_of_newline hv).1)

/-- An item is read where the next line starts. -/
theorem read_newlines_bind (r : Reader α) (s : List Char) :
    (do newlines; r).read (skipBlanks s) = (nextLine s).bind r.read := by
  rw [read_bind, read_newlines, nextLine]
  cases newline (skipBlanks s) <;> rfl

end Reader

/-! ## Whole texts -/

section

variable {α : Type}

/-- The items that stand in the rest of a text, each on a line of its own. -/
inductive Follow (r : Reader α) : List Char → List α → Prop where
  | done {s : List Char} (h : skipLines s = []) : Follow r s []
  | next {s t u : List Char} {a : α} {as : List α} (hline : nextLine s = some u)
    (ha : r.read u = some (a, t)) (rest : Follow r t as) : Follow r s (a :: as)

variable {r : Reader α}

theorem Follow.repeats (hr : r.Shrinks) {s : List Char} {as : List α} (h : Follow r s as) :
    ∃ u, (do Reader.newlines; r).Repeats s as u ∧ skipLines u = [] := by
  induction h with
  | @done s h =>
    refine ⟨s, .stop ?_, h⟩
    rw [Reader.read_newlines_bind]
    cases hline : nextLine s with
    | none => rfl
    | some v =>
      -- nothing is left to read
      rw [nextLine_eq_some hline, h]
      exact hr.read_nil
  | next hline ha _ ih =>
    obtain ⟨u, hu, hend⟩ := ih
    refine ⟨u, .next ?_ hu, hend⟩
    rw [Reader.read_newlines_bind, hline]
    exact ha

theorem follow_of_repeats {s u : List Char} {as : List α}
    (h : (do Reader.newlines; r).Repeats s as u) (hend : skipLines u = []) : Follow r s as := by
  induction h with
  | stop => exact .done hend
  | next h _ ih =>
    rw [Reader.read_newlines_bind] at h
    obtain ⟨v, hv, ha⟩ := Option.bind_eq_some_iff.mp h
    exact .next hv ha (ih hend)

theorem follow_skipBlanks_iff {s : List Char} {as : List α} :
    Follow r (skipBlanks s) as ↔ Follow r s as := by
  constructor
  · intro h
    cases h with
    | done h => exact .done (by rw [← skipLines_skipBlanks, h])
    | next hline ha rest => exact .next (by rw [← nextLine_skipBlanks, hline]) ha rest
  · intro h
    cases h with
    | done h => exact .done (by rw [skipLines_skipBlanks, h])
    | next hline ha rest => exact .next (by rw [nextLine_skipBlanks, hline]) ha rest

/-! ## Texts of sections -/

variable {p : Phrase} {r : Reader Section} {s : List Char} {l : List (Located Section)}

/-- A text of sections is read as the first section and the items behind it. -/
theorem read_sections (s : List Char) :
    (sections p r).read s = (r.located.read (skipLines s)).bind fun (first, t) =>
      let items := Reader.readMany (do Reader.newlines; r.located) (skipBlanks t) (skipBlanks t)
      if (skipLines items.2).isEmpty then some (first :: items.1, []) else none := by
  simp only [sections, itemLines, Reader.read_phrase, Reader.read_bind, Reader.read_skip,
    Reader.read_many, Option.bind_some, Reader.skipBlanks_readMany_lineEnd, skipLines_skipBlanks]
  congr 1
  funext ⟨first, t⟩
  simp only [Reader.eoi, Reader.read_token, Reader.read_pure]
  split <;> rfl

/-- A text is read as the items that follow the end of a line in front of it, of which there must be
one. -/
theorem read_sections_iff (hr : r.Shrinks) :
    (∃ u, (sections p r).read s = some (l, u)) ↔ l ≠ [] ∧ Follow r.located ('\n' :: s) l := by
  have hlocated := hr.located
  rw [read_sections]
  constructor
  · rintro ⟨u, h⟩
    obtain ⟨⟨first, t⟩, hfirst, h⟩ := Option.bind_eq_some_iff.mp h
    dsimp only at h
    split at h
    · next hend =>
      obtain ⟨rfl, -⟩ := Prod.mk.inj (Option.some.inj h)
      have hrest := follow_of_repeats
        (Reader.repeats_readMany hlocated.newlines (Nat.le_refl _)) (List.isEmpty_iff.mp hend)
      exact ⟨List.cons_ne_nil _ _,
        .next (nextLine_newline s) hfirst (follow_skipBlanks_iff.mp hrest)⟩
    · cases h
  · rintro ⟨hl, h⟩
    cases h with
    | done => exact absurd rfl hl
    | next hline hfirst hrest =>
      obtain rfl := Option.some.inj ((nextLine_newline s).symm.trans hline)
      obtain ⟨u, hu, hend⟩ := (follow_skipBlanks_iff.mpr hrest).repeats hlocated
      have hlength := hu.length_le hlocated.newlines
      have hitems := Option.some.inj
        (Reader.read_many_of_repeats hu (Nat.le_of_add_right_le hlength))
      refine ⟨[], Option.bind_eq_some_iff.mpr ⟨_, hfirst, ?_⟩⟩
      simp [hitems, hend]

end

end Acceptors.Description
