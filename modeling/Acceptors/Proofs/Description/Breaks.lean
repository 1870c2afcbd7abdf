import Acceptors.Description.Reader
import Acceptors.Proofs.Description.Lines
import Mathlib.Data.List.Basic

/-!
# Tokens in front of a break

No token goes on over the end of a line or, but for the text of a name, over a blank. So what is
read as a token does not change when a break is put behind the text, and neither does whether it can
be read. The one token that looks beyond a break is a quoted character: behind a quote at the end of
the text, the character after the break must not be a quote.

## Main definitions

* `IsBreak`: blanks and ends of lines that part tokens
* `Token.Frames`: a token is read the same way in front of every break

## Main results

* `isPrefixOf_append`: a word is not found over a break
* `Token.frames_run`, `Token.frames_upTo`: the two ways to find the end of a token
* `Token.frames_ident`, `Token.frames_symbol`, …: the tokens
-/

namespace Acceptors.Description

/-! ## Breaks -/

/-- What may stand behind a token and part it from what follows: nothing, or a blank or a line feed
with no quote right behind it. -/
structure IsBreak (u : List Char) : Prop where
  head : ∀ c ∈ u.head?, isSpace c = true ∨ c = '\n'
  no_quote : u.tail.head? ≠ some '\''

theorem commentAhead_cons_cons (c d : Char) (s : List Char) :
    commentAhead (c :: d :: s) = (c == '/' && d == '/') := by
  unfold commentAhead
  split
  · next heq =>
    simp only [List.cons.injEq] at heq
    obtain ⟨rfl, rfl, -⟩ := heq
    rfl
  · next hne =>
    refine (Bool.eq_false_iff.mpr fun h => ?_).symm
    rw [Bool.and_eq_true, beq_iff_eq, beq_iff_eq] at h
    exact hne s (by rw [h.1, h.2])

theorem commentAhead_singleton (c : Char) : commentAhead [c] = false := by
  unfold commentAhead
  split
  · next heq => simp at heq
  · rfl

/-- Whether a comment starts here does not depend on what follows a text, if it is no slash. -/
theorem commentAhead_append {s t : List Char} (hs : s ≠ []) (ht : ∀ c ∈ t.head?, c ≠ '/') :
    commentAhead (s ++ t) = commentAhead s := by
  match s, hs with
  | [c], _ =>
    cases t with
    | nil => rfl
    | cons d t =>
      have hd : (d == '/') = false := beq_eq_false_iff_ne.mpr (ht d rfl)
      rw [List.singleton_append, commentAhead_cons_cons, hd, Bool.and_false, commentAhead_singleton]
  | c :: d :: s, _ =>
    rw [List.cons_append, List.cons_append, commentAhead_cons_cons, commentAhead_cons_cons]

namespace IsBreak

variable {u : List Char}

theorem nil : IsBreak [] := ⟨by simp, by simp⟩

/-- A character that is neither a blank nor a line feed does not start a break. -/
theorem head?_ne (h : IsBreak u) {c : Char} (hspace : isSpace c = false) (hfeed : c ≠ '\n') :
    u.head? ≠ some c := by
  intro hc
  rcases h.head c hc with hs | hf
  · rw [hspace] at hs
    cases hs
  · exact hfeed hf

theorem head?_false (h : IsBreak u) {p : Char → Bool} (hspace : ∀ c, isSpace c = true → p c = false)
    (hfeed : p '\n' = false) : ∀ c ∈ u.head?, p c = false := by
  intro c hc
  rcases h.head c hc with hs | rfl
  · exact hspace c hs
  · exact hfeed

theorem commentAhead_append (h : IsBreak u) {s : List Char} (hs : s ≠ []) :
    commentAhead (s ++ u) = commentAhead s := by
  refine Description.commentAhead_append hs fun c hc => ?_
  rintro rfl
  exact h.head?_ne rfl (by decide) hc

end IsBreak

/-! ## Words -/

/-- Whether a word holds neither blanks nor ends of lines. -/
def isUnbroken (t : List Char) : Bool := t.all fun c => !isSpace c && !isNewline c

/-- A word is not found over a break. -/
theorem isPrefixOf_append {t s u : List Char} (ht : isUnbroken t = true) (hu : IsBreak u) :
    t.isPrefixOf (s ++ u) = t.isPrefixOf s := by
  induction t generalizing s with
  | nil => simp
  | cons c t ih =>
    simp only [isUnbroken, List.all_cons, Bool.and_eq_true, Bool.not_eq_true'] at ht
    obtain ⟨⟨hspace, hline⟩, ht⟩ := ht
    cases s with
    | cons d s =>
      rw [List.cons_append, List.isPrefixOf_cons_cons, List.isPrefixOf_cons_cons, ih ht]
    | nil =>
      cases u with
      | nil => rfl
      | cons d k =>
        have hfeed : c ≠ '\n' := by
          rintro rfl
          cases hline
        have hcd : (c == d) = false := by
          rw [beq_eq_false_iff_ne]
          rintro rfl
          exact hu.head?_ne hspace hfeed rfl
        rw [List.nil_append, List.isPrefixOf_cons_cons, hcd, List.isPrefixOf_cons_nil]
        rfl

theorem length_le_of_isPrefixOf {t s : List Char} (h : t.isPrefixOf s = true) :
    t.length ≤ s.length :=
  (List.isPrefixOf_iff_prefix.mp h).length_le

/-! ## Tokens -/

namespace Token

variable {α β : Type} {t : Token α}

/-- The token is read the same way in front of every break, and takes a character at least. -/
structure Frames (t : Token α) : Prop where
  append : ∀ s u, IsBreak u → t (s ++ u) = (t s).map fun p => (p.1, p.2 ++ u)
  shrinks : ∀ s a rest, t s = some (a, rest) → IsRest rest s

theorem Frames.map (h : t.Frames) (f : α → β) :
    Frames fun s => (t s).map fun p => (f p.1, p.2) := by
  refine ⟨fun s u hu => ?_, fun s b rest hb => ?_⟩
  · rw [h.append s u hu]
    cases t s <;> rfl
  · obtain ⟨⟨a, rest'⟩, ha, heq⟩ := Option.map_eq_some_iff.mp hb
    obtain ⟨-, rfl⟩ := Prod.mk.inj heq
    exact h.shrinks s a rest' ha

/-- A token that is refused where something stands. -/
theorem Frames.unless (h : t.Frames) {ahead : List Char → Bool}
    (hahead : ∀ s u, IsBreak u → ahead (s ++ u) = ahead s) :
    Frames fun s => if ahead s then none else t s := by
  refine ⟨fun s u hu => ?_, fun s a rest ha => ?_⟩
  · rw [hahead s u hu, h.append s u hu]
    split <;> rfl
  · split at ha
    · cases ha
    · exact h.shrinks s a rest ha

/-! ### Runs of characters -/

theorem run_eq (p : Char → Bool) (s : List Char) :
    run p s = if s.takeWhile p = [] then none else some (s.takeWhile p, s.dropWhile p) := by
  rw [run]
  split
  · next h => rw [if_pos h]
  · next h => rw [if_neg h]

theorem takeWhile_append_eq {p : Char → Bool} {t rest : List Char} (ht : ∀ c ∈ t, p c = true)
    (hrest : ∀ c ∈ rest.head?, p c = false) : (t ++ rest).takeWhile p = t := by
  have hnil : rest.takeWhile p = [] := by
    cases rest with
    | nil => rfl
    | cons c rest => simp [hrest c rfl]
  rw [List.takeWhile_append_of_pos ht, hnil, List.append_nil]

/-- A run ends where a character without the property stands. -/
theorem run_append {p : Char → Bool} {t rest : List Char} (hne : t ≠ [])
    (ht : ∀ c ∈ t, p c = true) (hrest : ∀ c ∈ rest.head?, p c = false) :
    run p (t ++ rest) = some (t, rest) := by
  rw [run_eq, takeWhile_append_eq ht hrest, if_neg hne, List.dropWhile_append_of_pos ht,
    dropWhile_eq_self hrest]

theorem frames_run {p : Char → Bool} (hspace : ∀ c, isSpace c = true → p c = false)
    (hfeed : p '\n' = false) : (run p).Frames := by
  refine ⟨fun s u hu => ?_, fun s a rest h => ?_⟩
  · have hhead := hu.head?_false hspace hfeed
    have htake : (s ++ u).takeWhile p = s.takeWhile p := by
      rw [List.takeWhile_append]
      split
      · next hall =>
        have hu' : u.takeWhile p = [] := by
          cases u with
          | nil => rfl
          | cons d k => simp [hhead d rfl]
        rw [hu', List.append_nil]
        exact ((List.takeWhile_prefix p).eq_of_length hall).symm
      · rfl
    have hdrop : (s ++ u).dropWhile p = s.dropWhile p ++ u := by
      rw [List.dropWhile_append]
      split
      · next hnil => rw [dropWhile_eq_self hhead, List.isEmpty_iff.mp hnil, List.nil_append]
      · rfl
    rw [run_eq, run_eq, htake, hdrop]
    split <;> rfl
  · rw [run_eq] at h
    split at h
    · cases h
    · next hne =>
      obtain ⟨-, rfl⟩ := Prod.mk.inj (Option.some.inj h)
      have hrest := isRest_append hne (s.dropWhile p)
      rwa [List.takeWhile_append_dropWhile] at hrest

/-! ### Characters up to a stop -/

theorem upTo_eq (stop : List Char → Bool) (s : List Char) :
    upTo stop s = if (takeUntil stop s).1 = [] then none else some (takeUntil stop s) := by
  rw [upTo]
  split
  · next h => rw [h, if_pos rfl]
  · next hne h =>
    rw [h, if_neg]
    exact hne

theorem takeUntil_append {stop : List Char → Bool} {u : List Char}
    (hstop : ∀ s, s ≠ [] → stop (s ++ u) = stop s) (s : List Char) :
    takeUntil stop (s ++ u) =
      if (takeUntil stop s).2 = [] then (s ++ (takeUntil stop u).1, (takeUntil stop u).2)
      else ((takeUntil stop s).1, (takeUntil stop s).2 ++ u) := by
  induction s with
  | nil => simp [takeUntil]
  | cons c s ih =>
    have hc := hstop (c :: s) (List.cons_ne_nil c s)
    rw [List.cons_append] at hc ⊢
    rw [takeUntil, takeUntil, hc]
    split
    · rw [if_neg (List.cons_ne_nil c s), List.cons_append]
    · rw [ih]
      dsimp only
      split <;> rfl

theorem stopsAt_append {marks s u : List Char} (hu : IsBreak u) (hs : s ≠ []) :
    stopsAt marks (s ++ u) = stopsAt marks s := by
  cases s with
  | nil => exact absurd rfl hs
  | cons c s =>
    rw [List.cons_append, stopsAt, stopsAt, ← List.cons_append, hu.commentAhead_append hs]

theorem stopsAt_of_isBreak {marks u : List Char} (hspace : ∀ c, isSpace c = true → c ∈ marks)
    (hu : IsBreak u) (hne : u ≠ []) : stopsAt marks u = true := by
  cases u with
  | nil => exact absurd rfl hne
  | cons c k =>
    rw [stopsAt]
    rcases hu.head c rfl with hc | rfl
    · simp [hspace c hc]
    · simp [isNewline]

theorem takeUntil_of_stop {stop : List Char → Bool} {u : List Char} (h : u ≠ [] → stop u = true) :
    takeUntil stop u = ([], u) := by
  cases u with
  | nil => rfl
  | cons c k => rw [takeUntil, if_pos (h (List.cons_ne_nil c k))]

theorem frames_upTo {marks : List Char} (hspace : ∀ c, isSpace c = true → c ∈ marks) :
    (upTo (stopsAt marks)).Frames := by
  refine ⟨fun s u hu => ?_, fun s a rest h => ?_⟩
  · have happend : takeUntil (stopsAt marks) (s ++ u) =
        ((takeUntil (stopsAt marks) s).1, (takeUntil (stopsAt marks) s).2 ++ u) := by
      rw [takeUntil_append (fun s hs => stopsAt_append hu hs),
        takeUntil_of_stop (stopsAt_of_isBreak hspace hu)]
      split
      · next hnil =>
        have hsplit := takeUntil_eq (stopsAt marks) s
        rw [hnil, List.append_nil] at hsplit
        rw [hsplit, hnil, List.append_nil, List.nil_append]
      · rfl
    rw [upTo_eq, upTo_eq, happend]
    dsimp only
    split <;> rfl
  · rw [upTo_eq] at h
    split at h
    · cases h
    · next hne =>
      have hrest := isRest_append hne (takeUntil (stopsAt marks) s).2
      rw [takeUntil_eq] at hrest
      rwa [Option.some.inj h] at hrest

/-! ### The tokens -/

theorem Frames.or {t' : Token α} (h : t.Frames) (h' : t'.Frames) :
    Frames fun s => (t s).or (t' s) := by
  refine ⟨fun s u hu => ?_, fun s a rest ha => ?_⟩
  · rw [h.append s u hu, h'.append s u hu]
    cases t s <;> rfl
  · rcases Option.or_eq_some_iff.mp ha with ha | ⟨-, ha⟩
    · exact h.shrinks s a rest ha
    · exact h'.shrinks s a rest ha

theorem forall_isSpace {P : Char → Prop} (hblank : P ' ') (htab : P '\t') :
    ∀ c, isSpace c = true → P c := by
  intro c hc
  simp only [isSpace, Bool.or_eq_true, decide_eq_true_eq] at hc
  rcases hc with rfl | rfl
  · exact hblank
  · exact htab

theorem keywordAhead_append {keywords : List String}
    (hkeywords : ∀ k ∈ keywords, isUnbroken (k.toList ++ [':']) = true) (s u : List Char)
    (hu : IsBreak u) : keywordAhead keywords (s ++ u) = keywordAhead keywords s := by
  rw [keywordAhead, keywordAhead, Bool.eq_iff_iff, List.any_eq_true, List.any_eq_true]
  refine exists_congr fun k => and_congr_right fun hk => ?_
  rw [isPrefixOf_append (hkeywords k hk) hu]

theorem instructionWordAhead_append (s u : List Char) (hu : IsBreak u) :
    instructionWordAhead (s ++ u) = instructionWordAhead s := by
  have hwords : ∀ k ∈ instructionWords, isUnbroken k.toList = true := by decide
  rw [instructionWordAhead, instructionWordAhead, Bool.eq_iff_iff, List.any_eq_true,
    List.any_eq_true]
  refine exists_congr fun k => and_congr_right fun hk => ?_
  rw [isPrefixOf_append (hwords k hk) hu, Bool.and_eq_true, Bool.and_eq_true]
  refine and_congr_right fun hprefix => ?_
  have hlength := length_le_of_isPrefixOf hprefix
  rw [String.length_toList] at hlength
  rw [List.drop_append_of_le_length hlength, List.head?_append]
  cases (s.drop k.length).head? with
  | some c => rfl
  | none =>
    -- a break does not go on with a letter, a digit or an underscore
    have hhead := hu.head?_false (p := isLabelChar) (forall_isSpace rfl rfl) rfl
    rw [Option.none_or]
    cases hc : u.head? with
    | none => rfl
    | some c => simp [hhead c hc]

theorem frames_ident : ident.Frames :=
  (frames_run (forall_isSpace rfl rfl) rfl).map String.ofList

theorem frames_digits : digits.Frames := frames_run (forall_isSpace rfl rfl) rfl

theorem frames_stateName : stateName.Frames :=
  frames_ident.unless (keywordAhead_append (by decide))

theorem frames_label : label.Frames :=
  ((frames_run (forall_isSpace rfl rfl) rfl).map String.ofList).unless
    (keywordAhead_append (by decide))

theorem frames_variableName : variableName.Frames := by
  refine ((frames_run (forall_isSpace rfl rfl) rfl).map String.ofList).unless fun s u hu => ?_
  rw [instructionWordAhead_append s u hu, List.head?_append]
  cases s.head? with
  | some c => rfl
  | none =>
    have hhead := hu.head?_false (p := Char.isAlpha) (forall_isSpace rfl rfl) rfl
    rw [Option.none_or]
    cases hc : u.head? with
    | none => rfl
    | some c => simp [hhead c hc]

theorem frames_lit {word : String} (hword : isUnbroken word.toList = true) (hne : word ≠ "") :
    Frames (Reader.lit word).read := by
  refine ⟨fun s u hu => ?_, Reader.shrinks_lit hne⟩
  simp only [Reader.lit, isPrefixOf_append hword hu]
  split
  · next h =>
    have hlength := length_le_of_isPrefixOf h
    rw [String.length_toList] at hlength
    rw [List.drop_append_of_le_length hlength]
    rfl
  · rfl

/-- A character between quotes. -/
def quotedChar : Token Char
  | a :: c :: b :: rest => if a = '\'' ∧ b = '\'' ∧ c ≠ '\'' then some (c, rest) else none
  | _ => none

theorem frames_quotedChar : quotedChar.Frames := by
  refine ⟨fun s u hu => ?_, fun s a rest h => ?_⟩
  · have hquote : u.head? ≠ some '\'' := hu.head?_ne rfl (by decide)
    have hquote' := hu.no_quote
    match s with
    | a :: c :: b :: rest =>
      simp only [List.cons_append, quotedChar]
      split <;> rfl
    -- the quotes would stand in the break
    | [a, c] => match u with
      | [] => rfl
      | b :: k => simp_all [quotedChar]
    | [a] => match u with
      | [] => rfl
      | [c] => rfl
      | c :: b :: k => simp_all [quotedChar]
    | [] => match u with
      | [] => rfl
      | [a] => rfl
      | [a, c] => rfl
      | a :: c :: b :: k => simp_all [quotedChar]
  · unfold quotedChar at h
    split at h
    · split at h
      · obtain ⟨-, rfl⟩ := Prod.mk.inj (Option.some.inj h)
        exact isRest_append (p := [_, _, _]) (List.cons_ne_nil _ _) _
      · cases h
    · cases h

/-- A single character that does not stop here. -/
def plainChar (stop : List Char → Bool) : Token Char
  | c :: rest => if stop (c :: rest) then none else some (c, rest)
  | [] => none

theorem frames_plainChar {stop : List Char → Bool}
    (happend : ∀ s u, IsBreak u → s ≠ [] → stop (s ++ u) = stop s)
    (hbreak : ∀ u, IsBreak u → u ≠ [] → stop u = true) : (plainChar stop).Frames := by
  refine ⟨fun s u hu => ?_, fun s a rest h => ?_⟩
  · cases s with
    | cons c s =>
      rw [List.cons_append, plainChar, plainChar, ← List.cons_append,
        happend (c :: s) u hu (List.cons_ne_nil c s)]
      split <;> rfl
    | nil =>
      cases u with
      | nil => rfl
      | cons c k => rw [List.nil_append, plainChar, hbreak _ hu (List.cons_ne_nil c k)]; rfl
  · cases s with
    | nil => cases h
    | cons c s =>
      rw [plainChar] at h
      split at h
      · cases h
      · obtain ⟨-, rfl⟩ := Prod.mk.inj (Option.some.inj h)
        exact isRest_cons c s

theorem symbol_eq (s : List Char) :
    symbol s = (quotedChar s).or
      (plainChar (stopsAt [' ', '\t', ',', '[', ']', '\'', '|']) s) := by
  unfold symbol
  split
  · next c rest =>
    rw [quotedChar]
    split
    · next hc => simp [hc, plainChar, stopsAt]
    · next hc => rw [if_pos ⟨rfl, rfl, hc⟩]; rfl
  · next c rest hne =>
    have hquoted : quotedChar (c :: rest) = none := by
      match rest with
      | [] => rfl
      | [_] => rfl
      | d :: b :: rest =>
        rw [quotedChar, if_neg]
        rintro ⟨rfl, rfl, -⟩
        exact hne d rest rfl rfl
    rw [hquoted]
    rfl
  · rfl

theorem frames_symbol : symbol.Frames := by
  have h : symbol = _ := funext symbol_eq
  rw [h]
  exact frames_quotedChar.or (frames_plainChar (fun _ _ hu hs => stopsAt_append hu hs)
    fun _ hu hne => stopsAt_of_isBreak (forall_isSpace (by decide) (by decide)) hu hne)

theorem frames_direction : direction.Frames := by
  have h : direction = plainChar fun s => s.head?.any fun c =>
      isNewline c || [' ', '\t', ',', '[', ']'].contains c := by
    funext s
    cases s <;> rfl
  rw [h]
  refine frames_plainChar (fun s u _ hs => ?_) fun u hu hne => ?_
  · rw [List.head?_append_of_ne_nil _ hs]
  · cases u with
    | nil => exact absurd rfl hne
    | cons c k =>
      rcases hu.head c rfl with hc | rfl
      · exact forall_isSpace (P := fun c => (isNewline c || [' ', '\t', ',', '[', ']'].contains c) =
          true) rfl rfl c hc
      · rfl

theorem word_eq (s : List Char) :
    word s = (((Reader.lit "\'\'").read s).map fun p => (([] : Word), p.2)).or
        ((upTo (stopsAt [' ', '\t', ',', '[', ']']) s).map fun p =>
          (if p.1 = emptyWordSign.toList then [] else p.1, p.2)) := by
  unfold word
  split
  · rfl
  · next hne =>
    have hlit : (Reader.lit "\'\'").read s = none := if_neg fun hprefix => by
      obtain ⟨rest, rfl⟩ := List.isPrefixOf_iff_prefix.mp hprefix
      exact hne rest rfl
    rw [hlit]
    rfl

theorem frames_word : word.Frames := by
  have h : word = _ := funext word_eq
  rw [h]
  have hquotes : Frames (Reader.lit "\'\'").read := frames_lit rfl (by decide)
  exact (hquotes.map fun _ => ([] : Word)).or
    ((frames_upTo (forall_isSpace (by decide) (by decide))).map
      fun t => if t = emptyWordSign.toList then [] else t)

theorem bodySymbol_eq (s : List Char) :
    bodySymbol s = ((quotedChar s).map fun p => (['\'', p.1, '\''], p.2)).or
      (upTo (stopsAt [' ', '\t', '|']) s) := by
  unfold bodySymbol
  split
  · next c rest =>
    rw [quotedChar]
    split
    · next hc => simp [hc]
    · next hc => rw [if_pos ⟨rfl, rfl, hc⟩]; rfl
  · next hne =>
    have hquoted : quotedChar s = none := by
      match s with
      | [] => rfl
      | [_] => rfl
      | [_, _] => rfl
      | a :: d :: b :: rest =>
        rw [quotedChar, if_neg]
        rintro ⟨rfl, rfl, -⟩
        exact hne d rest rfl
    rw [hquoted]
    rfl

theorem frames_bodySymbol : bodySymbol.Frames := by
  have h : bodySymbol = _ := funext bodySymbol_eq
  rw [h]
  exact (frames_quotedChar.map fun c => ['\'', c, '\'']).or
    (frames_upTo (forall_isSpace (by decide) (by decide)))

end Token

end Acceptors.Description
