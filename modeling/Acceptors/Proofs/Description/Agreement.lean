import Acceptors.Proofs.Description.Breaks
import Mathlib.Data.List.Forall2

/-!
# Readers that agree on the beginning of a text

A text may go on, behind blanks, with the end of a line and further lines. What is read from its
beginning should not depend on that. Two readers agree if from related texts, one of which goes on,
they read related values and leave related texts, or both read nothing.

## Main definitions

* `IsLineEnd`, `Extends`: how a text may go on
* `Reader.Agree`: two readers agree on the beginning of texts that go on
* `Reader.Frames`: a reader agrees with itself and takes a character at least

## Main results

* `skipBlanks_append`, `skipLines_append`: skipping in a text that goes on
* `Agree.bind`, `Agree.orElse`, `Agree.many`, …: one rule for each combination
* `Agree.itemLines`: items on lines of their own, if what follows starts no item
-/

namespace Acceptors.Description

/-! ## Texts that go on -/

/-- What a text may go on with: nothing, or the end of a line with no quote right behind it. -/
def IsLineEnd (e : List Char) : Prop := e = [] ∨ ∃ k, e = '\n' :: k ∧ k.head? ≠ some '\''

/-- The second text is the first, blanks, and what the text goes on with. -/
def Extends (e s s' : List Char) : Prop :=
  ∃ b, (∀ c ∈ b, isSpace c = true) ∧ s' = s ++ (b ++ e)

theorem extends_append (e s : List Char) : Extends e s (s ++ e) := ⟨[], by simp, rfl⟩

section

variable {e b s s' : List Char}

theorem IsLineEnd.isBreak (he : IsLineEnd e) (hb : ∀ c ∈ b, isSpace c = true) :
    IsBreak (b ++ e) := by
  have hempty : IsBreak e := by
    rcases he with rfl | ⟨k, rfl, hk⟩
    · exact .nil
    · exact ⟨fun c hc => .inr (Option.some.inj hc).symm, hk⟩
  cases b with
  | nil => exact hempty
  | cons c b =>
    refine ⟨fun d hd => .inl ?_, fun hquote => ?_⟩
    · obtain rfl : c = d := Option.some.inj hd
      exact hb c List.mem_cons_self
    · rw [List.cons_append, List.tail_cons] at hquote
      cases b with
      | nil => exact hempty.head?_ne rfl (by decide) hquote
      | cons d b =>
        obtain rfl : d = '\'' := Option.some.inj hquote
        exact absurd (hb '\'' (by simp)) (by decide)

theorem dropWhile_lineEnd {p : Char → Bool} (he : IsLineEnd e) (hp : p '\n' = false)
    (hb : ∀ c ∈ b, p c = true) : (b ++ e).dropWhile p = e := by
  rw [List.dropWhile_append_of_pos hb]
  rcases he with rfl | ⟨k, rfl, -⟩
  · rfl
  · rw [List.dropWhile_cons_of_neg (by simp [hp])]

/-- Where blanks and a comment take up the rest, what follows is left, and else nothing of it is
skipped. -/
theorem skipBlanks_append (he : IsLineEnd e) (hb : ∀ c ∈ b, isSpace c = true) (s : List Char) :
    skipBlanks (s ++ (b ++ e)) = if skipBlanks s = [] then e else skipBlanks s ++ (b ++ e) := by
  have hbreak := he.isBreak hb
  have hline : ∀ c ∈ b, (!isNewline c) = true := fun c hc => by
    rw [isNewline_of_isSpace (hb c hc), Bool.not_false]
  rw [skipBlanks, skipBlanks, List.dropWhile_append]
  split
  · next hnil =>
    have hempty : skipComment [] = [] := rfl
    rw [List.isEmpty_iff.mp hnil, dropWhile_lineEnd he rfl hb, hempty, if_pos rfl, skipComment]
    rcases he with rfl | ⟨k, rfl, -⟩ <;> rfl
  · next hne =>
    rw [List.isEmpty_iff] at hne
    rw [skipComment, skipComment, hbreak.commentAhead_append hne]
    split
    · rw [List.dropWhile_append]
      split
      · next hnil => rw [if_pos (List.isEmpty_iff.mp hnil), dropWhile_lineEnd he rfl hline]
      · next hsome => rw [if_neg (fun h => hsome (List.isEmpty_iff.mpr h))]
    · rfl

theorem skipLines_of_blanks (hb : ∀ c ∈ b, isSpace c = true) (s : List Char) :
    skipLines (b ++ s) = skipLines s :=
  skipLines_append_of_blank (fun c hc => .inl (hb c hc)) s

theorem skipLines_append (he : IsLineEnd e) (hb : ∀ c ∈ b, isSpace c = true) (s : List Char) :
    skipLines (s ++ (b ++ e)) =
      if skipLines s = [] then skipLines e else skipLines s ++ (b ++ e) := by
  have hbreak := he.isBreak hb
  -- a comment that goes on at the end of the text goes on over the blanks
  have hcomment : skipLinesFrom true (b ++ e) = skipLines e := by
    rw [skipLinesFrom_true, dropWhile_lineEnd he rfl]
    intro c hc
    rw [isNewline_of_isSpace (hb c hc), Bool.not_false]
  have hfrom : ∀ flag, skipLinesFrom flag (s ++ (b ++ e)) =
      if skipLinesFrom flag s = [] then skipLines e else skipLinesFrom flag s ++ (b ++ e) := by
    induction s with
    | nil =>
      intro flag
      cases flag with
      | true => exact hcomment
      | false => exact skipLines_of_blanks hb e
    | cons c s ih =>
      intro flag
      cases flag with
      | true => exact ih _
      | false =>
        rw [List.cons_append, skipLinesFrom, skipLinesFrom, ← List.cons_append,
          hbreak.commentAhead_append (List.cons_ne_nil c s)]
        split
        · exact ih false
        · split
          · exact ih true
          · rw [if_neg (List.cons_ne_nil c s)]
  exact hfrom false

theorem isSome_newline (s : List Char) : (newline s).isSome = s.head?.any isNewline := by
  unfold newline
  split
  · rfl
  · rfl
  · rfl
  · next hfeed hboth hreturn =>
    cases s with
    | nil => rfl
    | cons c s =>
      refine (Bool.eq_false_iff.mpr fun h => ?_).symm
      simp only [List.head?_cons, Option.any_some, isNewline, Bool.or_eq_true,
        decide_eq_true_eq] at h
      rcases h with rfl | rfl
      · exact hfeed s rfl
      · exact hreturn s rfl

theorem nextLine_eq (s : List Char) :
    nextLine s = if (skipBlanks s).head?.any isNewline then some (skipLines s) else none := by
  rw [← isSome_newline]
  cases h : newline (skipBlanks s) with
  | none => rw [nextLine, h]; rfl
  | some t =>
    rw [nextLine, h, Option.map_some, skipLines_of_newline h, skipLines_skipBlanks]
    rfl

theorem skipBlanks_ne_nil (hs : skipLines s ≠ []) : skipBlanks s ≠ [] := by
  intro h
  rw [← skipLines_skipBlanks, h] at hs
  exact hs rfl

/-- Where something is left on later lines, these lines go on. -/
theorem nextLine_append (he : IsLineEnd e) (hb : ∀ c ∈ b, isSpace c = true)
    (hs : skipLines s ≠ []) : nextLine (s ++ (b ++ e)) = (nextLine s).map (· ++ (b ++ e)) := by
  have hblanks := skipBlanks_ne_nil hs
  rw [nextLine_eq, nextLine_eq, skipBlanks_append he hb, skipLines_append he hb, if_neg hs,
    if_neg hblanks, List.head?_append_of_ne_nil _ hblanks]
  split <;> rfl

/-- Where nothing is left on later lines, the next line is that of what follows. -/
theorem nextLine_append_of_nil (he : IsLineEnd e) (hb : ∀ c ∈ b, isSpace c = true)
    (hs : skipLines s = []) {v : List Char} (hv : nextLine e = some v) :
    nextLine (s ++ (b ++ e)) = some v := by
  have hve := nextLine_eq_some hv
  rw [nextLine_eq, skipLines_append he hb, if_pos hs, skipBlanks_append he hb, hve, if_pos]
  split
  · -- the line ends where what follows starts
    rcases he with rfl | ⟨k, rfl, -⟩
    · cases hv
    · rfl
  · next hblanks =>
    -- a line ends before, as something other than blanks is left and nothing on later lines
    have hend : newline (skipBlanks s) ≠ none := by
      intro hnone
      rw [← skipLines_eq_skipBlanks hnone] at hblanks
      exact hblanks hs
    rw [List.head?_append_of_ne_nil _ hblanks, ← isSome_newline]
    exact Option.isSome_iff_ne_none.mpr hend

end

/-! ## Agreement -/

namespace Reader

variable {α β γ δ : Type} {e : List Char} {R : α → β → Prop} {S : γ → δ → Prop} {r : Reader α}
  {r' : Reader β}

/-- From texts of which the second goes on with `e`, the readers read related values and leave such
texts, or both read nothing. -/
def Agree (e : List Char) (R : α → β → Prop) (r : Reader α) (r' : Reader β) : Prop :=
  ∀ s s', Extends e s s' →
    Option.Rel (fun p p' => R p.1 p'.1 ∧ p.2 <:+ s ∧ Extends e p.2 p'.2)
      (r.read s) (r'.read s')

section

variable {φ ψ : Type} {P : α → β → Prop} {Q : φ → ψ → Prop} {x : Option α} {y : Option β}

theorem rel_bind {f : α → Option φ} {g : β → Option ψ} (h : Option.Rel P x y)
    (hfg : ∀ a b, P a b → Option.Rel Q (f a) (g b)) : Option.Rel Q (x.bind f) (y.bind g) := by
  cases h with
  | none => exact .none
  | some h => exact hfg _ _ h

theorem rel_map {f : α → φ} {g : β → ψ} (h : Option.Rel P x y)
    (hfg : ∀ a b, P a b → Q (f a) (g b)) : Option.Rel Q (x.map f) (y.map g) := by
  cases h with
  | none => exact .none
  | some h => exact .some (hfg _ _ h)

theorem rel_or {x' : Option α} {y' : Option β} (h : Option.Rel P x y) (h' : Option.Rel P x' y') :
    Option.Rel P (x.or x') (y.or y') := by
  cases h with
  | none => exact h'
  | some h => exact .some h

theorem rel_mono {P' : α → β → Prop} (h : Option.Rel P x y) (hP : ∀ a b, P a b → P' a b) :
    Option.Rel P' x y := by
  cases h with
  | none => exact .none
  | some h => exact .some (hP _ _ h)

theorem isSome_eq_of_rel (h : Option.Rel P x y) : x.isSome = y.isSome := by
  cases h <;> rfl

theorem rel_of_eq_some {a : α} (h : Option.Rel P x y) (hx : x = some a) :
    ∃ b, y = some b ∧ P a b := by
  cases h with
  | none => cases hx
  | @some _ b h => exact ⟨b, rfl, Option.some.inj hx ▸ h⟩

theorem rel_of_eq_none (h : Option.Rel P x y) (hx : x = none) : y = none := by
  cases h with
  | none => rfl
  | some h => cases hx

end

namespace Agree

theorem suffix (h : Agree e R r r') {s t : List Char} {a : α} (ha : r.read s = some (a, t)) :
    t <:+ s := by
  obtain ⟨_, -, hp⟩ := rel_of_eq_some (h s (s ++ e) (extends_append e s)) ha
  exact hp.2.1

theorem mono {R' : α → β → Prop} (h : Agree e R r r') (himp : ∀ a b, R a b → R' a b) :
    Agree e R' r r' :=
  fun s s' hs => rel_mono (h s s' hs) fun _ _ hp => ⟨himp _ _ hp.1, hp.2⟩

/-! ### Sequences -/

theorem pure {a : α} {b : β} (h : R a b) : Agree e R (Pure.pure a) (Pure.pure b) :=
  fun _ _ hs => .some ⟨h, List.suffix_rfl, hs⟩

theorem bind {f : α → Reader γ} {f' : β → Reader δ} (h : Agree e R r r')
    (hf : ∀ a b, R a b → Agree e S (f a) (f' b)) : Agree e S (r >>= f) (r' >>= f') := by
  intro s s' hs
  refine rel_bind (h s s' hs) fun p p' hp => ?_
  refine rel_mono (hf p.1 p'.1 hp.1 p.2 p'.2 hp.2.2) fun q q' hq => ?_
  exact ⟨hq.1, hq.2.1.trans hp.2.1, hq.2.2⟩

/-- A step whose value plays no part. -/
theorem after {q : Reader γ} {q' : Reader δ} (h : Agree e R r r') (hq : Agree e S q q') :
    Agree e S (r >>= fun _ => q) (r' >>= fun _ => q') :=
  h.bind fun _ _ _ => hq

theorem map {f : α → γ} {f' : β → δ} (h : Agree e R r r') (hf : ∀ a b, R a b → S (f a) (f' b)) :
    Agree e S (f <$> r) (f' <$> r') := by
  intro s s' hs
  rw [read_map, read_map]
  exact rel_map (h s s' hs) fun _ _ hp => ⟨hf _ _ hp.1, hp.2⟩

theorem phrase {p p' : Phrase} (h : Agree e R r r') :
    Agree e R (Reader.phrase p r) (Reader.phrase p' r') := h

theorem located (h : Agree e R r r') :
    Agree e (fun x y => R x.value y.value) r.located r'.located := by
  intro s s' hs
  rw [read_located, read_located]
  exact rel_map (h s s' hs) fun _ _ hp => hp

/-! ### Single steps -/

theorem token {t : Token α} {p : Phrase} (ht : t.Frames) (he : IsLineEnd e) :
    Agree e Eq (Reader.token p t) (Reader.token p t) := by
  rintro s s' ⟨b, hb, rfl⟩
  rw [read_token, ht.append s _ (he.isBreak hb)]
  cases h : t s with
  | none => exact .none
  | some p => exact .some ⟨rfl, (ht.shrinks s p.1 p.2 h).1, b, hb, rfl⟩

theorem lit {word : String} (hword : isUnbroken word.toList = true) (hne : word ≠ "")
    (he : IsLineEnd e) : Agree e Eq (Reader.lit word) (Reader.lit word) :=
  token (p := .endOfInput) (Token.frames_lit hword hne) he

theorem skip (he : IsLineEnd e) : Agree e Eq Reader.skip Reader.skip := by
  rintro s s' ⟨b, hb, rfl⟩
  refine .some ⟨rfl, skipBlanks_suffix s, ?_⟩
  dsimp only
  rw [skipBlanks_append he hb]
  split
  · next hnil => exact ⟨[], by simp, by rw [hnil]; rfl⟩
  · exact ⟨b, hb, rfl⟩

/-! ### Choices -/

theorem orElse {q : Reader α} {q' : Reader β} (h : Agree e R r r') (hq : Agree e R q q') :
    Agree e R (r <|> q) (r' <|> q') :=
  fun s s' hs => rel_or (h s s' hs) (hq s s' hs)

theorem optional (h : Agree e R r r') : Agree e (Option.Rel R) r.optional r'.optional :=
  orElse (map h fun _ _ hab => .some hab) (pure .none)

/-! ### Repetitions -/

theorem many {R : α → α → Prop} (h : Agree e R r r) (hr : r.Shrinks) (he : IsLineEnd e) :
    Agree e (List.Forall₂ R) r.many r.many := by
  have key : ∀ s u as, r.Repeats s as u → ∀ s', Extends e s s' →
      ∃ as' u', r.Repeats s' as' u' ∧ List.Forall₂ R as as' ∧ Extends e u u' := by
    intro s u as hs
    induction hs with
    | @stop s hstop =>
      intro s' hext
      have hrel := (skip he).after h s s' hext
      exact ⟨[], s', .stop (rel_of_eq_none hrel hstop), .nil, hext⟩
    | @next s _ _ _ _ hnext _ ih =>
      intro s' hext
      have hrel := (skip he).after h s s' hext
      obtain ⟨p, hp, ha, -, ht⟩ := rel_of_eq_some hrel hnext
      obtain ⟨as', u', hrest, has, hu⟩ := ih p.2 ht
      exact ⟨p.1 :: as', u', .next hp hrest, .cons ha has, hu⟩
  intro s s' hs
  have hrepeats := repeats_readMany hr (Nat.le_refl s.length)
  obtain ⟨as', u', hrest, has, hu⟩ := key _ _ _ hrepeats s' hs
  rw [(read_many_iff hr).mpr hrest]
  exact .some ⟨has, hrepeats.suffix hr, hu⟩

theorem bracketed (h : Agree e R r r') (he : IsLineEnd e) :
    Agree e R r.bracketed r'.bracketed :=
  (lit rfl (by decide) he).after <| (skip he).after <| h.bind fun _ _ ha => (skip he).after <|
    (lit rfl (by decide) he).after <| pure ha

/-- Items behind a separating word. -/
theorem many_after_lit {R : α → α → Prop} {word : String} (hword : isUnbroken word.toList = true)
    (hne : word ≠ "") (h : Agree e R r r) (he : IsLineEnd e) :
    Agree e (List.Forall₂ R) (Reader.many do Reader.lit word; Reader.skip; r)
      (Reader.many do Reader.lit word; Reader.skip; r) :=
  have hnext := (skip he).after h
  many ((lit hword hne he).after hnext)
    ((shrinks_lit hne).bind fun _ _ _ _ hread => hnext.suffix hread) he

theorem commaSeparated {R : α → α → Prop} (h : Agree e R r r) (he : IsLineEnd e) :
    Agree e (List.Forall₂ R) r.commaSeparated r.commaSeparated :=
  h.bind fun _ _ ha => (skip he).after <| (many_after_lit rfl (by decide) h he).bind fun _ _ has =>
    pure (.cons ha has)

theorem listOf {R : α → α → Prop} (h : Agree e R r r) (he : IsLineEnd e) :
    Agree e (List.Forall₂ R) r.listOf r.listOf := by
  have hitems := h.commaSeparated he
  refine orElse (bracketed (hitems.optional.map fun found found' hfound => ?_) he) hitems
  cases hfound with
  | none => exact .nil
  | some has => exact has

/-! ### Items on lines of their own -/

/-- An item on a later line, if what the text goes on with starts no item. -/
theorem newlines (h : Agree e R r r') (hr : r.read [] = none) (he : IsLineEnd e)
    (hstop : r'.read (skipLines e) = none) :
    Agree e R (do Reader.newlines; r) (do Reader.newlines; r') := by
  rintro s s' ⟨b, hb, rfl⟩
  rw [read_bind, read_bind, read_newlines, read_newlines]
  cases hend : newline s with
  | none =>
    cases s with
    | nil =>
      cases hend' : newline ([] ++ (b ++ e)) with
      | none => exact .none
      | some t' =>
        -- the line feed is one of what the text goes on with
        simp only [Option.map_none, Option.bind_none, Option.map_some, Option.bind_some]
        rw [skipLines_of_newline hend', List.nil_append, skipLines_of_blanks hb, hstop]
        exact .none
    | cons c s =>
      have hend' : newline (c :: s ++ (b ++ e)) = none := by
        rw [← Option.not_isSome_iff_eq_none, isSome_newline] at hend ⊢
        exact hend
      rw [hend']
      exact .none
  | some t =>
    have hhead : (s ++ (b ++ e)).head? = s.head? := by
      cases s with
      | nil => cases hend
      | cons => rfl
    have hend' : (newline (s ++ (b ++ e))).isSome = true := by
      rw [isSome_newline, hhead, ← isSome_newline, hend]
      rfl
    obtain ⟨t', ht'⟩ := Option.isSome_iff_exists.mp hend'
    rw [ht']
    simp only [Option.map_some, Option.bind_some]
    rw [skipLines_of_newline hend, skipLines_of_newline ht', skipLines_append he hb]
    split
    · next hnil =>
      rw [hnil, hr, hstop]
      exact .none
    · exact rel_mono (h _ _ ⟨b, hb, rfl⟩) fun _ _ hp =>
        ⟨hp.1, hp.2.1.trans (skipLines_suffix s), hp.2.2⟩

theorem itemLines {R : α → α → Prop} (h : Agree e R r r) (hr : r.Shrinks) (he : IsLineEnd e)
    (hstop : r.read (skipLines e) = none) :
    Agree e (List.Forall₂ R) (itemLines r) (itemLines r) :=
  many (newlines h hr.read_nil he hstop) hr.newlines he

end Agree

/-! ## Items -/

/-- The reader agrees with itself in front of `e`, and reads nothing from nothing. -/
structure Frames (e : List Char) (R : α → α → Prop) (r : Reader α) : Prop where
  agree : Agree e R r r
  shrinks : r.Shrinks

namespace Frames

variable {R : α → α → Prop} {S : γ → γ → Prop}

theorem token {t : Token α} {p : Phrase} (ht : t.Frames) (he : IsLineEnd e) :
    Frames e Eq (Reader.token p t) :=
  ⟨.token ht he, ht.shrinks⟩

theorem lit {word : String} (hword : isUnbroken word.toList = true) (hne : word ≠ "")
    (he : IsLineEnd e) : Frames e Eq (Reader.lit word) :=
  ⟨.lit hword hne he, shrinks_lit hne⟩

/-- It is enough that the first step takes a character. -/
theorem bind {f : α → Reader γ} (h : Frames e R r) (hR : ∀ a, R a a)
    (hf : ∀ a b, R a b → Agree e S (f a) (f b)) : Frames e S (r >>= f) :=
  ⟨h.agree.bind hf, h.shrinks.bind fun a _ _ _ hread => (hf a a (hR a)).suffix hread⟩

theorem after {q : Reader γ} (h : Frames e R r) (hR : ∀ a, R a a) (hq : Agree e S q q) :
    Frames e S (r >>= fun _ => q) :=
  h.bind hR fun _ _ _ => hq

theorem map {f : α → γ} (h : Frames e R r) (hf : ∀ a b, R a b → S (f a) (f b)) :
    Frames e S (f <$> r) :=
  ⟨h.agree.map hf, h.shrinks.map f⟩

theorem of_read_eq {q : Reader α} (hread : q.read = r.read) (h : Frames e R r) : Frames e R q :=
  ⟨fun s s' hs => hread ▸ h.agree s s' hs, fun s a t hq => h.shrinks s a t (hread ▸ hq)⟩

theorem phrase {p : Phrase} (h : Frames e R r) : Frames e R (Reader.phrase p r) :=
  ⟨h.agree, h.shrinks⟩

theorem located (h : Frames e R r) : Frames e (fun x y => R x.value y.value) r.located :=
  ⟨h.agree.located, h.shrinks.located⟩

theorem orElse {q : Reader α} (h : Frames e R r) (hq : Frames e R q) : Frames e R (r <|> q) :=
  ⟨h.agree.orElse hq.agree, h.shrinks.orElse hq.shrinks⟩

theorem bracketed (h : Agree e R r r) (he : IsLineEnd e) : Frames e R r.bracketed :=
  (lit rfl (by decide) he).after (fun _ => rfl) <| (Agree.skip he).after <| h.bind fun _ _ ha =>
    (Agree.skip he).after <| (Agree.lit rfl (by decide) he).after <| .pure ha

theorem commaSeparated (h : Frames e Eq r) (he : IsLineEnd e) : Frames e Eq r.commaSeparated :=
  h.bind (fun _ => rfl) fun a b hab => (Agree.skip he).after <|
    (Agree.many_after_lit rfl (by decide) h.agree he).bind fun as bs has => .pure <| by
      rw [List.forall₂_eq_eq_eq] at has
      rw [hab, has]

theorem itemLines (h : Frames e R r) (he : IsLineEnd e) (hstop : r.read (skipLines e) = none) :
    Agree e (List.Forall₂ R) (itemLines r) (itemLines r) :=
  h.agree.itemLines h.shrinks he hstop

end Frames

end Reader

end Acceptors.Description
