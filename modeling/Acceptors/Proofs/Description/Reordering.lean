import Acceptors.Description.Written
import Acceptors.Proofs.Description.Formats

/-!
# The order of sections

A text can be cut into its sections, each of them whole lines with all that stands below its
heading. Put together in another order the sections describe the same, as long as no heading behind
the rules is itself read as one of them. A heading with the colon right behind its keyword never is;
with a blank before the colon it may be.

## Main definitions

* `Sections`: the sections in the rest of a text
* `soleSection?`: the section that a text holds
* `IsCut`: the pieces are sections, and the rules end where the next piece starts

## Main results

* `Sections.append`: sections in front of further sections
* `IsCut.exists_read`: the text of the pieces is read as their sections
* `exists_isCut`: a text can be cut into its sections
* `isCut_of_colon`: headings that may stand anywhere
* `parse_reordered`: the order of the sections does not matter
-/

namespace Acceptors.Description

open Written (joined)

section

variable {kind : Kind} {e s s' : List Char} {l l' : List (Located Section)}

/-! ## Sections that follow each other -/

/-- The sections in the rest of a text, each on a line of its own. -/
abbrev Sections (kind : Kind) : List Char → List (Located Section) → Prop :=
  Follow (sectionReader kind).located

/-- The sections of two lists are alike one by one. -/
abbrev AllAlike : List (Located Section) → List (Located Section) → Prop :=
  List.Forall₂ fun x y => x.value.Alike y.value

/-- The sections of a list are like the given ones, one by one. -/
abbrev Resemble (ys : List Section) (l : List (Located Section)) : Prop :=
  List.Forall₂ (fun y x => y.Alike x.value) ys l

theorem read_iff_sections :
    (∃ u, (sectionsReader kind).read s = some (l, u)) ↔ l ≠ [] ∧ Sections kind ('\n' :: s) l := by
  obtain ⟨p, hp⟩ := exists_sectionsReader_eq kind
  rw [hp]
  exact read_sections_iff (shrinks_sectionReader kind)

theorem skipLines_ne_nil_of_next {u t : List Char} {x : Located Section}
    (hline : nextLine s = some u) (hx : (sectionReader kind).located.read u = some (x, t)) :
    skipLines s ≠ [] := by
  intro hnil
  rw [nextLine_eq_some hline, hnil, (shrinks_sectionReader kind).located.read_nil] at hx
  cases hx

/-- The first section of a text that goes on. -/
theorem exists_read_append (he : IsSequel e) (hs : Extends e s s') {u t : List Char}
    {x : Located Section} (hline : nextLine s = some u)
    (hx : (sectionReader kind).located.read u = some (x, t))
    (hstop : x.value.holdsRules = true → startsRule kind (skipLines e) = false) :
    ∃ u' x' t', nextLine s' = some u' ∧ (sectionReader kind).located.read u' = some (x', t') ∧
      x.value.Alike x'.value ∧ Extends e t t' := by
  have hne := skipLines_ne_nil_of_next hline hx
  obtain ⟨b, hb, rfl⟩ := hs
  have hline' := nextLine_append he.lineEnd hb hne
  rw [hline, Option.map_some] at hline'
  obtain ⟨⟨y, v⟩, hy, heq⟩ := Option.map_eq_some_iff.mp hx
  obtain ⟨rfl, rfl⟩ := Prod.mk.inj heq
  have hrel := rel_sectionReader kind he ⟨b, hb, rfl⟩ (s := u)
  obtain ⟨⟨y', v'⟩, hy', -, halike⟩ := Reader.rel_of_eq_some hrel hy
  obtain ⟨hyy', ht⟩ := halike hstop
  exact ⟨_, ⟨y', _, v'⟩, v', hline', Option.map_eq_some_iff.mpr ⟨_, hy', rfl⟩, hyy', ht⟩

/-- The first section of a text that went on. -/
theorem exists_read_of_append (he : IsSequel e) (hs : Extends e s s') (hne : skipLines s ≠ [])
    {u' t' : List Char} {x' : Located Section} (hline : nextLine s' = some u')
    (hx : (sectionReader kind).located.read u' = some (x', t'))
    (hstop : x'.value.holdsRules = true → startsRule kind (skipLines e) = false) :
    ∃ u x t, nextLine s = some u ∧ (sectionReader kind).located.read u = some (x, t) ∧
      x.value.Alike x'.value ∧ Extends e t t' := by
  obtain ⟨b, hb, rfl⟩ := hs
  rw [nextLine_append he.lineEnd hb hne] at hline
  obtain ⟨u, hu, rfl⟩ := Option.map_eq_some_iff.mp hline
  obtain ⟨⟨y', v'⟩, hy', heq⟩ := Option.map_eq_some_iff.mp hx
  obtain ⟨rfl, rfl⟩ := Prod.mk.inj heq
  have hrel := rel_sectionReader kind he ⟨b, hb, rfl⟩ (s := u)
  cases hy : (sectionReader kind).read u with
  | none => rw [Reader.rel_of_eq_none hrel hy] at hy'; cases hy'
  | some p =>
    obtain ⟨p', hp', hholds, halike⟩ := Reader.rel_of_eq_some hrel hy
    obtain rfl := Option.some.inj (hp'.symm.trans hy')
    obtain ⟨hyy', ht⟩ := halike fun h => hstop (hholds ▸ h)
    exact ⟨u, ⟨p.1, u, p.2⟩, p.2, hu, Option.map_eq_some_iff.mpr ⟨p, hy, rfl⟩, hyy', ht⟩

/-- Sections in front of further sections. -/
theorem Sections.append (h : Sections kind s l) (he : IsSequel e) (hs : Extends e s s')
    (hstop : ∀ x ∈ l, x.value.holdsRules = true → startsRule kind (skipLines e) = false)
    (hl' : Sections kind e l') : ∃ l₂, Sections kind s' (l₂ ++ l') ∧ AllAlike l l₂ := by
  induction h generalizing s' with
  | @done s hnil =>
    refine ⟨[], ?_, .nil⟩
    obtain ⟨b, hb, rfl⟩ := hs
    cases hl' with
    | done hnil' => exact .done (by rw [skipLines_append he.lineEnd hb, if_pos hnil, hnil'])
    | next hline hx hrest =>
      exact .next (nextLine_append_of_nil he.lineEnd hb hnil hline) hx hrest
  | next hline hx _ ih =>
    obtain ⟨hx_stop, hl_stop⟩ := List.forall_mem_cons.mp hstop
    obtain ⟨u', x', t', hline', hx', halike, ht⟩ := exists_read_append he hs hline hx hx_stop
    obtain ⟨l₂, hl₂, hall⟩ := ih ht hl_stop
    exact ⟨x' :: l₂, .next hline' hx' hl₂, .cons halike hall⟩

/-- Sections in front of lines with nothing on them. -/
theorem Sections.of_append (h : Sections kind s' l') (he : IsLineEnd e) (hnil : skipLines e = [])
    (hs : Extends e s s') : ∃ l, Sections kind s l ∧ AllAlike l l' := by
  have hsequel := isSequel_of_skipLines he hnil
  induction h generalizing s with
  | done hend =>
    refine ⟨[], .done ?_, .nil⟩
    obtain ⟨b, hb, rfl⟩ := hs
    rw [skipLines_append he hb] at hend
    by_contra hne
    rw [if_neg hne] at hend
    exact hne (List.append_eq_nil_iff.mp hend).1
  | next hline hx _ ih =>
    have hne : skipLines s ≠ [] := by
      intro hempty
      obtain ⟨b, hb, rfl⟩ := hs
      refine skipLines_ne_nil_of_next hline hx ?_
      rw [skipLines_append he hb, if_pos hempty, hnil]
    obtain ⟨u, x, t, hu, hx, halike, ht⟩ :=
      exists_read_of_append hsequel hs hne hline hx fun _ => by rw [hnil, startsRule_nil]
    obtain ⟨l, hl, hall⟩ := ih ht
    exact ⟨x :: l, .next hu hx hl, .cons halike hall⟩

/-! ## Cutting a text into its sections -/

/-- The section that a text holds, if it holds just one. -/
def soleSection? (kind : Kind) (piece : List Char) : Option Section :=
  match (sectionsReader kind).read piece with
  | some ([x], _) => some x.value
  | _ => none

/-- Each piece is a section, and a piece behind rules does not start like one of them. -/
structure IsCut (kind : Kind) (pieces : List (List Char)) : Prop where
  isSome : ∀ q ∈ pieces, (soleSection? kind q).isSome = true
  apart : pieces.IsChain fun q q' =>
    (soleSection? kind q).any Section.holdsRules = true → startsRule kind (skipLines q') = false

theorem soleSection?_eq_some_iff {q : List Char} {y : Section} :
    soleSection? kind q = some y ↔ ∃ x, x.value = y ∧ Sections kind ('\n' :: q) [x] := by
  rw [soleSection?]
  constructor
  · intro h
    split at h
    · next x u hread =>
      exact ⟨x, Option.some.inj h, (read_iff_sections.mp ⟨u, hread⟩).2⟩
    · cases h
  · rintro ⟨x, rfl, hx⟩
    obtain ⟨u, hread⟩ := read_iff_sections.mpr ⟨List.cons_ne_nil _ _, hx⟩
    rw [hread]

theorem hasHeading_of_soleSection? {q : List Char} (h : (soleSection? kind q).isSome = true) :
    HasHeading (skipLines q) := by
  obtain ⟨y, hy⟩ := Option.isSome_iff_exists.mp h
  obtain ⟨x, -, hx⟩ := soleSection?_eq_some_iff.mp hy
  cases hx with
  | next hline hread _ =>
    rw [nextLine_newline] at hline
    obtain rfl := Option.some.inj hline
    obtain ⟨p, hp, -⟩ := Option.map_eq_some_iff.mp hread
    exact hasHeading_of_read_sectionReader hp

theorem startsWithKeyword_of_soleSection? {q : List Char}
    (h : (soleSection? kind q).isSome = true) : StartsWithKeyword (skipLines q) :=
  (hasHeading_of_soleSection? h).startsWithKeyword

theorem StartsWithKeyword.ne_nil (h : StartsWithKeyword s) : s ≠ [] := by
  rintro rfl
  obtain ⟨k, hk, hprefix⟩ := h
  have hne : ∀ k ∈ sectionKeywords, k.toList ≠ [] := by decide
  exact hne k hk (List.prefix_nil.mp hprefix)

/-- No quote stands where lines start of which the first one with something on it is a heading. -/
theorem head?_ne_quote (h : StartsWithKeyword (skipLines s)) : s.head? ≠ some '\'' := by
  intro hquote
  obtain ⟨t, rfl⟩ := List.head?_eq_some_iff.mp hquote
  rw [(skip_eq_self (by rintro _ ⟨⟩; decide)).2] at h
  exact (no_rule_of_startsWithKeyword h).2.2 rfl

theorem isSequel_of_heading (h : StartsWithKeyword (skipLines s)) : IsSequel ('\n' :: s) :=
  have hrule := no_rule_of_startsWithKeyword h
  ⟨.inr ⟨s, rfl, head?_ne_quote h⟩, hrule.1, hrule.2.1⟩

/-- The text of the pieces, each of them behind the end of a line. -/
def lined (pieces : List (List Char)) : List Char := pieces.flatMap ('\n' :: ·)

theorem lined_cons (q : List Char) (pieces : List (List Char)) :
    lined (q :: pieces) = '\n' :: (q ++ lined pieces) := by
  simp [lined]

theorem lined_eq {pieces : List (List Char)} (h : pieces ≠ []) :
    lined pieces = '\n' :: joined pieces := by
  induction pieces with
  | nil => exact absurd rfl h
  | cons q pieces ih =>
    rw [lined_cons]
    cases pieces with
    | nil => simp [lined, joined]
    | cons q' pieces =>
      rw [ih (List.cons_ne_nil _ _), joined, joined, List.intercalate_cons_cons]
      simp

theorem IsCut.tail {q : List Char} {pieces : List (List Char)} (h : IsCut kind (q :: pieces)) :
    IsCut kind pieces :=
  ⟨(List.forall_mem_cons.mp h.isSome).2, h.apart.of_cons⟩

theorem IsCut.isLineEnd {pieces : List (List Char)} (h : IsCut kind pieces) :
    IsLineEnd (lined pieces) := by
  cases pieces with
  | nil => exact .inl rfl
  | cons q pieces =>
    have hq := startsWithKeyword_of_soleSection? (List.forall_mem_cons.mp h.isSome).1
    refine .inr ⟨q ++ lined pieces, lined_cons q pieces, ?_⟩
    have hne : q ≠ [] := fun hnil => hq.ne_nil (by rw [hnil]; rfl)
    rw [List.head?_append_of_ne_nil _ hne]
    exact head?_ne_quote hq

theorem IsCut.skipLines_lined {q : List Char} {pieces : List (List Char)}
    (h : IsCut kind (q :: pieces)) :
    skipLines (lined (q :: pieces)) = skipLines q ++ lined pieces := by
  have hq := startsWithKeyword_of_soleSection? (List.forall_mem_cons.mp h.isSome).1
  have happend := skipLines_append h.tail.isLineEnd (b := []) (by simp) q
  rw [if_neg hq.ne_nil, List.nil_append] at happend
  rw [lined_cons, ← happend]
  rfl

theorem IsCut.isSequel {pieces : List (List Char)} (h : IsCut kind pieces) :
    IsSequel (lined pieces) := by
  cases pieces with
  | nil => exact isSequel_of_skipLines (.inl rfl) rfl
  | cons q pieces =>
    have hq := startsWithKeyword_of_soleSection? (List.forall_mem_cons.mp h.isSome).1
    obtain ⟨k, hk, hprefix⟩ := hq
    have hrule := no_rule_of_startsWithKeyword
      ⟨k, hk, hprefix.trans (List.prefix_append _ (lined pieces))⟩
    rw [← h.skipLines_lined] at hrule
    exact ⟨h.isLineEnd, hrule.1, hrule.2.1⟩

/-- The rules of a piece end where the next piece starts. -/
theorem IsCut.not_startsRule {q : List Char} {pieces : List (List Char)} {y : Section}
    (h : IsCut kind (q :: pieces)) (hy : soleSection? kind q = some y)
    (hrules : y.holdsRules = true) : startsRule kind (skipLines (lined pieces)) = false := by
  cases pieces with
  | nil => exact startsRule_nil kind
  | cons q' pieces =>
    rw [h.tail.skipLines_lined, startsRule_append kind h.tail.tail.isSequel (extends_append _ _)]
    exact (List.isChain_cons_cons.mp h.apart).1 (by rw [hy, Option.any_some, hrules])

/-! ## White space around a text -/

/-- All white space of the text is blanks, tabs and line feeds. -/
def PlainlySpaced (text : List Char) : Prop :=
  ∀ c ∈ text, Text.isBlank c = true → c = ' ' ∨ c = '\t' ∨ c = '\n'

instance (text : List Char) : Decidable (PlainlySpaced text) :=
  List.decidableBAll _ text

theorem plainlySpaced_append_iff {s t : List Char} :
    PlainlySpaced (s ++ t) ↔ PlainlySpaced s ∧ PlainlySpaced t :=
  List.forall_mem_append

theorem plainlySpaced_joined_iff {pieces : List (List Char)} :
    PlainlySpaced (joined pieces) ↔ ∀ q ∈ pieces, PlainlySpaced q := by
  induction pieces with
  | nil => simp [joined, PlainlySpaced]
  | cons q pieces ih =>
    cases pieces with
    | nil => simp [joined]
    | cons q' pieces =>
      have hline : PlainlySpaced ['\n'] := by
        intro c hc _
        exact .inr (.inr (List.mem_singleton.mp hc))
      rw [List.forall_mem_cons, ← ih, joined, joined, List.intercalate_cons_cons,
        plainlySpaced_append_iff, plainlySpaced_append_iff]
      exact ⟨fun h => ⟨h.1.1, h.2⟩, fun h => ⟨⟨h.1, hline⟩, h.2⟩⟩

theorem skipLines_of_plain {a : List Char} (ha : ∀ c ∈ a, c = ' ' ∨ c = '\t' ∨ c = '\n')
    (s : List Char) : skipLines (a ++ s) = skipLines s := by
  refine skipLines_append_of_blank (fun c hc => ?_) s
  rcases ha c hc with rfl | rfl | rfl
  · exact .inl rfl
  · exact .inl rfl
  · exact .inr rfl

theorem exists_trim_append (text : List Char) :
    ∃ a e, text = a ++ (Text.trim text ++ e) ∧ (∀ c ∈ a, Text.isBlank c = true) ∧
      ∀ c ∈ e, Text.isBlank c = true := by
  refine ⟨text.takeWhile Text.isBlank,
    ((Text.trimStart text).reverse.takeWhile Text.isBlank).reverse, ?_, fun c hc => ?_,
    fun c hc => ?_⟩
  · rw [Text.trim, Text.trimEnd, ← List.reverse_append, List.takeWhile_append_dropWhile,
      List.reverse_reverse, Text.trimStart, List.takeWhile_append_dropWhile]
  · exact List.mem_takeWhile_imp hc
  · exact List.mem_takeWhile_imp (List.mem_reverse.mp hc)

/-- The text goes on behind its trimmed form with lines that have nothing on them. -/
theorem exists_extends_trim {text : List Char} (h : PlainlySpaced text) :
    ∃ a e, IsLineEnd e ∧ skipLines e = [] ∧
      Extends e ('\n' :: Text.trim text) ('\n' :: a) ∧ skipLines a = skipLines text := by
  obtain ⟨a, e, htext, ha, he⟩ := exists_trim_append text
  have hplain : ∀ c ∈ a ++ e, c = ' ' ∨ c = '\t' ∨ c = '\n' := by
    intro c hc
    rcases List.mem_append.mp hc with hc | hc
    · exact h c (by rw [htext]; simp [hc]) (ha c hc)
    · exact h c (by rw [htext]; simp [hc]) (he c hc)
  obtain ⟨ha', he'⟩ := List.forall_mem_append.mp hplain
  have hrest : ∀ c ∈ e.dropWhile isSpace, c = ' ' ∨ c = '\t' ∨ c = '\n' :=
    fun c hc => he' c ((List.dropWhile_suffix _).subset hc)
  refine ⟨Text.trim text ++ e, e.dropWhile isSpace, ?_, ?_, ⟨e.takeWhile isSpace, ?_, ?_⟩, ?_⟩
  · cases hk : e.dropWhile isSpace with
    | nil => exact .inl rfl
    | cons c k =>
      have hc : isSpace c = false := head?_dropWhile_eq_false c (by rw [hk]; rfl)
      rw [hk] at hrest
      obtain ⟨hc', hk'⟩ := List.forall_mem_cons.mp hrest
      refine .inr ⟨k, ?_, fun hquote => ?_⟩
      · rcases hc' with rfl | rfl | rfl
        · cases hc
        · cases hc
        · rfl
      · rcases hk' '\'' (List.mem_of_mem_head? hquote) with h | h | h <;> cases h
  · have hskip := skipLines_of_plain hrest []
    rwa [List.append_nil] at hskip
  · exact fun c hc => List.mem_takeWhile_imp hc
  · rw [List.takeWhile_append_dropWhile]
    rfl
  · conv_rhs => rw [htext, skipLines_of_plain ha']

theorem Sections.congr {s s' : List Char} (h : Sections kind ('\n' :: s) l)
    (hs : skipLines s = skipLines s') : Sections kind ('\n' :: s') l := by
  cases h with
  | done hnil => exact .done (hs ▸ hnil)
  | next hline hx hrest =>
    rw [nextLine_newline] at hline
    obtain rfl := Option.some.inj hline
    exact .next (hs ▸ nextLine_newline s') hx hrest

theorem Sections.trim {text : List Char} (h : Sections kind ('\n' :: text) l)
    (htext : PlainlySpaced text) :
    ∃ l', Sections kind ('\n' :: Text.trim text) l' ∧ AllAlike l' l := by
  obtain ⟨a, e, he, hnil, hs, ha⟩ := exists_extends_trim htext
  exact (h.congr ha.symm).of_append he hnil hs

theorem Sections.of_trim {text : List Char} (h : Sections kind ('\n' :: Text.trim text) l)
    (htext : PlainlySpaced text) : ∃ l', Sections kind ('\n' :: text) l' ∧ AllAlike l l' := by
  obtain ⟨a, e, he, hnil, hs, ha⟩ := exists_extends_trim htext
  obtain ⟨l₂, hl₂, hall⟩ := h.append (isSequel_of_skipLines he hnil) hs
    (fun _ _ _ => by rw [hnil, startsRule_nil]) (.done hnil)
  rw [List.append_nil] at hl₂
  exact ⟨l₂, hl₂.congr ha, hall⟩

/-! ## The sections of the pieces -/

/-- The sections of the pieces. -/
def pieceSections (kind : Kind) (pieces : List (List Char)) : List Section :=
  pieces.filterMap (soleSection? kind)

/-- The sections of the text are those of the pieces. -/
theorem IsCut.exists_sections {pieces : List (List Char)} (h : IsCut kind pieces) :
    ∃ l, Sections kind (lined pieces) l ∧ Resemble (pieceSections kind pieces) l := by
  induction pieces with
  | nil => exact ⟨[], .done rfl, .nil⟩
  | cons q pieces ih =>
    obtain ⟨l, hl, hall⟩ := ih h.tail
    obtain ⟨y, hy⟩ := Option.isSome_iff_exists.mp (List.forall_mem_cons.mp h.isSome).1
    obtain ⟨x, rfl, hx⟩ := soleSection?_eq_some_iff.mp hy
    have hstop : ∀ z ∈ [x], z.value.holdsRules = true →
        startsRule kind (skipLines (lined pieces)) = false := by
      intro z hz hrules
      rw [List.mem_singleton.mp hz] at hrules
      exact h.not_startsRule hy hrules
    obtain ⟨l₂, hl₂, halike⟩ := hx.append h.tail.isSequel (extends_append _ _) hstop hl
    cases halike with
    | cons hxx' hnil =>
      cases hnil
      rw [List.cons_append, ← lined_cons] at hl₂
      refine ⟨_, hl₂, ?_⟩
      rw [pieceSections, List.filterMap_cons_some hy]
      exact .cons hxx' hall

theorem Resemble.trans_alike {ys : List Section} (h : Resemble ys l) (hl : AllAlike l' l) :
    Resemble ys l' := by
  induction h generalizing l' with
  | nil =>
    cases hl
    exact .nil
  | cons hyx _ ih =>
    cases hl with
    | cons hxx' hrest => exact .cons (hyx.trans hxx'.symm) (ih hrest)

/-- The text of the pieces is read as their sections. -/
theorem IsCut.exists_read {pieces : List (List Char)} (h : IsCut kind pieces) (hne : pieces ≠ [])
    (htext : PlainlySpaced (joined pieces)) :
    ∃ l u, (sectionsReader kind).read (Text.trim (joined pieces)) = some (l, u) ∧
      Resemble (pieceSections kind pieces) l := by
  obtain ⟨l, hl, hpieces⟩ := h.exists_sections
  rw [lined_eq hne] at hl
  obtain ⟨l', hl', halike⟩ := hl.trim htext
  have hne' : l' ≠ [] := by
    rintro rfl
    cases halike
    cases hl with
    | done hnil =>
      obtain ⟨q, pieces, rfl⟩ := List.exists_cons_of_ne_nil hne
      have hq := startsWithKeyword_of_soleSection? (List.forall_mem_cons.mp h.isSome).1
      rw [← lined_eq hne, h.skipLines_lined] at hnil
      exact hq.ne_nil (List.append_eq_nil_iff.mp hnil).1
  obtain ⟨u, hread⟩ := read_iff_sections.mpr ⟨hne', hl'⟩
  exact ⟨l', u, hread, hpieces.trans_alike halike⟩

theorem Resemble.exists_of_mem {ys : List Section} (h : Resemble ys l) :
    (∀ y ∈ ys, ∃ x ∈ l, y.Alike x.value) ∧ ∀ x ∈ l, ∃ y ∈ ys, y.Alike x.value := by
  induction h with
  | nil => exact ⟨nofun, nofun⟩
  | @cons y x ys l hyx _ ih =>
    simp only [List.forall_mem_cons, List.exists_mem_cons_iff]
    exact ⟨⟨.inl hyx, fun y hy => .inr (ih.1 y hy)⟩, .inl hyx, fun x hx => .inr (ih.2 x hx)⟩

theorem Resemble.keywords_eq {ys : List Section} (h : Resemble ys l) :
    keywords l = ys.map Section.keyword := by
  induction h with
  | nil => rfl
  | cons hyx _ ih => rw [keywords, List.map_cons, List.map_cons, ← keywords, ih, hyx.keyword_eq]

/-- Texts of the same pieces hold the same sections. -/
theorem rearranged_of_perm {ys ys' : List Section} (hperm : ys.Perm ys')
    (h : Resemble ys l) (h' : Resemble ys' l') (hnodup : (keywords l).Nodup) :
    Rearranged l l' := by
  refine ⟨hnodup, ?_, fun s hs => ?_, fun s' hs' => ?_⟩
  · rw [h'.keywords_eq]
    rw [h.keywords_eq] at hnodup
    exact (hperm.map _).nodup_iff.mp hnodup
  · obtain ⟨y, hy, hys⟩ := h.exists_of_mem.2 s hs
    obtain ⟨s', hs', hys'⟩ := h'.exists_of_mem.1 y (hperm.mem_iff.mp hy)
    exact ⟨s', hs', hys.symm.trans hys'⟩
  · obtain ⟨y, hy, hys'⟩ := h'.exists_of_mem.2 s' hs'
    obtain ⟨s, hs, hys⟩ := h.exists_of_mem.1 y (hperm.mem_iff.mpr hy)
    exact ⟨s, hs, hys.symm.trans hys'⟩

/-- The pieces of a text can be put together in another order. -/
theorem IsCut.parse_eq_ok {pieces pieces' : List (List Char)} {d : Definition}
    (h : IsCut kind pieces) (h' : IsCut kind pieces') (hperm : pieces.Perm pieces')
    (htext : PlainlySpaced (joined pieces)) (hok : parse kind (joined pieces) = .ok d) :
    parse kind (joined pieces') = .ok d := by
  by_cases hne : pieces = []
  · rw [hne] at hok hperm
    rwa [hperm.nil_eq] at hok
  have hne' : pieces' ≠ [] := fun hnil => hne (hnil ▸ hperm).eq_nil
  have htext' : PlainlySpaced (joined pieces') := by
    rw [plainlySpaced_joined_iff] at htext ⊢
    exact fun q hq => htext q (hperm.mem_iff.mpr hq)
  obtain ⟨l₀, u₀, hread₀, hnodup, hassembled⟩ := parse_eq_ok_iff.mp hok
  obtain ⟨l, u, hread, hpieces⟩ := h.exists_read hne htext
  obtain ⟨l', u', hread', hpieces'⟩ := h'.exists_read hne' htext'
  obtain ⟨rfl, -⟩ := Prod.mk.inj (Option.some.inj (hread.symm.trans hread₀))
  have hrearranged := rearranged_of_perm (hperm.filterMap _) hpieces hpieces' hnodup
  refine parse_eq_ok_iff.mpr ⟨l', u', hread', hrearranged.nodup', ?_⟩
  rw [← hrearranged.assembled_eq, hassembled]

/-! ## Every text can be cut -/

/-- The line of a section ends with a line feed if another section follows. -/
theorem exists_line_feed {t u : List Char} (ht : PlainlySpaced t) (hline : nextLine t = some u) :
    ∃ k, skipBlanks t = '\n' :: k ∧ skipLines k = u := by
  obtain ⟨k, hk, rfl⟩ := Option.map_eq_some_iff.mp hline
  have hreturn : ∀ v, skipBlanks t ≠ '\r' :: v := by
    intro v hv
    have hmem : '\r' ∈ t := (skipBlanks_suffix t).subset (by simp [hv])
    rcases ht '\r' hmem rfl with h | h | h <;> cases h
  rcases newline_eq_some hk with h | h | h
  · exact ⟨k, h, rfl⟩
  · exact absurd h (hreturn _)
  · exact absurd h (hreturn _)

/-- Where the second section starts, the text can be cut. -/
theorem Sections.exists_cut {x y : Located Section} (h : Sections kind ('\n' :: s) (x :: y :: l))
    (hs : PlainlySpaced s) :
    ∃ q k z, s = q ++ '\n' :: k ∧ Sections kind ('\n' :: k) (y :: l) ∧
      soleSection? kind q = some z ∧
        (z.holdsRules = true → startsRule kind (skipLines k) = false) := by
  cases h with
  | @next _ t _ _ _ hline hx hrest =>
  cases hrest with
  | @next _ _ u _ _ hline' hy hrest =>
  have hfirst : nextLine ('\n' :: s) = some (skipLines s) := nextLine_newline s
  obtain rfl := Option.some.inj (hline.symm.trans hfirst)
  have hshrinks := (shrinks_sectionReader kind).located
  have htext : t <:+ s := (hshrinks _ _ _ hx).1.trans (skipLines_suffix s)
  obtain ⟨k, hfeed, rfl⟩ := exists_line_feed (fun c hc => hs c (htext.subset hc)) hline'
  have hkt : '\n' :: k <:+ t := hfeed ▸ skipBlanks_suffix t
  obtain ⟨q, rfl⟩ := hkt.trans htext
  obtain ⟨p, hp, hpx⟩ := Option.map_eq_some_iff.mp hx
  obtain ⟨p', hp', -⟩ := Option.map_eq_some_iff.mp hy
  have hsequel := isSequel_of_heading (hasHeading_of_read_sectionReader hp').startsWithKeyword
  have hstop : x.value.holdsRules = true → startsRule kind (skipLines k) = false := by
    obtain ⟨rfl, rfl⟩ := Prod.mk.inj hpx
    exact fun hrules => not_startsRule_of_read hp hrules hline'
  have hne : skipLines ('\n' :: q) ≠ [] := by
    intro hnil
    have hskip := skipLines_append hsequel.lineEnd (b := []) (by simp) ('\n' :: q)
    rw [if_pos hnil, List.nil_append] at hskip
    have hself : skipLines (q ++ '\n' :: k) = skipLines k := hskip
    rw [hself] at hx
    -- the first section would stand behind its own end
    have hlt := (hshrinks _ _ _ hx).2
    have hle := (skipLines_suffix k).length_le
    have hle' := hkt.length_le
    rw [List.length_cons] at hle'
    omega
  obtain ⟨u, x', t', hu, hx', halike, b, hb, rfl⟩ :=
    exists_read_of_append hsequel (extends_append _ ('\n' :: q)) hne hline hx hstop
  have hblank : skipBlanks t' = [] := by
    rw [skipBlanks_append hsequel.lineEnd hb] at hfeed
    by_contra hne'
    rw [if_neg hne'] at hfeed
    have hlength := congrArg List.length hfeed
    have hpos := List.length_pos_iff.mpr hne'
    simp only [List.length_append, List.length_cons] at hlength
    omega
  have hend : skipLines t' = [] := by rw [← skipLines_skipBlanks, hblank]; rfl
  refine ⟨q, k, x'.value, rfl, .next (nextLine_newline k) hy hrest,
    soleSection?_eq_some_iff.mpr ⟨x', rfl, .next hu hx' (.done hend)⟩, ?_⟩
  exact fun hrules => hstop (halike.holdsRules_eq ▸ hrules)

theorem Sections.exists_isCut {x : Located Section} (h : Sections kind ('\n' :: s) (x :: l))
    (hs : PlainlySpaced s) : ∃ pieces, IsCut kind pieces ∧ lined pieces = '\n' :: s := by
  induction l generalizing s x with
  | nil =>
    refine ⟨[s], ⟨fun q hq => ?_, .singleton _⟩, by simp [lined]⟩
    rw [List.mem_singleton.mp hq, soleSection?_eq_some_iff.mpr ⟨x, rfl, h⟩]
    rfl
  | cons y l ih =>
    obtain ⟨q, k, z, rfl, hk, hz, hstop⟩ := h.exists_cut hs
    obtain ⟨pieces, hcut, hlined⟩ := ih hk fun c hc => hs c (by simp [hc])
    refine ⟨q :: pieces, ⟨?_, ?_⟩, by rw [lined_cons, hlined]⟩
    · exact List.forall_mem_cons.mpr ⟨by rw [hz]; rfl, hcut.isSome⟩
    · cases pieces with
      | nil => exact .singleton _
      | cons q' pieces =>
        refine List.isChain_cons_cons.mpr ⟨fun hrules => ?_, hcut.apart⟩
        rw [hz, Option.any_some] at hrules
        have hk' := hcut.skipLines_lined
        rw [hlined] at hk'
        have hstarts := startsRule_append kind hcut.tail.isSequel
          (extends_append (lined pieces) (skipLines q'))
        rw [← hstarts, ← hk']
        exact hstop hrules

/-- A text can be cut into its sections. -/
theorem exists_isCut {text : List Char} {d : Definition} (hok : parse kind text = .ok d)
    (htext : PlainlySpaced text) : ∃ pieces, IsCut kind pieces ∧ joined pieces = text := by
  obtain ⟨l, u, hread, -⟩ := parse_eq_ok_iff.mp hok
  obtain ⟨hne, hl⟩ := read_iff_sections.mp ⟨u, hread⟩
  obtain ⟨l', hl', halike⟩ := hl.of_trim htext
  cases halike with
  | nil => exact absurd rfl hne
  | cons =>
    obtain ⟨pieces, hcut, hlined⟩ := hl'.exists_isCut htext
    have hpieces : pieces ≠ [] := by
      rintro rfl
      cases hlined
    rw [lined_eq hpieces] at hlined
    exact ⟨pieces, hcut, (List.cons.inj hlined).2⟩

end

/-! ## The order of sections -/

/-- Pieces whose headings have the colon right behind the keyword may stand in any order; in a
grammar all pieces may. -/
theorem isCut_of_colon {kind : Kind} {pieces : List (List Char)}
    (hsome : ∀ q ∈ pieces, (soleSection? kind q).isSome = true)
    (hcolon : ∀ q ∈ pieces, kind = .grammar ∨
      ∃ k ∈ kindKeywords kind, k.toList ++ [':'] <+: skipLines q) : IsCut kind pieces := by
  refine ⟨hsome, ?_⟩
  have hstarts : ∀ q ∈ pieces, startsRule kind (skipLines q) = false := by
    intro q hq
    rcases hcolon q hq with rfl | ⟨k, hk, rest, hrest⟩
    · exact startsRule_grammar_of_hasHeading (hasHeading_of_soleSection? (hsome q hq))
    · rw [← hrest, List.append_assoc]
      exact startsRule_of_colon hk rest
  clear hsome hcolon
  induction pieces with
  | nil => exact .nil
  | cons q pieces ih =>
    obtain ⟨-, hpieces⟩ := List.forall_mem_cons.mp hstarts
    cases pieces with
    | nil => exact .singleton q
    | cons q' pieces =>
      exact List.isChain_cons_cons.mpr ⟨fun _ => hpieces q' List.mem_cons_self, ih hpieces⟩

/-- The order of the sections does not matter. A text can be cut into its sections; and however the
pieces are put together, the text describes the same, if no heading behind the rules is itself read
as one of them. -/
theorem parse_reordered {kind : Kind} {text : List Char} {d : Definition}
    (htext : PlainlySpaced text) (hok : parse kind text = .ok d) :
    (∃ pieces, IsCut kind pieces ∧ joined pieces = text) ∧
      ∀ pieces pieces', IsCut kind pieces → joined pieces = text → pieces.Perm pieces' →
        IsCut kind pieces' → parse kind (joined pieces') = .ok d := by
  refine ⟨exists_isCut hok htext, fun pieces pieces' h hjoined hperm h' => ?_⟩
  subst hjoined
  exact h.parse_eq_ok h' hperm htext hok

/-- The sections of a machine; there is a blank before one of the colons. -/
def swapSections : List (List Char) :=
  ["name: swap".toList, "accepting : q".toList, "rules:\n  p:\n    a -> b, R, q".toList,
    "checks: [a]".toList]

/-- What the sections describe in any order in which the heading with the blank is not right behind
the rules. -/
def swap : Definition where
  name := "swap"
  checks := [['a']]
  automaton := .machine
    { initial := "p", final := "q", blank := defaultBlank, tapeCount := 1,
      table := ⟨[("p", { read := ['a'], write := ['b'], directions := [.right], next := "q" })]⟩ }

/-- The rules are moved to the front, in front of the name, and the checks behind them. -/
theorem swap_reordered :
    PlainlySpaced (joined swapSections) ∧ parse .machine (joined swapSections) = .ok swap ∧
      IsCut .machine swapSections ∧
      parse .machine
        "rules:\n  p:\n    a -> b, R, q\nchecks: [a]\naccepting : q\nname: swap".toList =
          .ok swap := by
  have htext : PlainlySpaced (joined swapSections) := by decide
  have hok : parse .machine (joined swapSections) = .ok swap := rfl
  have hcut : IsCut .machine swapSections := ⟨by decide, by decide⟩
  refine ⟨htext, hok, hcut, ?_⟩
  exact (parse_reordered htext hok).2 swapSections
    ["rules:\n  p:\n    a -> b, R, q".toList, "checks: [a]".toList, "accepting : q".toList,
      "name: swap".toList] hcut rfl (by decide) ⟨by decide, by decide⟩

/-- A heading with a blank before its colon is taken for a state if it is moved behind the rules. -/
theorem heading_taken_for_state :
    PlainlySpaced (joined swapSections) ∧ parse .machine (joined swapSections) = .ok swap ∧
      IsCut .machine swapSections ∧
      ¬∃ d, parse .machine
        "name: swap\nrules:\n  p:\n    a -> b, R, q\naccepting : q\nchecks: [a]".toList =
          .ok d := by
  refine ⟨by decide, rfl, ⟨by decide, by decide⟩, ?_⟩
  rintro ⟨d, hd⟩
  cases hd

end Acceptors.Description
