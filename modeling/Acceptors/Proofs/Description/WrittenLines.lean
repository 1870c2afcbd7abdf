import Acceptors.Proofs.Description.ReadBack
import Acceptors.Proofs.Description.Reordering

/-!
# Written lines

A description that is written down has a line for its name, a line for each section of a single
value, and its rules in lines below their heading. What is read of a line does not depend on the
lines below it, so the text is read as the sections that its lines stand for, in their order.

## Main definitions

* `IsName`: the names that can be written on a line
* `EndsVisibly`: a line does not end with white space

## Main results

* `exists_reads_lined`: lines are read back
* `readsBack_field`, `readsBack_name`: a heading with its value is a section
* `exists_read_written`: what is read of a written description
* `parseWith_of_read`: what is made of the sections
-/

namespace Acceptors.Description

open Written (Line joined)

/-! ## Names -/

/-- A name that can be written on a line of its own: there is no white space around it, and no
comment starts in it. -/
structure IsName (n : Line) : Prop where
  ne_nil : n ≠ []
  trim_eq : Text.trim n = n
  single_line : ∀ c ∈ n, isNewline c = false
  no_comment : ¬['/', '/'] <:+: n

section

variable {n u : List Char}

theorem commentAhead_append_eq_false (h : ¬['/', '/'] <:+: n) (hu : EndsLine u) :
    commentAhead (n ++ u) = false := by
  rw [Bool.eq_false_iff]
  intro hcomment
  obtain ⟨t, ht⟩ := commentAhead_eq_true hcomment
  match n with
  -- behind the name the line ends, so both slashes stand in the name
  | [] => rcases hu with rfl | ⟨k, rfl⟩ <;> cases ht
  | [c] => rcases hu with rfl | ⟨k, rfl⟩ <;> cases ht
  | c :: d :: n =>
    obtain ⟨rfl, hd⟩ := List.cons.inj ht
    obtain ⟨rfl, -⟩ := List.cons.inj hd
    exact h ⟨[], n, rfl⟩

theorem takeUntil_line (hline : ∀ c ∈ n, isNewline c = false) (h : ¬['/', '/'] <:+: n)
    (hu : EndsLine u) : takeUntil (Token.stopsAt []) (n ++ u) = (n, u) := by
  induction n with
  | nil =>
    refine Token.takeUntil_of_stop fun hne => ?_
    rcases hu with rfl | ⟨k, rfl⟩
    · exact absurd rfl hne
    · rfl
  | cons c n ih =>
    obtain ⟨hc, hn⟩ := List.forall_mem_cons.mp hline
    have hstop : Token.stopsAt [] (c :: (n ++ u)) = false := by
      rw [Token.stopsAt, hc, ← List.cons_append, commentAhead_append_eq_false h hu]
      rfl
    rw [List.cons_append, takeUntil, hstop, ih hn fun hinfix => h (List.infix_cons hinfix)]
    rfl

/-- A name is read back. -/
theorem IsName.readsBack (hn : IsName n) :
    (Reader.token .text Token.text).ReadsBack id EndsLine n n := by
  refine Reader.readsBack_id (fun u hu => ?_) fun u hu => Reader.reads_of_read ?_
  · obtain ⟨c, t, rfl⟩ := List.exists_cons_of_ne_nil hn.ne_nil
    have hspace : isSpace c = false := by
      have hblank := Text.head_of_trim_eq hn.trim_eq c rfl
      rw [Bool.eq_false_iff]
      intro hspace
      rw [isBlank_of_isSpace hspace] at hblank
      cases hblank
    have hline : isNewline c = false := hn.single_line c List.mem_cons_self
    have hcomment := commentAhead_append_eq_false hn.no_comment hu
    rw [List.cons_append, skipLines_cons, hspace, hline, ← List.cons_append, hcomment]
    rfl
  · rw [Reader.read_token, Token.text, Token.upTo_eq,
      takeUntil_line hn.single_line hn.no_comment hu, if_neg hn.ne_nil]

end

/-! ## Lines -/

theorem endsLine_lined (lines : List Line) : EndsLine (lined lines) := by
  cases lines with
  | nil => exact .inl rfl
  | cons q lines => exact .inr ⟨_, lined_cons q lines⟩

@[simp] theorem lined_append (lines lines' : List Line) :
    lined (lines ++ lines') = lined lines ++ lined lines' := List.flatMap_append

section

variable {α β γ : Type} {r : Reader β} {f : β → γ} {g : α → γ} {q : α → List Char} {as : List α}
  {s u : List Char}

/-- Items that each start on a line of their own are read back. -/
theorem exists_reads_itemLines {follows : List Char → Prop} (hr : r.Shrinks)
    (h : ∀ a ∈ as, r.ReadsBack f follows (q a) (g a))
    (hfollows : ∀ a ∈ as, ∀ w, follows ('\n' :: (q a ++ w))) (hu : follows u)
    (hstop : (do Reader.newlines; r).read (skipBlanks u) = none)
    (hs : skipBlanks s = skipBlanks ((as.flatMap fun a => '\n' :: q a) ++ u)) :
    ∃ bs, (itemLines r).Reads s bs u ∧ bs.map f = as.map g := by
  refine Reader.exists_reads_many hr.newlines (fun a ha w hw => ?_) hfollows hu hstop hs
  obtain ⟨b, ⟨v, hread, hv⟩, hb⟩ := (h a ha).exists_reads w hw
  refine ⟨b, ⟨v, ?_, hv⟩, hb⟩
  rw [Reader.read_newlines_bind, List.cons_append, nextLine_newline, (h a ha).skipLines_eq w hw,
    Option.bind_some, hread]

/-- Lines are read back, up to a line that cannot be read. -/
theorem exists_reads_lined (hr : r.Shrinks) (h : ∀ a ∈ as, r.ReadsBack f EndsLine (q a) (g a))
    (hu : EndsLine u) (hstop : (do Reader.newlines; r).read u = none) :
    ∃ bs, (itemLines r).Reads (skipBlanks (lined (as.map q) ++ u)) bs u ∧
      bs.map f = as.map g := by
  have htext : lined (as.map q) = as.flatMap fun a => '\n' :: q a := by
    rw [lined, List.flatMap_map]
  rw [htext]
  exact exists_reads_itemLines hr h (fun a _ w => .inr ⟨_, rfl⟩) hu (hu.skipBlanks_eq.symm ▸ hstop)
    (skipBlanks_idem _)

theorem read_newlines_nil (r : Reader α) : (do Reader.newlines; r).read [] = none := rfl

end

/-! ## Headings -/

section

variable {α : Type} {r : Reader α} {kind : Kind}

theorem heading_append (keyword : String) (u : List Char) :
    Written.heading keyword ++ u = keyword.toList ++ ":".toList ++ u := rfl

/-- Behind a heading its value is read. -/
theorem read_sectionOf_heading (p : Phrase) (keyword : String) (r : Reader α) (s : List Char) :
    (sectionOf p keyword r).read (Written.heading keyword ++ s) = r.read (skipBlanks s) := by
  have hcolon : ∀ w, skipBlanks (":".toList ++ w) = ":".toList ++ w := fun _ => rfl
  simp only [read_sectionOf, heading_append, List.append_assoc, Reader.read_bind, read_lit_append,
    Option.bind_some, Reader.read_skip, hcolon]

/-- What is read by one of the readers, if those that are tried before it read nothing. -/
theorem read_of_before {s : List Char} {q : Section × List Char} {r : Reader Section}
    (l : List (Reader Section)) {l' : List (Reader Section)}
    (hreaders : sectionReaders kind = l ++ r :: l') (hbefore : ∀ r' ∈ l, r'.read s = none)
    (h : r.read s = some q) : (sectionReader kind).read s = some q := by
  rw [read_sectionReader, hreaders, List.findSome?_append, List.findSome?_eq_none_iff.mpr hbefore,
    List.findSome?_cons, h, Option.none_or]

theorem field_append (keyword : String) (v u : List Char) :
    Written.field keyword v ++ u = Written.heading keyword ++ ' ' :: (v ++ u) := by
  simp [Written.field]

/-- A heading with its value is a section, if no reader that is tried before reads the heading. -/
theorem readsBack_field {F : α → Section} {p : Phrase} {keyword : String} {v : Line} {a : α}
    (l : List (Reader Section)) {l' : List (Reader Section)}
    (hreaders : sectionReaders kind = l ++ (F <$> sectionOf p keyword r) :: l')
    (hbefore : ∀ u, ∀ r' ∈ l, r'.read (Written.heading keyword ++ u) = none)
    (hheading : ∀ u, skipLines (Written.heading keyword ++ u) = Written.heading keyword ++ u)
    (h : r.ReadsBack id EndsLine v a) :
    (sectionReader kind).ReadsBack id EndsLine (Written.field keyword v) (F a) := by
  refine Reader.readsBack_id (fun u _ => by rw [field_append, hheading]) fun u hu => ?_
  obtain ⟨w, hread, hw⟩ := h.reads hu
  refine ⟨w, ?_, hw⟩
  rw [field_append]
  refine read_of_before l hreaders (hbefore _) ?_
  rw [Reader.read_map, read_sectionOf_heading, skipBlanks_blank, h.skipBlanks_eq hu, hread]
  rfl

/-- In every kind of description the name is tried first. -/
theorem readsBack_name (kind : Kind) {n : Line} (hn : IsName n) :
    (sectionReader kind).ReadsBack id EndsLine (Written.field "name" n) (.name n) := by
  have hfirst : ∃ l', sectionReaders kind =
      [] ++ (Section.name <$> sectionOf .name "name" (.token .text Token.text)) :: l' := by
    cases kind <;> exact ⟨_, rfl⟩
  obtain ⟨l', hreaders⟩ := hfirst
  exact readsBack_field [] hreaders (fun _ => nofun) (fun _ => rfl) hn.readsBack

end

/-! ## Sections -/

section

variable {kind : Kind} {u : List Char}

/-- A section in front of further sections. -/
theorem exists_sections_cons {s : List Char} {x : Section} {ys : List Section}
    (hskip : skipLines s = s) (hread : (sectionReader kind).Reads s x u)
    (hys : ∃ l, Sections kind u l ∧ l.map Located.value = ys) :
    ∃ l, Sections kind ('\n' :: s) l ∧ l.map Located.value = x :: ys := by
  obtain ⟨l, hl, rfl⟩ := hys
  obtain ⟨v, hread, hv⟩ := hread
  have hlocated : (sectionReader kind).located.read (skipLines s) = some (⟨x, s, v⟩, v) := by
    rw [hskip, Reader.read_located, hread]
    rfl
  -- the further sections are read whether or not the blanks in front of them are left
  have hrest : Sections kind v l := follow_skipBlanks_iff.mp (hv ▸ follow_skipBlanks_iff.mpr hl)
  exact ⟨⟨x, s, v⟩ :: l, .next (nextLine_newline s) hlocated hrest, rfl⟩

/-- Lines that are read as sections, in front of further lines. -/
theorem exists_sections_append {lines : List Line} {xs ys : List Section}
    (h : List.Forall₂ ((sectionReader kind).ReadsBack id EndsLine) lines xs) (hu : EndsLine u)
    (hys : ∃ l, Sections kind u l ∧ l.map Located.value = ys) :
    ∃ l, Sections kind (lined lines ++ u) l ∧ l.map Located.value = xs ++ ys := by
  induction h with
  | nil => exact hys
  | @cons q x lines xs hq _ ih =>
    -- the line is read in front of all further lines, and leaves them as they are
    have hrest := (endsLine_lined lines).append hu
    rw [lined_cons, List.cons_append, List.append_assoc]
    exact exists_sections_cons (hq.skipLines_eq _ hrest) (hq.reads hrest) ih

/-! ## Texts -/

/-- The line ends with a character that is no white space. -/
def EndsVisibly (q : Line) : Prop := ∃ c, q.getLast? = some c ∧ Text.isBlank c = false

theorem EndsVisibly.append {q : Line} (hq : EndsVisibly q) (s : Line) : EndsVisibly (s ++ q) := by
  obtain ⟨c, hc, hblank⟩ := hq
  exact ⟨c, by rw [List.getLast?_append, hc, Option.some_or], hblank⟩

theorem endsVisibly_heading (keyword : String) : EndsVisibly (Written.heading keyword) :=
  EndsVisibly.append (q := [':']) ⟨':', rfl, rfl⟩ _

theorem endsVisibly_ident {l : String} (hl : IsIdent l) : EndsVisibly l.toList := by
  have hne := hl.toList_ne_nil
  refine ⟨l.toList.getLast hne, List.getLast?_eq_some_getLast hne, ?_⟩
  exact Token.not_isBlank_of_isIdentChar (hl.2 _ (List.getLast_mem hne))

theorem endsVisibly_lined {q : Line} {lines : List Line} (h : ∀ q' ∈ q :: lines, EndsVisibly q') :
    EndsVisibly (lined (q :: lines)) := by
  induction lines generalizing q with
  | nil =>
    rw [lined_cons]
    simpa [lined] using (h q List.mem_cons_self).append ['\n']
  | cons q' lines ih =>
    rw [lined_cons, ← List.cons_append]
    exact (ih (List.forall_mem_cons.mp h).2).append _

/-- A text that starts with a name and whose rules end visibly is what is left when white space
behind it is trimmed. -/
theorem trim_written {front rules : List Line} {n : Line} {keyword : String} {tail : List Char}
    (hrules : ∀ q ∈ rules, EndsVisibly q) (htail : ∀ c ∈ tail, Text.isBlank c = true) :
    Text.trim
        (joined (Written.field "name" n :: (front ++ Written.heading keyword :: rules)) ++ tail) =
      joined (Written.field "name" n :: (front ++ Written.heading keyword :: rules)) := by
  have hends : EndsVisibly
      (lined (Written.field "name" n :: (front ++ Written.heading keyword :: rules))) := by
    rw [← List.cons_append, lined_append]
    have hall := List.forall_mem_cons.mpr ⟨endsVisibly_heading keyword, hrules⟩
    exact (endsVisibly_lined hall).append _
  rw [lined_eq (List.cons_ne_nil _ _)] at hends
  obtain ⟨t, hstart⟩ : ∃ t, joined (Written.field "name" n ::
      (front ++ Written.heading keyword :: rules)) = 'n' :: t := by
    rw [joined]
    cases front <;> exact ⟨_, rfl⟩
  rw [Text.trim_append htail]
  rw [hstart] at hends ⊢
  obtain ⟨c, hc, hblank⟩ := hends
  refine Text.trim_eq_self (fun d hd => ?_) fun d hd => ?_
  · obtain rfl := Option.some.inj hd
    rfl
  · rw [List.getLast?_cons_cons] at hc
    rw [hc] at hd
    obtain rfl := Option.some.inj hd
    exact hblank

/-- The lines of a description are read as the sections of its lines and, as the last one, its
rules. -/
theorem exists_sections_written {front rules : List Line} {xs : List Section} {keyword : String}
    {x : Section} (hfront : List.Forall₂ ((sectionReader kind).ReadsBack id EndsLine) front xs)
    (hheading : ∀ u, skipLines (Written.heading keyword ++ u) = Written.heading keyword ++ u)
    (hread : (sectionReader kind).Reads (Written.heading keyword ++ lined rules) x []) :
    ∃ l, Sections kind (lined (front ++ Written.heading keyword :: rules)) l ∧
      l.map Located.value = xs ++ [x] := by
  rw [lined_append, lined_cons]
  exact exists_sections_append hfront (.inr ⟨_, rfl⟩)
    (exists_sections_cons (hheading _) hread ⟨[], .done skipLines_nil, rfl⟩)

/-- **What is read of a written description**: the sections of its lines and, as the last one, its
rules. White space behind the text plays no part. -/
theorem exists_read_written {front rules : List Line} {n : Line} {xs : List Section}
    {keyword : String} {x : Section} {tail : List Char}
    (hfront : List.Forall₂ ((sectionReader kind).ReadsBack id EndsLine)
      (Written.field "name" n :: front) xs)
    (hheading : ∀ u, skipLines (Written.heading keyword ++ u) = Written.heading keyword ++ u)
    (hread : (sectionReader kind).Reads (Written.heading keyword ++ lined rules) x [])
    (hrules : ∀ q ∈ rules, EndsVisibly q) (htail : ∀ c ∈ tail, Text.isBlank c = true) :
    ∃ l u, (sectionsReader kind).read (Text.trim
        (joined (Written.field "name" n :: (front ++ Written.heading keyword :: rules)) ++ tail)) =
      some (l, u) ∧ l.map Located.value = xs ++ [x] := by
  obtain ⟨l, hl, hvalues⟩ := exists_sections_written hfront hheading hread
  have hne : l ≠ [] := by
    rintro rfl
    exact List.append_ne_nil_of_right_ne_nil xs (List.cons_ne_nil x []) hvalues.symm
  rw [List.cons_append, lined_eq (List.cons_ne_nil _ _)] at hl
  obtain ⟨u, hu⟩ := read_iff_sections.mpr ⟨hne, hl⟩
  exact ⟨l, u, by rw [trim_written hrules htail, hu], hvalues⟩

end

/-! ## What is described -/

section

variable {l : List (Located Section)} {xs : List Section}

theorem found?_eq_findSome? {α : Type} (hl : l.map Located.value = xs) (view : Section → Option α) :
    found? l view = xs.findSome? view := by
  rw [← hl, List.findSome?_map]
  rfl

theorem keywords_eq_map (hl : l.map Located.value = xs) : keywords l = xs.map Section.keyword := by
  rw [← hl, List.map_map]
  rfl

/-- What is made of sections without a repeated keyword is what they are assembled to, be it an
automaton or a fault. -/
theorem parseWith_of_read {α : Type} {r : Reader (List (Located Section))}
    {assemble : List (Located Section) → Except Refusal (String × α)} {wrap : α → Automaton}
    {text u : List Char} (hread : r.read text = some (l, u)) (hnodup : (keywords l).Nodup) :
    parseWith r assemble wrap text = ((assemble l).mapError (Refusal.fault text)).map fun x =>
      { name := x.1, checks := givenChecks l, automaton := wrap x.2 } := by
  have hsections : readSections r text = .ok l := readSections_eq_ok_iff.mpr ⟨u, hread⟩
  have hunrepeated : (unrepeated [] l).mapError (Located.fault text) = .ok () :=
    mapError_eq_ok_iff.mpr (unrepeated_eq_ok_iff.mpr hnodup)
  rw [parseWith, hsections, ok_bind, hunrepeated, ok_bind]
  cases assemble l <;> rfl

theorem givenName_eq_ok {n : Line} (hn : IsName n) (h : found? l Section.name? = some n) :
    givenName l = .ok (String.ofList n) := by
  refine map_eq_ok_iff.mpr ⟨n, required_eq_ok_iff.mpr h, ?_⟩
  rw [hn.trim_eq]

end

end Acceptors.Description
