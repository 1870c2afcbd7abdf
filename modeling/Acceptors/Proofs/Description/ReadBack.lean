import Acceptors.Description.Written
import Acceptors.Proofs.Description.Formats
import Acceptors.Proofs.Description.Identifiers

/-!
# Reading what was written

What is written in one place is read there, whatever stands behind it. Readers differ in whether
they pass over the blanks behind what they read, but nothing that is read afterwards depends on it.
So what a reader leaves is told up to blanks. A value may be read together with the place where it
stands, so what is written is told up to a function.

## Main definitions

* `Reader.Reads`: a text is read as a value, up to the given rest
* `Reader.ReadsBack`: what is written is read as a value, in front of whatever may follow

## Main results

* `exists_reads_many`: a repetition reads what is written item by item
* `exists_reads_commaSeparated`: items with commas in between are read back
* `exists_read_tupleOf`, `exists_read_listOf`: so are items in brackets
* `readsBack_symbol`, `readsBack_stateName`: the items of lists
-/

namespace Acceptors.Description

open Written (Line quoted listed)

namespace Reader

section

variable {α β γ : Type} {r : Reader β} {s u v : List Char} {b : β}

/-! ## Up to blanks -/

/-- The text is read as the value, and what is left is the given rest up to blanks in front. -/
def Reads (r : Reader β) (s : List Char) (b : β) (u : List Char) : Prop :=
  ∃ v, r.read s = some (b, v) ∧ skipBlanks v = skipBlanks u

theorem reads_of_read (h : r.read s = some (b, u)) : r.Reads s b u := ⟨u, h, rfl⟩

theorem Reads.located (h : r.Reads s b u) : ∃ x, r.located.Reads s x u ∧ x.value = b := by
  obtain ⟨w, hread, hw⟩ := h
  exact ⟨⟨b, s, w⟩, ⟨w, by rw [read_located, hread]; rfl, hw⟩, rfl⟩

/-- What is read next starts where something stands. -/
theorem Reads.read_skip_bind (h : r.Reads s b u) (f : β → Reader γ) :
    (do let b ← r; skip; f b).read s = (f b).read (skipBlanks u) := by
  obtain ⟨w, hread, hw⟩ := h
  simp only [read_bind, hread, Option.bind_some, read_skip, hw]

theorem read_lit_skip_bind (word : String) (r : Reader β) (s : List Char) :
    (do lit word; skip; r).read (word.toList ++ s) = r.read (skipBlanks s) :=
  (reads_of_read (read_lit_append word s)).read_skip_bind fun _ => r

theorem read_lit_of_ne {word : String} {c d : Char} {w : List Char} (hword : word.toList = c :: w)
    (hne : d ≠ c) (v : List Char) : (lit word).read (d :: v) = none := by
  simp [lit, hword, Ne.symm hne]

theorem Shrinks.after_lit {word : String} (hne : word ≠ "") (hr : r.Shrinks) :
    (do lit word; skip; r).Shrinks :=
  (shrinks_lit hne).bind fun _ s b t h => (hr (skipBlanks s) b t h).1.trans (skipBlanks_suffix s)

/-! ## What is written -/

/-- In front of whatever may follow, the characters are read as something that `f` takes to the
value; they start with something to read. -/
structure ReadsBack (r : Reader β) (f : β → γ) (follows : List Char → Prop) (q : List Char)
    (c : γ) : Prop where
  skipLines_eq : ∀ u, follows u → skipLines (q ++ u) = q ++ u
  exists_reads : ∀ u, follows u → ∃ b, r.Reads (q ++ u) b u ∧ f b = c

section

variable {f : β → γ} {follows follows' : List Char → Prop} {q : List Char} {c : γ}

theorem readsBack_id (hskip : ∀ u, follows u → skipLines (q ++ u) = q ++ u)
    (h : ∀ u, follows u → r.Reads (q ++ u) b u) : r.ReadsBack id follows q b :=
  ⟨hskip, fun u hu => ⟨b, h u hu, rfl⟩⟩

theorem ReadsBack.mono (h : r.ReadsBack f follows q c) (himp : ∀ u, follows' u → follows u) :
    r.ReadsBack f follows' q c :=
  ⟨fun u hu => h.skipLines_eq u (himp u hu), fun u hu => h.exists_reads u (himp u hu)⟩

theorem ReadsBack.skipBlanks_eq (h : r.ReadsBack f follows q c) (hu : follows u) :
    skipBlanks (q ++ u) = q ++ u := by
  -- skipping lines also skips the blanks in front
  have hsuffix := skipLines_suffix (skipBlanks (q ++ u))
  rw [skipLines_skipBlanks, h.skipLines_eq u hu] at hsuffix
  exact (skipBlanks_suffix _).eq_of_length_le hsuffix.length_le

theorem ReadsBack.reads {q : List Char} {b : β} (h : r.ReadsBack id follows q b) (hu : follows u) :
    r.Reads (q ++ u) b u := by
  obtain ⟨_, hread, rfl⟩ := h.exists_reads u hu
  exact hread

/-- What is written behind a word and a blank is read back. -/
theorem ReadsBack.after_lit {word : String} (h : r.ReadsBack f follows q c) (hu : follows u) :
    ∃ b, (do lit word; skip; r).Reads (word.toList ++ ' ' :: (q ++ u)) b u ∧ f b = c := by
  obtain ⟨b, ⟨v, hread, hv⟩, hb⟩ := h.exists_reads u hu
  refine ⟨b, ⟨v, ?_, hv⟩, hb⟩
  rw [read_lit_skip_bind, skipBlanks_blank, h.skipBlanks_eq hu, hread]

end

/-! ## Repetitions -/

section

variable {f : β → γ} {g : α → γ} {follows : List Char → Prop} {as : List α}

/-- Items may stand where only an item may stand in front of the rest. -/
theorem follows_flatMap {p : α → List Char} (hfollows : ∀ a ∈ as, ∀ w, follows (p a ++ w))
    (hu : follows u) : follows (as.flatMap p ++ u) := by
  cases as with
  | nil => exact hu
  | cons a as =>
    rw [List.flatMap_cons, List.append_assoc]
    exact hfollows a List.mem_cons_self _

/-- A repetition reads what is written item by item, up to where the next item cannot be read. -/
theorem exists_reads_many (hr : r.Shrinks) {p : α → List Char}
    (hread : ∀ a ∈ as, ∀ w, follows w → ∃ b, r.Reads (skipBlanks (p a ++ w)) b w ∧ f b = g a)
    (hfollows : ∀ a ∈ as, ∀ w, follows (p a ++ w)) (hu : follows u)
    (hstop : r.read (skipBlanks u) = none) (hs : skipBlanks s = skipBlanks (as.flatMap p ++ u)) :
    ∃ bs, r.many.Reads s bs u ∧ bs.map f = as.map g := by
  suffices h : ∃ bs v, r.Repeats s bs v ∧ skipBlanks v = skipBlanks u ∧ bs.map f = as.map g by
    obtain ⟨bs, v, hrepeats, hv, hbs⟩ := h
    exact ⟨bs, ⟨v, (read_many_iff hr).mpr hrepeats, hv⟩, hbs⟩
  induction as generalizing s with
  | nil => exact ⟨[], s, .stop (hs ▸ hstop), hs, rfl⟩
  | cons a as ih =>
    obtain ⟨ha, hread⟩ := List.forall_mem_cons.mp hread
    have hrest := follows_flatMap (List.forall_mem_cons.mp hfollows).2 hu
    obtain ⟨b, ⟨v, hv, hblanks⟩, hb⟩ := ha _ hrest
    obtain ⟨bs, w, hrepeats, hw, hbs⟩ := ih hread (List.forall_mem_cons.mp hfollows).2 hblanks
    rw [List.flatMap_cons, List.append_assoc] at hs
    exact ⟨b :: bs, w, .next (hs ▸ hv) hrepeats, hw, by rw [List.map_cons, List.map_cons, hb, hbs]⟩

/-- A first item is read, and a repetition then reads the others. -/
theorem ReadsBack.exists_reads_rest {a : α} {q : List Char} {p : α → List Char} {r' : Reader β}
    (ha : r'.ReadsBack f follows q (g a)) (hr : r.Shrinks)
    (hread : ∀ a ∈ as, ∀ w, follows w → ∃ b, r.Reads (skipBlanks (p a ++ w)) b w ∧ f b = g a)
    (hfollows : ∀ a ∈ as, ∀ w, follows (p a ++ w)) (hu : follows u)
    (hstop : r.read (skipBlanks u) = none) :
    ∃ b bs, r'.Reads (q ++ (as.flatMap p ++ u)) b (as.flatMap p ++ u) ∧
      r.many.Reads (skipBlanks (as.flatMap p ++ u)) bs u ∧
        (b :: bs).map f = (a :: as).map g := by
  obtain ⟨b, hb, hfb⟩ := ha.exists_reads _ (follows_flatMap hfollows hu)
  obtain ⟨bs, hbs, hfbs⟩ := exists_reads_many hr hread hfollows hu hstop (skipBlanks_idem _)
  exact ⟨b, bs, hb, hbs, by rw [List.map_cons, List.map_cons, hfb, hfbs]⟩

end

end

end Reader

/-! ## Lists -/

theorem intercalate_cons (sep q : List Char) (l : List (List Char)) :
    sep.intercalate (q :: l) = q ++ l.flatMap (sep ++ ·) := by
  induction l generalizing q with
  | nil => simp [List.intercalate]
  | cons q' l ih =>
    have htail := ih q'
    simp only [List.intercalate, List.intersperse_cons_cons, List.flatten_cons] at htail ⊢
    rw [htail, List.flatMap_cons, List.append_assoc]

namespace Reader

section

variable {α β γ : Type} {r : Reader β} {f : β → γ} {g : α → γ} {q : α → Line} {as : List α}
  {u : List Char}

/-- Items with commas in between are read back. -/
theorem exists_reads_commaSeparated (hr : r.Shrinks) (hne : as ≠ [])
    (h : ∀ a ∈ as, r.ReadsBack f EndsName (q a) (g a)) (hu : EndsName u)
    (hstop : (lit ",").read (skipBlanks u) = none) :
    ∃ bs, (commaSeparated r).Reads (listed (as.map q) ++ u) bs u ∧ bs.map f = as.map g := by
  obtain ⟨a, as, rfl⟩ := List.exists_cons_of_ne_nil hne
  obtain ⟨ha, has⟩ := List.forall_mem_cons.mp h
  have htext : listed ((a :: as).map q) ++ u =
      q a ++ ((as.flatMap fun a' => ", ".toList ++ q a') ++ u) := by
    rw [List.map_cons, listed, intercalate_cons, List.flatMap_map, List.append_assoc]
    rfl
  have hcomma : ∀ a' ∈ as, ∀ w, EndsName ((", ".toList ++ q a') ++ w) :=
    fun _ _ _ => endsName_cons (by decide) _
  have hread : ∀ a' ∈ as, ∀ w, EndsName w → ∃ b, (do lit ","; skip; r).Reads
      (skipBlanks ((", ".toList ++ q a') ++ w)) b w ∧ f b = g a' := by
    intro a' ha' w hw
    rw [List.append_assoc]
    exact (has a' ha').after_lit hw
  have hstop' : (do lit ","; skip; r).read (skipBlanks u) = none := by
    rw [read_bind, hstop]
    rfl
  obtain ⟨b, bs, hb, ⟨v, hv, hblanks⟩, hvalues⟩ :=
    ha.exists_reads_rest (hr.after_lit (by decide)) hread hcomma hu hstop'
  refine ⟨b :: bs, ⟨v, ?_, hblanks⟩, hvalues⟩
  rw [htext, commaSeparated, hb.read_skip_bind, read_bind, hv]
  rfl

theorem bracketed_append (items : List Line) (u : List Char) :
    Written.bracketed items ++ u = "[".toList ++ (listed items ++ ']' :: u) := by
  simp [Written.bracketed]

/-- What stands in brackets is read back. -/
theorem read_bracketed {s : List Char} {b : β} (h : r.Reads (skipBlanks s) b (']' :: u)) :
    r.bracketed.read ("[".toList ++ s) = some (b, u) := by
  have hbracket : skipBlanks (']' :: u) = "]".toList ++ u := rfl
  rw [bracketed, read_lit_skip_bind, h.read_skip_bind, hbracket, read_bind, read_lit_append]
  rfl

/-- Items in brackets are read back. -/
theorem exists_reads_in_brackets (hr : r.Shrinks) (hne : as ≠ [])
    (h : ∀ a ∈ as, r.ReadsBack f EndsName (q a) (g a)) (u : List Char) :
    ∃ bs, (commaSeparated r).Reads (skipBlanks (listed (as.map q) ++ ']' :: u)) bs (']' :: u) ∧
      bs.map f = as.map g := by
  have hends : EndsName (']' :: u) := endsName_cons (by decide) u
  have hskip : skipBlanks (listed (as.map q) ++ ']' :: u) = listed (as.map q) ++ ']' :: u := by
    obtain ⟨a, as, rfl⟩ := List.exists_cons_of_ne_nil hne
    have ha := (List.forall_mem_cons.mp h).1
    rw [List.map_cons, listed, intercalate_cons, List.append_assoc]
    exact ha.skipBlanks_eq (follows_flatMap (fun _ _ _ => endsName_cons (by decide) _) hends)
  rw [hskip]
  exact exists_reads_commaSeparated hr hne h hends rfl

/-- A tuple in brackets is read back. -/
theorem exists_read_tupleOf (hr : r.Shrinks) (hne : as ≠ [])
    (h : ∀ a ∈ as, r.ReadsBack f EndsName (q a) (g a)) (u : List Char) :
    ∃ bs, (tupleOf r).read (Written.bracketed (as.map q) ++ u) = some (bs, u) ∧
      bs.map f = as.map g := by
  obtain ⟨bs, hread, hbs⟩ := exists_reads_in_brackets hr hne h u
  exact ⟨bs, by rw [tupleOf, read_orElse, bracketed_append, read_bracketed hread]; rfl, hbs⟩

/-- A list in brackets is read back; it may be empty. -/
theorem exists_read_listOf (hr : r.Shrinks) (hnone : ∀ u, r.read (']' :: u) = none)
    (h : ∀ a ∈ as, r.ReadsBack f EndsName (q a) (g a)) (u : List Char) :
    ∃ bs, (listOf r).read (Written.bracketed (as.map q) ++ u) = some (bs, u) ∧
      bs.map f = as.map g := by
  suffices hlist : ∃ bs, Reads ((fun found => found.getD []) <$> optional (commaSeparated r))
      (skipBlanks (listed (as.map q) ++ ']' :: u)) bs (']' :: u) ∧ bs.map f = as.map g by
    obtain ⟨bs, hread, hbs⟩ := hlist
    exact ⟨bs, by rw [listOf, read_orElse, bracketed_append, read_bracketed hread]; rfl, hbs⟩
  cases as with
  | nil =>
    -- no item starts where the list ends
    refine ⟨[], reads_of_read ?_, rfl⟩
    have hblank : skipBlanks (listed [] ++ ']' :: u) = ']' :: u := rfl
    rw [List.map_nil, hblank, read_map, read_optional, commaSeparated, read_bind, hnone]
    rfl
  | cons a as =>
    obtain ⟨bs, ⟨v, hread, hv⟩, hbs⟩ := exists_reads_in_brackets hr (List.cons_ne_nil a as) h u
    refine ⟨bs, ⟨v, ?_, hv⟩, hbs⟩
    rw [read_map, read_optional, hread]
    rfl

end

/-! ## Items of lists -/

theorem shrinks_symbol : symbol.Shrinks := (frames_symbol (.inl rfl)).shrinks

theorem shrinks_stateName : stateName.Shrinks := (frames_stateName (.inl rfl)).shrinks

theorem readsBack_symbol {c : Char} (hc : c ≠ '\'') :
    symbol.ReadsBack id EndsName (quoted c) c :=
  readsBack_id (fun _ _ => rfl) fun u _ => reads_of_read (Written.read_symbol_quoted hc u)

theorem readsBack_ident {p : Phrase} {l : String} (hl : IsIdent l) :
    (token p Token.ident).ReadsBack id EndsLine l.toList l :=
  readsBack_id (fun u _ => hl.skipLines_append u) fun _ hu =>
    reads_of_read (Token.ident_append hl (hu.head rfl))

theorem readsBack_stateName {l : String} (hl : IsIdent l) :
    stateName.ReadsBack id EndsName l.toList l := by
  refine readsBack_id (fun u _ => hl.skipLines_append u) fun u hu => reads_of_read ?_
  refine Token.stateName_append hl (fun c hc => (hu c hc).1) fun _ hcolon => ?_
  exact (hu ':' hcolon).2 rfl

/-- No bracket stands where a name starts. -/
theorem read_bracketed_ident {α : Type} {r : Reader α} {l : String} (hl : IsIdent l)
    (u : List Char) : r.bracketed.read (l.toList ++ u) = none := by
  obtain ⟨c, t, hlist, hc⟩ := hl.exists_cons
  have hne : c ≠ '[' := Token.ne_of_isIdentChar hc (by decide)
  have hlit : (lit "[").read (c :: (t ++ u)) = none := read_lit_of_ne rfl hne (t ++ u)
  rw [hlist, bracketed, read_bind]
  exact congrArg (Option.bind · _) hlit

/-- A name of a state that stands by itself is read as a list. -/
theorem readsBack_listOf_single {p : Phrase} {l : String} (hl : IsIdent l) :
    (phrase p (listOf stateName)).ReadsBack id EndsLine l.toList [l] := by
  refine readsBack_id (fun u _ => hl.skipLines_append u) fun u hu => ?_
  have hstop : (lit ",").read (skipBlanks u) = none := by
    rcases hu with rfl | ⟨v, rfl⟩ <;> rfl
  have hitems : ∀ a ∈ [l], stateName.ReadsBack id EndsName a.toList a := by
    rw [List.forall_mem_singleton]
    exact readsBack_stateName hl
  obtain ⟨bs, ⟨v, hread, hv⟩, hbs⟩ := exists_reads_commaSeparated (g := id) (q := String.toList)
    shrinks_stateName (List.cons_ne_nil l []) hitems hu.endsName hstop
  rw [List.map_id, List.map_id] at hbs
  have htext : listed ([l].map String.toList) = l.toList := List.append_nil _
  rw [htext] at hread
  exact ⟨v, by rw [read_phrase, listOf, read_orElse, read_bracketed_ident hl, hread, hbs]; rfl, hv⟩

/-- A tuple of quoted symbols is read back. -/
theorem read_symbolTuple {cs : List Char} (hne : cs ≠ []) (hcs : ∀ c ∈ cs, c ≠ '\'')
    (u : List Char) :
    symbolTuple.read (Written.bracketed (cs.map quoted) ++ u) = some (cs, u) := by
  obtain ⟨bs, hread, hbs⟩ := exists_read_tupleOf (g := id) (q := quoted) shrinks_symbol hne
    (fun c hc => readsBack_symbol (hcs c hc)) u
  rw [List.map_id, List.map_id] at hbs
  rw [symbolTuple, read_phrase, hread, hbs]

end Reader

end Acceptors.Description
