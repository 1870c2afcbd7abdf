import Acceptors.Proofs.Description.Breaks
import Acceptors.Text.Blank
import Acceptors.Text.Digits

/-!
# Names in front of a rest

A name of a state or a nonterminal is a run of letters, digits and a few signs. It is read back
wherever no further character of this kind follows. What stands in front of a colon is read as a
name only if it is no keyword of a section.

## Main definitions

* `IsIdent`: a run of letters, digits and signs
* `EndsName`: what may stand behind a name

## Main results

* `Token.skip_of_isIdentChar`: nothing is skipped in front of a name
* `Token.ident_append`, `Token.stateName_append`, `Token.digits_append`: names and numbers are read
  back
* `Token.isIdent_of_ident`: what is read as a name
* `Token.not_isBlank_of_isIdentChar`: no name ends with white space
-/

namespace Acceptors.Description

/-- A run of letters, digits, underscores, number signs, dollar signs and dots. -/
def IsIdent (l : String) : Prop := l ≠ "" ∧ ∀ c ∈ l.toList, Token.isIdentChar c = true

instance (l : String) : Decidable (IsIdent l) :=
  decidable_of_iff (l ≠ "" ∧ l.toList.all Token.isIdentChar = true)
    (and_congr_right fun _ => List.all_eq_true)

/-- Here a name ends, and no colon makes a heading of it. -/
def EndsName (u : List Char) : Prop := ∀ c ∈ u.head?, Token.isIdentChar c = false ∧ c ≠ ':'

/-! ## Letters and digits -/

/-- A letter is a code between those of `A` and `Z` or of `a` and `z`. -/
theorem toNat_of_isAlpha {c : Char} (h : c.isAlpha = true) :
    (65 ≤ c.toNat ∧ c.toNat ≤ 90) ∨ (97 ≤ c.toNat ∧ c.toNat ≤ 122) := by
  have hcases : c.isUpper = true ∨ c.isLower = true := Bool.or_eq_true_iff.mp h
  rcases hcases with h | h
  · obtain ⟨hlow, hhigh⟩ := of_decide_eq_true h
    exact .inl ⟨UInt32.le_iff_toNat_le.mp hlow, UInt32.le_iff_toNat_le.mp hhigh⟩
  · obtain ⟨hlow, hhigh⟩ := Bool.and_eq_true_iff.mp h
    exact .inr ⟨UInt32.le_iff_toNat_le.mp (of_decide_eq_true hlow),
      UInt32.le_iff_toNat_le.mp (of_decide_eq_true hhigh)⟩

/-- A digit is a code between those of `0` and `9`. -/
theorem toNat_of_isDigit {c : Char} (h : c.isDigit = true) : 48 ≤ c.toNat ∧ c.toNat ≤ 57 := by
  obtain ⟨hlow, hhigh⟩ := Bool.and_eq_true_iff.mp h
  exact ⟨UInt32.le_iff_toNat_le.mp (of_decide_eq_true hlow),
    UInt32.le_iff_toNat_le.mp (of_decide_eq_true hhigh)⟩

namespace Token

variable {s u : List Char}

/-! ## Characters of names -/

theorem ne_of_isIdentChar {c d : Char} (h : isIdentChar c = true) (hd : isIdentChar d = false) :
    c ≠ d := by
  rintro rfl
  rw [hd] at h
  cases h

theorem not_isSpace_of_isIdentChar {c : Char} (h : isIdentChar c = true) : isSpace c = false := by
  rw [Bool.eq_false_iff]
  intro hspace
  rw [forall_isSpace (P := fun c => isIdentChar c = false) rfl rfl c hspace] at h
  cases h

theorem not_isNewline_of_isIdentChar {c : Char} (h : isIdentChar c = true) :
    isNewline c = false := by
  rw [isNewline, decide_eq_false (ne_of_isIdentChar h rfl),
    decide_eq_false (ne_of_isIdentChar h rfl), Bool.or_false]

theorem not_isBlank_of_isIdentChar {c : Char} (h : isIdentChar c = true) :
    Text.isBlank c = false := by
  have hrange : 35 ≤ c.toNat ∧ c.toNat ≤ 122 := by
    rcases Bool.or_eq_true_iff.mp h with h | h
    · rcases Bool.or_eq_true_iff.mp h with h | h
      · have hletter := toNat_of_isAlpha h
        omega
      · have hdigit := toNat_of_isDigit h
        omega
    · have hsigns : ∀ d ∈ ['_', '#', '$', '.'], 35 ≤ d.toNat ∧ d.toNat ≤ 122 := by
        simp only [List.forall_mem_cons]
        exact ⟨by decide, by decide, by decide, by decide, nofun⟩
      exact hsigns c (List.contains_iff_mem.mp h)
  -- all white space lies below or above this range
  have houtside : ∀ r ∈ Text.blankRanges, r.2 < 35 ∨ 122 < r.1 := by decide
  rw [Text.isBlank, List.any_eq_false]
  intro r hr
  have hout := houtside r hr
  simp only [Bool.and_eq_true, decide_eq_true_eq]
  omega

/-- Nothing is skipped in front of a character of a name. -/
theorem skip_of_isIdentChar (h : ∀ c ∈ s.head?, isIdentChar c = true) :
    skipBlanks s = s ∧ skipLines s = s :=
  skip_eq_self fun c hc => ⟨not_isSpace_of_isIdentChar (h c hc),
    not_isNewline_of_isIdentChar (h c hc), ne_of_isIdentChar (h c hc) rfl⟩

/-- No character of a name is a quote. -/
theorem quotedChar_of_isIdentChar {c : Char} (hc : isIdentChar c = true) (s : List Char) :
    quotedChar (c :: s) = none := by
  unfold quotedChar
  split
  · next heq =>
    rw [if_neg]
    rintro ⟨rfl, -⟩
    exact ne_of_isIdentChar hc (by decide) (List.cons.inj heq).1
  · rfl

/-- No token stops at a character of a name, unless it is one of its marks. -/
theorem stopsAt_of_isIdentChar {marks : List Char} {c : Char} (hc : isIdentChar c = true)
    (hmarks : marks.all (fun d => !isIdentChar d) = true) (s : List Char) :
    stopsAt marks (c :: s) = false := by
  have hmark : marks.contains c = false := by
    rw [Bool.eq_false_iff]
    intro hmem
    have hmark := List.all_eq_true.mp hmarks c (List.contains_iff_mem.mp hmem)
    rw [hc] at hmark
    cases hmark
  have hcomment := commentAhead_of_head (ne_of_isIdentChar (d := '/') hc rfl) s
  rw [stopsAt, not_isNewline_of_isIdentChar hc, hmark, hcomment]
  rfl

theorem takeUntil_of_isIdentChar {marks t : List Char} (ht : ∀ c ∈ t, isIdentChar c = true)
    (hmarks : marks.all (fun d => !isIdentChar d) = true)
    (hu : u ≠ [] → stopsAt marks u = true) : takeUntil (stopsAt marks) (t ++ u) = (t, u) := by
  induction t with
  | nil => exact takeUntil_of_stop hu
  | cons c t ih =>
    obtain ⟨hc, ht⟩ := List.forall_mem_cons.mp ht
    rw [List.cons_append, takeUntil, stopsAt_of_isIdentChar hc hmarks, ih ht]
    rfl

end Token

/-! ## Names -/

section

variable {l : String} {u : List Char}

theorem isIdent_toString (n : Nat) : IsIdent (toString n) := by
  refine ⟨fun hempty => ?_, fun c hc => ?_⟩
  · have hlist := Text.toList_toString n
    rw [hempty] at hlist
    exact Nat.toDigits_ne_nil hlist.symm
  · have hdigit : c.isAlphanum = true :=
      Bool.or_eq_true_iff.mpr (.inr (Text.isDigit_of_mem_toString hc))
    rw [Token.isIdentChar, hdigit, Bool.true_or]

theorem endsName_cons {c : Char} (hc : Token.isIdentChar c = false ∧ c ≠ ':') (u : List Char) :
    EndsName (c :: u) := by
  rintro _ ⟨⟩
  exact hc

theorem EndsLine.endsName (hu : EndsLine u) : EndsName u := by
  rcases hu with rfl | ⟨k, rfl⟩
  · exact nofun
  · exact endsName_cons (by decide) k

theorem IsIdent.toList_ne_nil (hl : IsIdent l) : l.toList ≠ [] := by simpa using hl.1

theorem IsIdent.exists_cons (hl : IsIdent l) :
    ∃ c t, l.toList = c :: t ∧ Token.isIdentChar c = true := by
  cases hlist : l.toList with
  | nil => exact absurd hlist hl.toList_ne_nil
  | cons c t => exact ⟨c, t, rfl, hl.2 c (hlist ▸ List.mem_cons_self)⟩

theorem IsIdent.head?_append (hl : IsIdent l) (u : List Char) :
    ∀ c ∈ (l.toList ++ u).head?, Token.isIdentChar c = true := by
  obtain ⟨c, t, hlist, hc⟩ := hl.exists_cons
  rw [hlist]
  rintro _ ⟨⟩
  exact hc

theorem IsIdent.skipBlanks_append (hl : IsIdent l) (u : List Char) :
    skipBlanks (l.toList ++ u) = l.toList ++ u :=
  (Token.skip_of_isIdentChar (hl.head?_append u)).1

theorem IsIdent.skipLines_append (hl : IsIdent l) (u : List Char) :
    skipLines (l.toList ++ u) = l.toList ++ u :=
  (Token.skip_of_isIdentChar (hl.head?_append u)).2

namespace Token

/-- Two runs that start in one place and end where no run goes on are the same. -/
theorem eq_of_append_eq {p : Char → Bool} {k l w : List Char} (hk : ∀ c ∈ k, p c = true)
    (hl : ∀ c ∈ l, p c = true) (hw : ∀ c ∈ w.head?, p c = false)
    (hu : ∀ c ∈ u.head?, p c = false) (h : k ++ w = l ++ u) : k = l := by
  rw [← takeWhile_append_eq hk hw, h, takeWhile_append_eq hl hu]

/-- A name is read back. -/
theorem ident_append (hl : IsIdent l) (hu : ∀ c ∈ u.head?, isIdentChar c = false) :
    ident (l.toList ++ u) = some (l, u) := by
  rw [ident, run_append hl.toList_ne_nil hl.2 hu]
  simp

/-- What is read as a name is one. -/
theorem isIdent_of_ident {s rest : List Char} {name : String}
    (h : ident s = some (name, rest)) : IsIdent name := by
  obtain ⟨⟨token, rest'⟩, hrun, hname⟩ := Option.map_eq_some_iff.mp h
  obtain ⟨rfl, -⟩ := Prod.mk.inj hname
  rw [run_eq] at hrun
  split at hrun
  · cases hrun
  · next hne =>
    obtain ⟨rfl, -⟩ := Prod.mk.inj (Option.some.inj hrun)
    refine ⟨fun hempty => hne (String.ofList_eq_empty_iff.mp hempty), fun c hc => ?_⟩
    rw [String.toList_ofList] at hc
    exact List.all_eq_true.mp List.all_takeWhile c hc

/-- A number is read back. -/
theorem digits_append (n : Nat) (hu : ∀ c ∈ u.head?, c.isDigit = false) :
    digits ((toString n).toList ++ u) = some ((toString n).toList, u) :=
  run_append (by simp) (fun _ hc => Text.isDigit_of_mem_toString hc) hu

/-- A name of a state is read back, unless it is a keyword in front of a colon. -/
theorem stateName_append (hl : IsIdent l) (hu : ∀ c ∈ u.head?, isIdentChar c = false)
    (hkeyword : l ∈ stateKeywords → u.head? ≠ some ':') :
    stateName (l.toList ++ u) = some (l, u) := by
  have hchars : ∀ k ∈ stateKeywords, k.toList.all isIdentChar = true := by decide
  have hahead : keywordAhead stateKeywords (l.toList ++ u) = false := by
    rw [keywordAhead, List.any_eq_false]
    intro k hk hbegins
    obtain ⟨w, hw⟩ := List.isPrefixOf_iff_prefix.mp hbegins
    rw [List.append_assoc] at hw
    -- the keyword is the whole name, and a colon follows it
    have heq := eq_of_append_eq (List.all_eq_true.mp (hchars k hk)) hl.2 (by simp; rfl) hu hw
    rw [heq] at hw
    refine hkeyword (String.toList_inj.mp heq ▸ hk) ?_
    rw [← List.append_cancel_left hw]
    rfl
  rw [stateName, hahead]
  exact ident_append hl hu

end Token

end

end Acceptors.Description
