/-!
# White space around a text

## Main definitions

* `isBlank`: the characters with the property White_Space
* `trim`: a text without the white space at its two ends

## Main results

* `trim_eq_self`: a text with no white space at its ends stays as it is
* `trim_append`: white space at the end plays no part
-/

namespace Acceptors.Text

/-- Ranges of the characters with the property White_Space. -/
def blankRanges : List (Nat × Nat) :=
  [(0x9, 0xd), (0x20, 0x20), (0x85, 0x85), (0xa0, 0xa0), (0x1680, 0x1680), (0x2000, 0x200a),
   (0x2028, 0x2029), (0x202f, 0x202f), (0x205f, 0x205f), (0x3000, 0x3000)]

/-- Whether the character is white space. -/
def isBlank (c : Char) : Bool :=
  blankRanges.any fun (low, high) => low ≤ c.toNat && c.toNat ≤ high

/-- The text from its first character that is not white space. -/
def trimStart (s : List Char) : List Char := s.dropWhile isBlank

/-- The text up to its last character that is not white space. -/
def trimEnd (s : List Char) : List Char := (s.reverse.dropWhile isBlank).reverse

/-- The text without the white space at its two ends. -/
def trim (s : List Char) : List Char := trimEnd (trimStart s)

theorem trimStart_eq_self {s : List Char} (h : ∀ c ∈ s.head?, isBlank c = false) :
    trimStart s = s := by
  cases s with
  | nil => rfl
  | cons c s => simp [trimStart, h c (by simp)]

theorem trimEnd_eq_self {s : List Char} (h : ∀ c ∈ s.getLast?, isBlank c = false) :
    trimEnd s = s := by
  have := trimStart_eq_self (s := s.reverse) (by simpa using h)
  unfold trimStart at this
  simp [trimEnd, this]

theorem trim_eq_self {s : List Char} (hs : ∀ c ∈ s.head?, isBlank c = false)
    (ht : ∀ c ∈ s.getLast?, isBlank c = false) : trim s = s := by
  rw [trim, trimStart_eq_self hs, trimEnd_eq_self ht]

theorem trim_append {b : List Char} (hb : ∀ c ∈ b, isBlank c = true) (s : List Char) :
    trim (s ++ b) = trim s := by
  have hnil : (b ++ []).dropWhile isBlank = [] := List.dropWhile_append_of_pos hb
  rw [List.append_nil] at hnil
  rw [trim, trim, trimStart, trimStart, List.dropWhile_append]
  split
  · next h => rw [List.isEmpty_iff.mp h, hnil]
  · rw [trimEnd, trimEnd, List.reverse_append, List.dropWhile_append_of_pos]
    exact fun c hc => hb c (List.mem_reverse.mp hc)

/-- No white space stands in front of a text that is its own trimmed form. -/
theorem head_of_trim_eq {s : List Char} (h : trim s = s) : ∀ c ∈ s.head?, isBlank c = false := by
  cases s with
  | nil => simp
  | cons c s =>
    rintro _ ⟨⟩
    rw [Bool.eq_false_iff]
    intro hblank
    have hlength : (trim (c :: s)).length ≤ s.length := by
      rw [trim, trimEnd, trimStart, List.length_reverse, List.dropWhile_cons_of_pos hblank]
      have hend := (List.dropWhile_suffix isBlank (l := (s.dropWhile isBlank).reverse)).length_le
      rw [List.length_reverse] at hend
      exact Nat.le_trans hend (List.dropWhile_suffix isBlank).length_le
    rw [h] at hlength
    exact Nat.not_succ_le_self _ hlength

end Acceptors.Text
