/-!
# Texts of a given width

The width of a text is its number of characters. A text that is wider already is left alone.

## Main definitions

* `padLeft`, `padRight`: blanks before or after the text
* `centre`: blanks on both sides, the odd one on the right
-/

namespace Acceptors.Text

/-- The given number of blanks. -/
def blanks (n : Nat) : String := String.ofList (List.replicate n ' ')

/-- The text at the right end of a field of the given width. -/
def padLeft (width : Nat) (s : String) : String := blanks (width - s.length) ++ s

/-- The text at the left end of a field of the given width. -/
def padRight (width : Nat) (s : String) : String := s ++ blanks (width - s.length)

/-- The text in the middle of a field of the given width; an odd blank goes to the right. -/
def centre (width : Nat) (s : String) : String :=
  let spare := width - s.length
  blanks (spare / 2) ++ s ++ blanks (spare - spare / 2)

@[simp] theorem length_blanks (n : Nat) : (blanks n).length = n := by simp [blanks]

theorem length_padLeft (width : Nat) (s : String) :
    (padLeft width s).length = max width s.length := by
  simp only [padLeft, String.length_append, length_blanks]; omega

theorem length_centre (width : Nat) (s : String) :
    (centre width s).length = max width s.length := by
  simp only [centre, String.length_append, length_blanks]; omega

end Acceptors.Text
