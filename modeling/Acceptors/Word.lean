/-!
# Words

## Main definitions

* `Word`: a finite sequence of characters
* `Word.shown`: its text, with a sign for the empty word
-/

namespace Acceptors

/-- A finite sequence of characters. -/
abbrev Word := List Char

/-- The sign for the empty word. -/
def emptyWordSign : String := "ε"

/-- The word as a text; the empty word gets its sign. -/
def Word.shown (w : Word) : String := if w.isEmpty then emptyWordSign else String.ofList w

end Acceptors
