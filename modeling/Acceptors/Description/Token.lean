import Acceptors.Word

/-!
# Tokens of the description language

A token is read from the start of what is left of the text, and nothing is skipped inside it.
Blanks, tabs and comments may stand between tokens; a comment starts with two slashes and ends
before the end of its line.

## Main definitions

* `Token`: a function that reads a token
* `skipBlanks`: what is left after blanks and a comment
* `Token.ident`, `Token.stateName`, `Token.symbol`, `Token.word`, …: the tokens

## Main results

* `skipBlanks_idem`: nothing is left to skip after skipping
* `takeUntil_eq`: the two parts of a text that is cut
-/

namespace Acceptors.Description

/-- Reads a token: its value and what is left of the text. -/
abbrev Token (α : Type) := List Char → Option (α × List Char)

/-! ## Between tokens -/

/-- Whether the character ends a line. -/
def isNewline (c : Char) : Bool := c = '\n' || c = '\r'

/-- Whether the character may stand between tokens. -/
def isSpace (c : Char) : Bool := c = ' ' || c = '\t'

/-- Whether a comment starts here. -/
def commentAhead : List Char → Bool
  | '/' :: '/' :: _ => true
  | _ => false

/-- What is left after a comment, if one starts here. -/
def skipComment (s : List Char) : List Char :=
  if commentAhead s then s.dropWhile fun c => !isNewline c else s

/-- What is left after blanks, tabs and a comment. -/
def skipBlanks (s : List Char) : List Char := skipComment (s.dropWhile isSpace)

/-- What is left after the end of a line. -/
def newline : List Char → Option (List Char)
  | '\n' :: s => some s
  | '\r' :: '\n' :: s => some s
  | '\r' :: s => some s
  | _ => none

theorem dropWhile_eq_self {p : Char → Bool} {s : List Char} (h : ∀ c ∈ s.head?, p c = false) :
    s.dropWhile p = s := by
  cases s with
  | nil => rfl
  | cons c s => simp [h c (by simp)]

theorem head?_dropWhile_eq_false {p : Char → Bool} {s : List Char} :
    ∀ c ∈ (s.dropWhile p).head?, p c = false := by
  induction s with
  | nil => simp
  | cons c s ih =>
    by_cases h : p c
    · simpa [List.dropWhile_cons, h] using ih
    · simp [h]

theorem commentAhead_eq_true {s : List Char} (h : commentAhead s = true) :
    ∃ t, s = '/' :: '/' :: t := by
  unfold commentAhead at h
  split at h
  · exact ⟨_, rfl⟩
  · simp at h

theorem skipBlanks_idem (s : List Char) : skipBlanks (skipBlanks s) = skipBlanks s := by
  unfold skipBlanks skipComment
  by_cases h : commentAhead (s.dropWhile isSpace) = true
  · simp only [h, if_true]
    generalize s.dropWhile isSpace = u
    -- a comment leaves nothing or the end of a line, where neither blanks nor a comment start
    have hline := head?_dropWhile_eq_false (p := fun c => !isNewline c) (s := u)
    cases hu : u.dropWhile fun c => !isNewline c with
    | nil => simp [commentAhead]
    | cons c v =>
      have hc : isNewline c = true := by simpa [hu] using hline
      have hspace : isSpace c = false := by
        simp only [isNewline, Bool.or_eq_true, decide_eq_true_eq] at hc
        rcases hc with rfl | rfl <;> decide
      have hslash : commentAhead (c :: v) = false := by
        simp only [isNewline, Bool.or_eq_true, decide_eq_true_eq] at hc
        rcases hc with rfl | rfl <;> rfl
      simp [hspace, hslash]
  · simp only [h]
    -- without a comment only the blanks are gone
    have := head?_dropWhile_eq_false (p := isSpace) (s := s)
    simp only [Bool.not_eq_true] at h
    simp [dropWhile_eq_self this, h]

/-! ## Cutting a text -/

/-- Cuts a text at the first place where `stop` holds of what is left. -/
def takeUntil (stop : List Char → Bool) : List Char → List Char × List Char
  | [] => ([], [])
  | c :: s =>
    if stop (c :: s) then ([], c :: s)
    else
      let rest := takeUntil stop s
      (c :: rest.1, rest.2)

theorem takeUntil_eq (stop : List Char → Bool) (s : List Char) :
    (takeUntil stop s).1 ++ (takeUntil stop s).2 = s := by
  induction s with
  | nil => rfl
  | cons c s ih => unfold takeUntil; split <;> simp [ih]

namespace Token

/-- The characters up to the place where `stop` holds, of which there must be one. -/
def upTo (stop : List Char → Bool) : Token (List Char) := fun s =>
  match takeUntil stop s with
  | ([], _) => none
  | (token, rest) => some (token, rest)

/-- The longest run of characters with a property, of which there must be one. -/
def run (p : Char → Bool) : Token (List Char) := fun s =>
  match s.takeWhile p with
  | [] => none
  | token => some (token, s.dropWhile p)

/-- Whether what is left starts with one of the words, followed by a colon. -/
def keywordAhead (keywords : List String) (s : List Char) : Bool :=
  keywords.any fun k => (k.toList ++ [':']).isPrefixOf s

/-- Whether what is left starts with one of the characters or with a comment or a line end. -/
def stopsAt (marks : List Char) : List Char → Bool
  | [] => false
  | c :: s => isNewline c || marks.contains c || commentAhead (c :: s)

/-! ## The tokens -/

/-- Whether the character may occur in a name of a state or a nonterminal. -/
def isIdentChar (c : Char) : Bool := c.isAlphanum || ['_', '#', '$', '.'].contains c

/-- Whether the character may occur in a label. -/
def isLabelChar (c : Char) : Bool := c.isAlphanum || c = '_'

/-- A name. -/
def ident : Token String := fun s => (run isIdentChar s).map fun (t, rest) => (.ofList t, rest)

/-- The keywords of sections in descriptions with states. -/
def stateKeywords : List String :=
  ["name", "blank", "tapes", "initial", "accepting", "alphabet", "checks", "rules"]

/-- A name of a state: no keyword of a section may stand here. -/
def stateName : Token String := fun s => if keywordAhead stateKeywords s then none else ident s

/-- A text up to the end of the line or a comment. -/
def text : Token (List Char) := upTo (stopsAt [])

/-- A run of digits. -/
def digits : Token (List Char) := run Char.isDigit

/-- A character, quoted or by itself. By itself it may be no blank, comma, bracket, quote or
bar. -/
def symbol : Token Char
  | '\'' :: c :: '\'' :: rest => if c = '\'' then none else some (c, rest)
  | c :: rest =>
    if stopsAt [' ', '\t', ',', '[', ']', '\'', '|'] (c :: rest) then none else some (c, rest)
  | [] => none

/-- A word to check: two quotes and the sign of the empty word stand for the empty word. -/
def word : Token Word
  -- two quotes are a word by themselves, whatever follows them
  | '\'' :: '\'' :: rest => some ([], rest)
  | s =>
    (upTo (stopsAt [' ', '\t', ',', '[', ']']) s).map fun (t, rest) =>
      (if t = emptyWordSign.toList then [] else t, rest)

/-- A symbol of a body, as it is written: a quoted character, or characters up to a blank, a bar or
a comment. -/
def bodySymbol : Token (List Char) := fun s =>
  match s with
  | '\'' :: c :: '\'' :: rest =>
    -- a quote between quotes is no quoted character
    if c = '\'' then upTo (stopsAt [' ', '\t', '|']) s else some (['\'', c, '\''], rest)
  | _ => upTo (stopsAt [' ', '\t', '|']) s

/-- The character of a direction. -/
def direction : Token Char
  | c :: rest =>
    if isNewline c || [' ', '\t', ',', '[', ']'].contains c then none else some (c, rest)
  | [] => none

/-- The keywords of sections in descriptions of programs. -/
def programKeywords : List String := ["name", "input", "output", "start", "program", "checks"]

/-- A label: no keyword of a section may stand here. -/
def label : Token String := fun s =>
  if keywordAhead programKeywords s then none
  else (run isLabelChar s).map fun (t, rest) => (.ofList t, rest)

/-- The words of instructions. -/
def instructionWords : List String := ["if", "goto", "halt", "div", "mod"]

/-- Whether what is left starts with one of the words and does not go on with a letter, a digit or
an underscore. -/
def instructionWordAhead (s : List Char) : Bool :=
  instructionWords.any fun k =>
    k.toList.isPrefixOf s && !((s.drop k.length).head?).any isLabelChar

/-- A name of a variable: it starts with a letter, and no word of an instruction may stand
here. -/
def variableName : Token String := fun s =>
  if instructionWordAhead s || !(s.head?).any Char.isAlpha then none
  else (run isLabelChar s).map fun (t, rest) => (.ofList t, rest)

end Token

end Acceptors.Description
