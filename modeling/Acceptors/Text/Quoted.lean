import Acceptors.Text.Invisible

/-!
# Quoted texts

A quoted text stands between quotes, so that its ends can be seen. A backslash and the quote
itself get a backslash in front, the usual control characters have short names, and a character
that does not show is named by its code point in hexadecimal.

## Main definitions

* `quoted`, `quotedChar`: a text and a character between quotes
* `quotedList`: a list of texts in brackets
-/

namespace Acceptors.Text

/-- The number in hexadecimal, in lower case and without leading zeros. -/
def hexadecimal (n : Nat) : List Char := Nat.toDigits 16 n

/-- What stands for a character between the given quotes. -/
def escape (quote c : Char) : List Char :=
  if c = '\x00' then ['\\', '0']
  else if c = '\t' then ['\\', 't']
  else if c = '\r' then ['\\', 'r']
  else if c = '\n' then ['\\', 'n']
  else if c = '\\' then ['\\', '\\']
  else if c = quote then ['\\', quote]
  else if isInvisible c then ['\\', 'u', '{'] ++ hexadecimal c.toNat ++ ['}']
  else [c]

/-- The text between double quotes. -/
def quoted (s : String) : String :=
  String.ofList ('"' :: s.toList.flatMap (escape '"') ++ ['"'])

/-- The character between single quotes. -/
def quotedChar (c : Char) : String :=
  String.ofList ('\'' :: escape '\'' c ++ ['\''])

/-- The texts between double quotes, separated by commas and in brackets. -/
def quotedList (l : List String) : String :=
  "[" ++ ", ".intercalate (l.map quoted) ++ "]"

end Acceptors.Text
