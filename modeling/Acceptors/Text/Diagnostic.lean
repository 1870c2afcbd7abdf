import Acceptors.Text.Pad
import Acceptors.Text.Place

/-!
# Complaints about a text

A diagnostic is a message about a place of a text. It is shown with the first and the last line
that it is about, and with a mark under the first one.

## Main definitions

* `Diagnostic`: a text, a place of it and what is wrong there
* `Diagnostic.positions`: where it starts and, if it covers a stretch, where it ends
* `Diagnostic.render`: the excerpt of the text with the message
-/

namespace Acceptors.Text

/-- What is wrong at a place of a text. -/
structure Diagnostic where
  text : List Char
  place : Place
  message : String
  deriving DecidableEq, Repr

/-- The line without the characters that end lines. -/
def withoutLineEnds (line : List Char) : List Char :=
  line.filter fun c => c ≠ '\r' && c ≠ '\n'

/-- The line with a sign in the place of each character that ends lines. -/
def withLineEndSigns (line : List Char) : List Char :=
  line.map fun c => if c = '\r' then '␍' else if c = '\n' then '␊' else c

namespace Diagnostic

/-- The positions of the two ends of a stretch, or the single position of a point. -/
def positions (d : Diagnostic) : List Position :=
  match d.place with
  | .point offset => [positionAt d.text offset]
  | .stretch start stop => [positionAt d.text start, positionAt d.text stop]

/-- The line of the given number, counted from one. -/
def line (d : Diagnostic) (number : Nat) : List Char := ((lines d.text)[number - 1]?).getD []

/-- Blanks below the first `n` characters of a line; a tab stays a tab. -/
def indentation (line : List Char) (n : Nat) : List Char :=
  (line.take n).map fun c => if c = '\t' then '\t' else ' '

/-- The mark below a stretch from column `start` up to column `stop`. A stretch that ends on a
later line further left is marked from its smaller column on, one column wider on each side. -/
def stretchMark (line : List Char) (start stop : Nat) : List Char :=
  let (start, stop) := if stop < start then (stop - 1, start + 1) else (start, stop)
  indentation line (start - 1) ++
    '^' :: (if 1 < stop - start then List.replicate (stop - start - 2) '-' ++ ['^'] else [])

/-- The lines of an excerpt: where it is, the numbered lines with what stands below the first, and
the message. The margin is as wide as the largest line number. -/
def layout (width : Nat) (start : Position) (numbered : List (Option Nat × List Char))
    (mark : List Char) (message : String) : String :=
  let margin := blanks width
  "\n".intercalate <|
    [margin ++ "--> " ++ toString start.line ++ ":" ++ toString start.column, margin ++ " |"] ++
    numbered.map (fun (number, line) =>
      match number with
      | some n => padLeft width (toString n) ++ " | " ++ String.ofList line
      | none => margin ++ " | ...") ++
    [margin ++ " | " ++ String.ofList mark, margin ++ " |", margin ++ " = " ++ message]

/-- The excerpt of the text around the place, with the message. -/
def render (d : Diagnostic) : String :=
  match d.place with
  | .point offset =>
    let at_ := positionAt d.text offset
    let whole := d.line at_.line
    -- a point at the end of a line is shown on the sign that stands for the line end
    let shown := match d.text[offset]? with
      | some '\r' | some '\n' => withLineEndSigns whole
      | _ => withoutLineEnds whole
    layout (toString at_.line).length at_ [(some at_.line, shown)]
      (indentation shown (at_.column - 1) ++ ['^', '-', '-', '-']) d.message
  | .stretch start stop =>
    let first := positionAt d.text start
    let last := positionAt d.text stop
    let shown := withoutLineEnds (d.line first.line)
    -- the last line is shown with its line end, and dots stand for the lines in between
    let continued :=
      if last.line = first.line then []
      else (if first.line + 1 < last.line then [(none, [])] else []) ++
        [(some last.line, withLineEndSigns (d.line last.line))]
    layout (toString (max first.line last.line)).length first
      ((some first.line, shown) :: continued)
      (stretchMark shown first.column last.column) d.message

end Diagnostic

end Acceptors.Text
