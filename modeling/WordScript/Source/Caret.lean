/-
A message that points into a source text.

The message is followed by the line it is about, behind a gutter with the line's
number, and by a caret under the column.  A position outside the text shows an
empty line.
-/
import WordScript.Token.Basic

namespace WordScript.Source

/-- A line without the carriage return that goes with its newline. -/
def withoutReturn (l : String) : String :=
  match l.toList.reverse with
  | '\r' :: cs => String.ofList cs.reverse
  | _ => l

/-- The lines of a text.  A final newline opens no further line, and only a carriage return before
a newline is part of the line's end. -/
def lines (source : String) : List String :=
  match (source.splitOn "\n").reverse with
  | [] => []
  | last :: others =>
    let ended := others.reverse.map withoutReturn
    if last = "" then ended else ended ++ [last]

/-- The message at a position of a source text, with the line and a caret. -/
def caret (source : String) (at_ : Position) (message : String) : String :=
  let text := (lines source)[at_.line - 1]?.getD ""
  let gutter := toString at_.line ++ " | "
  let margin := String.ofList (List.replicate (gutter.length + (at_.col - 1)) ' ')
  toString at_.line ++ ":" ++ toString at_.col ++ ": " ++ message ++ "\n"
    ++ gutter ++ text ++ "\n" ++ margin ++ "^"

end WordScript.Source
