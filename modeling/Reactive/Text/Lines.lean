/-!
# Reactive.Text.Lines — the lines of a text

A line feed ends a line, and a carriage return right before it belongs to the end.  What follows the last line feed is a
line too, unless it is empty.
-/

namespace Reactive.Text

/-- A line without the carriage return before its end. -/
def dropReturn (line : List Char) : List Char :=
  if line.getLast? = some '\r' then line.dropLast else line

/-- The lines of a text, `line` being what has been read of the first one. -/
def linesFrom (line : List Char) : List Char → List (List Char)
  | [] => if line.isEmpty then [] else [line]
  | c :: cs => if c = '\n' then dropReturn line :: linesFrom [] cs else linesFrom (line ++ [c]) cs

/-- The lines of a text. -/
def lines (s : String) : List String := (linesFrom [] s.toList).map String.ofList

end Reactive.Text
