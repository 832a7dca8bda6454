/-!
# Lines of a text

`lines` splits a text at its line ends. A line end is a line feed, or a carriage return followed by
a line feed; a line end at the end of the text does not start another line.
-/

namespace DependentCore.Text

/-- The lines of the characters that remain, where `line` are the characters of the current line,
the last one first. -/
def linesFrom (line : List Char) : List Char → List (List Char)
  | [] => if line.isEmpty then [] else [line.reverse]
  | '\r' :: '\n' :: rest => line.reverse :: linesFrom [] rest
  | '\n' :: rest => line.reverse :: linesFrom [] rest
  | c :: rest => linesFrom (c :: line) rest

/-- The lines of a text. -/
def lines (s : String) : List String :=
  (linesFrom [] s.toList).map String.ofList

end DependentCore.Text
