/-!
# Lines of a text

A line ends with a line feed, or with a carriage return and a line feed; the ends are not
part of the lines, and nothing after the last line feed is no line.
-/

namespace Hocon.Text

/-- The line without the carriage return of its end. -/
def dropReturn (line : List Char) : List Char :=
  if line.getLast? = some '\r' then line.dropLast else line

/-- The lines of `cs`, where `current` holds the characters of the open line, last first. -/
def linesFrom (current : List Char) : List Char → List (List Char)
  | [] => if current.isEmpty then [] else [current.reverse]
  | c :: cs =>
    if c == '\n' then dropReturn current.reverse :: linesFrom [] cs
    else linesFrom (c :: current) cs

/-- The lines of a text. -/
def lines (cs : List Char) : List (List Char) :=
  linesFrom [] cs

end Hocon.Text
