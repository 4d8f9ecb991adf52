/-!
# Lines of a text

`lines` cuts a text after each line feed. The line feed does not belong to the
line, nor does one carriage return right before it; a last line that no line
feed closes keeps its carriage returns, and it exists only if it has a
character. `trimBlank` takes spaces and tabs, and nothing else, off both ends.
-/

namespace Chaining

/-- Spaces and tabs. -/
def isBlank (c : Char) : Bool :=
  c == ' ' || c == '\t'

/-- The text without the blanks at either end. -/
def trimBlank (cs : List Char) : List Char :=
  ((cs.dropWhile isBlank).reverse.dropWhile isBlank).reverse

/-- A line, last character first, without the carriage return that ends it. -/
def dropReturn : List Char → List Char
  | '\r' :: line => line
  | line => line

/-- The lines of a text whose first line has already begun with `begun`, last
character first. -/
def linesFrom (begun : List Char) : List Char → List (List Char)
  | [] => if begun.isEmpty then [] else [begun.reverse]
  | '\n' :: rest => (dropReturn begun).reverse :: linesFrom [] rest
  | c :: rest => linesFrom (c :: begun) rest

/-- The lines of a text. -/
def lines (cs : List Char) : List (List Char) :=
  linesFrom [] cs

/-- A closed line and an open one: only the closed one loses its return. -/
example : lines "a\r\nb\r".toList = ["a".toList, "b\r".toList] := by decide

/-- A line feed at the end opens no further line. -/
example : lines "a\n".toList = ["a".toList] := by decide

end Chaining
