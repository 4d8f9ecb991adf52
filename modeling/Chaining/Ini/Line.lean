import Chaining.Text.Lines

/-!
# What one line of an INI text is

A line is read without the blanks around it. Empty lines and those that begin
with `#` or `;` are ignored. A line that begins with `[` is a header if it ends
in `]`; the name is what stands between, without the blanks around it. Any
other line assigns the text after its first `=` to the key before it.

`Line.ofChars` says which of these a line is, and which of the two rules a line
breaks that is none of them. Whether an assignment is in its place, and whether
its key may be empty, is not a matter of the line alone.
-/

namespace Chaining.Ini

/-- The kinds of line. -/
inductive Line where
  /-- An empty line or a comment. -/
  | ignored
  /-- The header of a section. -/
  | header (name : List Char)
  /-- A header that is not closed. -/
  | openHeader
  /-- A value for a key. -/
  | assignment (key value : List Char)
  /-- A line with no `=`. -/
  | noAssignment
  deriving DecidableEq, Repr

namespace Line

/-- What follows the `[` of a header line. -/
def ofHeader (rest : List Char) : Line :=
  if rest.getLast? = some ']' then .header (trimBlank rest.dropLast) else .openHeader

/-- A line that is neither ignored nor a header. -/
def ofPlain (line : List Char) : Line :=
  if '=' ∈ line then
    .assignment (trimBlank (line.takeWhile (· != '=')))
      (trimBlank ((line.dropWhile (· != '=')).drop 1))
  else .noAssignment

/-- What a line without blanks around it is. -/
def ofTrimmed : List Char → Line
  | [] => .ignored
  | '#' :: _ => .ignored
  | ';' :: _ => .ignored
  | '[' :: rest => ofHeader rest
  | line => ofPlain line

/-- What a line is. -/
def ofChars (line : List Char) : Line :=
  ofTrimmed (trimBlank line)

end Line

end Chaining.Ini
