import Chaining.StorageError

/-!
# Why an INI text could not be read

The text may not be there or not be text at all, a line may break one of four
rules, or a map may refuse a pair. Errors of lines carry the line's number,
counted from one.
-/

namespace Chaining.Ini

/-- Why there is no text to read. -/
inductive SourceError where
  /-- There is no such file. -/
  | notFound
  /-- The bytes are not UTF-8. -/
  | notText
  deriving DecidableEq, Repr

namespace SourceError

/-- The sentence that reports the error. -/
def message : SourceError → String
  | notFound => "No such file or directory (os error 2)"
  | notText => "stream did not contain valid UTF-8"

instance : Describe SourceError where
  describe
    | notFound => record "Os"
      [("code", "2"), ("kind", "NotFound"), ("message", describe "No such file or directory")]
    | notText => record "Error"
      [("kind", "InvalidData"), ("message", describe "stream did not contain valid UTF-8")]

end SourceError

/-- Why an INI text could not be read. -/
inductive Error where
  /-- There is no text. -/
  | source (error : SourceError)
  /-- A header is not closed. -/
  | missingSectionEnd (line : Nat)
  /-- A line has no `=`. -/
  | expectedKeyValue (line : Nat)
  /-- No header precedes the line. -/
  | keyOutsideSection (line : Nat)
  /-- Nothing but blanks precedes the `=`. -/
  | emptyKey (line : Nat)
  /-- A map refused a pair. -/
  | storage (error : StorageError)
  deriving DecidableEq, Repr

namespace Error

/-- The sentence that reports the error. -/
def message : Error → String
  | source error => "IO error: " ++ error.message
  | missingSectionEnd line => s!"expected closing ']' on line {line}"
  | expectedKeyValue line => s!"expected key=value notation on line {line}"
  | keyOutsideSection line => s!"key=value mapping without valid section on line {line}"
  | emptyKey line => s!"empty key on line {line}"
  | storage error => "map error: " ++ error.message

/-- The number of the line at fault, if it is a line's. -/
def line? : Error → Option Nat
  | missingSectionEnd line | expectedKeyValue line | keyOutsideSection line | emptyKey line =>
    some line
  | source _ | storage _ => none

instance : Describe Error where
  describe
    | source error => variant "Io" (describe error)
    | missingSectionEnd line => record "MissingSectionEnd" [("line", describe line)]
    | expectedKeyValue line => record "ExpectedKeyValue" [("line", describe line)]
    | keyOutsideSection line => record "KeyOutsideSection" [("line", describe line)]
    | emptyKey line => record "EmptyKey" [("line", describe line)]
    | storage error => variant "Map" (describe error)

end Error

end Chaining.Ini
