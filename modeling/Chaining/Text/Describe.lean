/-!
# Texts that show values

`Describe` gives a value the text by which diagnostics show it: numbers in
decimal, texts and characters in quotes with their special characters escaped,
an optional value as `Some(…)` or `None`. `record` and `mapping` put such texts
together; the braces and blanks they write are fixed here and nowhere else.
-/

namespace Chaining

universe u

/-- Values that diagnostics can show. -/
class Describe (α : Type u) where
  /-- The text that shows a value. -/
  describe : α → String

export Describe (describe)

instance : Describe Nat := ⟨fun n => toString n⟩
instance : Describe Int := ⟨fun n => toString n⟩
instance : Describe UInt8 := ⟨fun n => toString n.toNat⟩
instance : Describe UInt16 := ⟨fun n => toString n.toNat⟩
instance : Describe UInt32 := ⟨fun n => toString n.toNat⟩
instance : Describe UInt64 := ⟨fun n => toString n.toNat⟩
instance : Describe Int8 := ⟨fun n => toString n.toInt⟩
instance : Describe Int16 := ⟨fun n => toString n.toInt⟩
instance : Describe Int32 := ⟨fun n => toString n.toInt⟩
instance : Describe Int64 := ⟨fun n => toString n.toInt⟩
instance : Describe Bool := ⟨fun b => if b then "true" else "false"⟩

/-- A character inside quotes of the kind `quote`: the quote and the backslash
are marked by a backslash, line feed, carriage return, tab and NUL have letters
of their own, and other control characters are written by their number. -/
def escapeChar (quote c : Char) : String :=
  if c = quote ∨ c = '\\' then "\\" ++ c.toString
  else if c = '\n' then "\\n"
  else if c = '\r' then "\\r"
  else if c = '\t' then "\\t"
  else if c = '\x00' then "\\0"
  else if c.val < 32 ∨ c.val = 127 then
    "\\u\x7b" ++ String.ofList (Nat.toDigits 16 c.toNat) ++ "\x7d"
  else c.toString

instance : Describe Char :=
  ⟨fun c => "'" ++ escapeChar '\x27' c ++ "'"⟩

instance : Describe String :=
  ⟨fun s => "\"" ++ String.join (s.toList.map (escapeChar '\x22')) ++ "\""⟩

instance {α : Type u} [Describe α] : Describe (Option α) where
  describe
    | none => "None"
    | some a => "Some(" ++ describe a ++ ")"

/-- A record: its name, then its fields by name between braces. -/
def record (name : String) (fields : List (String × String)) : String :=
  name ++ " \x7b " ++ String.intercalate ", " (fields.map fun f => f.1 ++ ": " ++ f.2) ++ " \x7d"

/-- A named case that carries one value. -/
def variant (name value : String) : String :=
  name ++ "(" ++ value ++ ")"

/-- Pairs of texts on one line between braces. -/
def mapping (entries : List (String × String)) : String :=
  "\x7b" ++ String.intercalate ", " (entries.map fun e => e.1 ++ ": " ++ e.2) ++ "\x7d"

/-- Pairs of texts between braces, each on an indented line of its own. -/
def mappingOnLines (entries : List (String × String)) : String :=
  let line (e : String × String) := "    " ++ e.1 ++ ": " ++ e.2 ++ ",\n"
  if entries.isEmpty then "\x7b\x7d"
  else "\x7b\n" ++ String.join (entries.map line) ++ "\x7d"

end Chaining
