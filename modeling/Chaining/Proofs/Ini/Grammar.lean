import Mathlib.Algebra.Ring.Nat
import Mathlib.Data.String.Basic
import Chaining.Ini.Line

/-!
# The grammar of INI lines

`Line.Of` says what each line without blanks around it is, by how it is made up:
a header is `[`, a name with blanks and `]`, an assignment a key without `=`, then `=`,
then a value. `Line.ofTrimmed` reads lines by that grammar (`ofTrimmed_eq_iff`), so each
line is of exactly one kind.

A line that is not empty takes two bytes of a text, with the line feed that sets it off
from the next line; so there are at most half as many as bytes (`two_mul_written_le`).
-/

namespace Chaining

/-! ## Lengths of lines -/

theorem length_dropReturn_le (line : List Char) : (dropReturn line).length ≤ line.length := by
  unfold dropReturn
  split
  next => exact Nat.le_succ _
  next => exact Nat.le_refl _

/-- Lines and the line feeds behind them come to no more than the text, but for the one
that may be missing behind the last line. -/
theorem sum_length_linesFrom_le (begun cs : List Char) :
    ((linesFrom begun cs).map fun line => line.length + 1).sum ≤
      begun.length + cs.length + 1 := by
  fun_induction linesFrom begun cs with
  | case1 begun _ => exact Nat.zero_le _
  | case2 begun _ => simp
  | case3 begun rest ih =>
    have hreturn := length_dropReturn_le begun
    simp only [List.map_cons, List.sum_cons, List.length_reverse, List.length_cons,
      List.length_nil] at ih ⊢
    omega
  | case4 begun c rest _ ih =>
    simp only [List.length_cons] at ih ⊢
    omega

theorem length_trimBlank_le (cs : List Char) : (trimBlank cs).length ≤ cs.length := by
  unfold trimBlank
  rw [List.length_reverse]
  calc _ ≤ (cs.dropWhile isBlank).reverse.length := (List.dropWhile_sublist _).length_le
    _ = (cs.dropWhile isBlank).length := List.length_reverse
    _ ≤ cs.length := (List.dropWhile_sublist _).length_le

theorem length_le_utf8Len (cs : List Char) : cs.length ≤ String.utf8Len cs := by
  induction cs with
  | nil => exact Nat.le_refl _
  | cons c cs ih =>
    have hc := Char.utf8Size_pos c
    rw [List.length_cons, String.utf8Len_cons]
    omega

namespace Ini

/-- The lines of a text without the blanks around them. -/
def trimmedLines (text : String) : List (List Char) :=
  (lines text.toList).map trimBlank

/-- The number of lines that are not empty. -/
def written (ls : List (List Char)) : Nat :=
  ls.countP fun line => !line.isEmpty

theorem two_mul_written_le_sum (ls : List (List Char)) :
    2 * written ls ≤ (ls.map fun line => line.length + 1).sum := by
  unfold written
  induction ls with
  | nil => exact Nat.le_refl _
  | cons line ls ih =>
    rw [List.countP_cons, List.map_cons, List.sum_cons]
    cases line with
    | nil =>
      simp only [List.isEmpty_nil, Bool.not_true, Bool.false_eq_true, if_false, List.length_nil]
      omega
    | cons c line =>
      simp only [List.isEmpty_cons, Bool.not_false, if_true, List.length_cons]
      omega

theorem sum_length_trimBlank_le (ls : List (List Char)) :
    ((ls.map trimBlank).map fun line => line.length + 1).sum ≤
      (ls.map fun line => line.length + 1).sum := by
  induction ls with
  | nil => exact Nat.le_refl _
  | cons line ls ih =>
    have hline := length_trimBlank_le line
    simp only [List.map_cons, List.sum_cons] at ih ⊢
    omega

/-- Before any line of a text there are at most half as many lines with a character as
the text has bytes. -/
theorem two_mul_written_le {text : String} {before after : List (List Char)} {line : List Char}
    (h : trimmedLines text = before ++ line :: after) :
    2 * written before ≤ text.utf8ByteSize := by
  have hlines : ((lines text.toList).map fun line => line.length + 1).sum ≤
      0 + text.toList.length + 1 := sum_length_linesFrom_le [] text.toList
  have hbytes := length_le_utf8Len text.toList
  have hsum := sum_length_trimBlank_le (lines text.toList)
  rw [String.utf8Len_toList] at hbytes
  rw [show (lines text.toList).map trimBlank = before ++ line :: after from h, List.map_append,
    List.sum_append, List.map_cons, List.sum_cons] at hsum
  have hbefore := two_mul_written_le_sum before
  omega

/-! ## Kinds of line -/

/-- A line with a character of which the first is none of those that begin comments and
headers. -/
def Plain (line : List Char) : Prop :=
  ∃ c rest, line = c :: rest ∧ c ≠ '#' ∧ c ≠ ';' ∧ c ≠ '['

namespace Line

/-- What a line without blanks around it is. -/
inductive Of : List Char → Line → Prop
  | empty : Of [] .ignored
  | comment {c : Char} {rest : List Char} : c = '#' ∨ c = ';' → Of (c :: rest) .ignored
  | header (inner : List Char) : Of ('[' :: (inner ++ [']'])) (.header (trimBlank inner))
  | openHeader {rest : List Char} : (∀ inner, rest ≠ inner ++ [']']) →
      Of ('[' :: rest) .openHeader
  /-- The key ends before the first `=`. -/
  | assignment {key value : List Char} : Plain (key ++ '=' :: value) → '=' ∉ key →
      Of (key ++ '=' :: value) (.assignment (trimBlank key) (trimBlank value))
  | noAssignment {line : List Char} : Plain line → '=' ∉ line → Of line .noAssignment

theorem ofTrimmed_plain {line : List Char} (h : Plain line) : ofTrimmed line = ofPlain line := by
  obtain ⟨c, rest, rfl, hhash, hsemicolon, hbracket⟩ := h
  unfold ofTrimmed
  split <;> simp_all

/-- A key goes up to the first `=`. -/
theorem ofPlain_append {key : List Char} (hkey : '=' ∉ key) (value : List Char) :
    ofPlain (key ++ '=' :: value) = .assignment (trimBlank key) (trimBlank value) := by
  have hbefore : ∀ c ∈ key, (c != '=') = true := by
    intro c hc
    exact bne_iff_ne.mpr fun h => hkey (h ▸ hc)
  unfold ofPlain
  rw [if_pos (by simp), List.takeWhile_append_of_pos hbefore,
    List.dropWhile_append_of_pos hbefore]
  simp

theorem Of.ofTrimmed_eq {line : List Char} {kind : Line} (h : Of line kind) :
    ofTrimmed line = kind := by
  cases h with
  | empty => rfl
  | comment hc => rcases hc with rfl | rfl <;> rfl
  | header inner => simp [ofTrimmed, ofHeader]
  | @openHeader rest hrest =>
    refine if_neg fun hlast => ?_
    obtain ⟨inner, hinner⟩ := List.getLast?_eq_some_iff.mp hlast
    exact hrest inner hinner
  | assignment hplain hkey => rw [ofTrimmed_plain hplain, ofPlain_append hkey]
  | noAssignment hplain hnone => rw [ofTrimmed_plain hplain, ofPlain, if_neg hnone]

theorem of_ofTrimmed (line : List Char) : Of line (ofTrimmed line) := by
  cases line with
  | nil => exact .empty
  | cons c rest =>
    by_cases hcomment : c = '#' ∨ c = ';'
    · have hof : Of (c :: rest) .ignored := .comment hcomment
      rwa [hof.ofTrimmed_eq]
    · rw [not_or] at hcomment
      by_cases hbracket : c = '['
      · subst hbracket
        by_cases hlast : ∃ inner, rest = inner ++ [']']
        · obtain ⟨inner, rfl⟩ := hlast
          have hof := Of.header inner
          rwa [hof.ofTrimmed_eq]
        · have hof : Of ('[' :: rest) .openHeader := .openHeader (not_exists.mp hlast)
          rwa [hof.ofTrimmed_eq]
      · have hplain : Plain (c :: rest) := ⟨c, rest, rfl, hcomment.1, hcomment.2, hbracket⟩
        by_cases hmem : '=' ∈ c :: rest
        · obtain ⟨key, value, hline, hkey⟩ := List.eq_append_cons_of_mem hmem
          rw [hline] at hplain ⊢
          have hof := Of.assignment hplain hkey
          rwa [hof.ofTrimmed_eq]
        · have hof := Of.noAssignment hplain hmem
          rwa [hof.ofTrimmed_eq]

theorem Of.head?_header {line inner : List Char} (h : Of line (.header inner)) :
    line.head? = some '[' := by
  cases h
  rfl

theorem Of.head?_ignored {line : List Char} (h : Of line .ignored) : line.head? ≠ some '[' := by
  cases h with
  | empty => simp
  | comment hc => rcases hc with rfl | rfl <;> simp

theorem Of.head?_assignment {line key value : List Char} (h : Of line (.assignment key value)) :
    line.head? ≠ some '[' := by
  cases h with
  | assignment hplain _ =>
    obtain ⟨c, rest, hline, _, _, hbracket⟩ := hplain
    rw [hline]
    simpa using hbracket

/-- Lines are read by the grammar. -/
theorem ofTrimmed_eq_iff {line : List Char} {kind : Line} :
    ofTrimmed line = kind ↔ Of line kind := by
  constructor
  · rintro rfl
    exact of_ofTrimmed line
  · exact Of.ofTrimmed_eq

end Line

end Ini

end Chaining
