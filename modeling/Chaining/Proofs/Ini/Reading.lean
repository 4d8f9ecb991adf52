import Chaining.Proofs.Ini.Store
import Chaining.Ini.File

/-!
# Reading an INI text line by line

`Breaks` says which lines are at fault, given the lines before them, and with which
error. `Records` is the invariant of reading: the maps hold what the lines read so far
say, each section what it was given wherever it was open. Reading one more line either
meets a fault, or keeps the invariant, or finds a map that has no room for another
pair (`Records.read`); reading a whole text is a sequence of such steps
(`Records.readAll`). There is no room only behind 2^59 lines with something on them.
-/

namespace Chaining.Ini

/-- The line breaks a rule, which gives that error. Errors name the line's number. -/
inductive Breaks (before : List (List Char)) : List Char → Error → Prop
  | openHeader {line : List Char} : Line.Of line .openHeader →
      Breaks before line (.missingSectionEnd (before.length + 1))
  | noAssignment {line : List Char} : Line.Of line .noAssignment →
      Breaks before line (.expectedKeyValue (before.length + 1))
  /-- No header precedes the assignment. -/
  | outside {line key value : List Char} : Line.Of line (.assignment key value) →
      (∀ l ∈ before, l.head? ≠ some '[') →
      Breaks before line (.keyOutsideSection (before.length + 1))
  /-- A header does, but there is nothing but blanks before the first `=`. -/
  | emptyKey {line value : List Char} : Line.Of line (.assignment [] value) →
      (∃ l ∈ before, l.head? = some '[') →
      Breaks before line (.emptyKey (before.length + 1))

/-- The maps hold what the lines say. -/
structure Records (done : List (List Char)) (p : Progress) : Prop where
  filled : p.sections.Filled (headers done)
  current_eq : p.current = governing done
  current_eq_none_iff : p.current = none ↔ ∀ l ∈ done, l.head? ≠ some '['
  holds : ∀ name sec, p.sections.get? name = some sec → sec.Holds (assigned done name)

/-- Reading one more line can come to that. -/
inductive Reads (done : List (List Char)) (line : List Char) : Progress.Step → Prop
  | broken {e : Error} {reports : Array Report} : Breaks done line e →
      Reads done line (.error (e, reports))
  | noRoom {e : StorageError} {reports : Array Report} : 2 ^ 59 ≤ written done →
      Reads done line (.error (.storage e, reports))
  | passed {p : Progress} : (∀ e, ¬ Breaks done line e) → Records (done ++ [line]) p →
      Reads done line (.ok p)

/-- Reading some more lines can come to that: it ends at the first line that cannot be
passed. -/
inductive ReadsAll : List (List Char) → List (List Char) → Progress.Step → Prop
  | nil {done : List (List Char)} {p : Progress} : Records done p → ReadsAll done [] (.ok p)
  | stop {done rest : List (List Char)} {line : List Char} {e : Error × Array Report} :
      Reads done line (.error e) → ReadsAll done (line :: rest) (.error e)
  | cons {done rest : List (List Char)} {line : List Char} {p : Progress}
      {step : Progress.Step} : Reads done line (.ok p) → ReadsAll (done ++ [line]) rest step →
      ReadsAll done (line :: rest) step

/-- The error of a line of that kind, if it breaks a rule. -/
def fault? (before : List (List Char)) : Line → Option Error
  | .openHeader => some (.missingSectionEnd (before.length + 1))
  | .noAssignment => some (.expectedKeyValue (before.length + 1))
  | .assignment key _ =>
    if ∀ l ∈ before, l.head? ≠ some '[' then some (.keyOutsideSection (before.length + 1))
    else if key = [] then some (.emptyKey (before.length + 1))
    else none
  | _ => none

section Breaks

variable {before : List (List Char)} {line : List Char}

theorem exists_head?_of_not (h : ¬ ∀ l ∈ before, l.head? ≠ some '[') :
    ∃ l ∈ before, l.head? = some '[' := by
  push Not at h
  exact h

theorem Breaks.fault?_eq {e : Error} (h : Breaks before line e) :
    fault? before (Line.ofTrimmed line) = some e := by
  cases h with
  | openHeader h => rw [h.ofTrimmed_eq, fault?]
  | noAssignment h => rw [h.ofTrimmed_eq, fault?]
  | outside h hnone => rw [h.ofTrimmed_eq, fault?, if_pos hnone]
  | emptyKey h hsome =>
    obtain ⟨l, hl, hhead⟩ := hsome
    rw [h.ofTrimmed_eq, fault?, if_neg fun hnone => hnone l hl hhead, if_pos rfl]

/-- Whether a line breaks a rule is settled by its kind and the lines before it. -/
theorem breaks_iff {e : Error} :
    Breaks before line e ↔ fault? before (Line.ofTrimmed line) = some e := by
  refine ⟨Breaks.fault?_eq, fun h => ?_⟩
  have hof := Line.of_ofTrimmed line
  cases hkind : Line.ofTrimmed line with
  | ignored =>
    rw [hkind] at h
    cases h
  | header inner =>
    rw [hkind] at h
    cases h
  | openHeader =>
    rw [hkind] at h hof
    cases h
    exact .openHeader hof
  | noAssignment =>
    rw [hkind] at h hof
    cases h
    exact .noAssignment hof
  | assignment key value =>
    rw [hkind] at h hof
    rw [fault?] at h
    split at h
    next hnone =>
      cases h
      exact .outside hof hnone
    next hsome =>
      split at h
      next hkey =>
        cases h
        rw [hkey] at hof
        exact .emptyKey hof (exists_head?_of_not hsome)
      next => cases h

/-- A line breaks one rule at most. -/
theorem Breaks.unique {e e' : Error} (h : Breaks before line e) (h' : Breaks before line e') :
    e = e' :=
  Option.some.inj (h.fault?_eq.symm.trans h'.fault?_eq)

theorem not_breaks {kind : Line} (h : Line.Of line kind) (hnone : fault? before kind = none)
    (e : Error) : ¬ Breaks before line e := by
  rw [breaks_iff, h.ofTrimmed_eq, hnone]
  exact Option.some_ne_none e ∘ Eq.symm

end Breaks

namespace Records

variable {done : List (List Char)} {p : Progress} {line : List Char}

theorem empty : Records [] {} where
  filled := .empty
  current_eq := rfl
  current_eq_none_iff := by simp
  holds name sec h := by
    rw [Map.get?_eq, Map.empty, Map.getPair?_ofSizing] at h
    cases h

theorem mem_headers_of_current (h : Records done p) {name : String}
    (hname : p.current = some name) : name ∈ headers done := by
  rw [h.current_eq] at hname
  exact List.mem_of_getLast? hname

/-- A line that says nothing. -/
theorem ignored (h : Records done p) (hline : Line.Of line .ignored) :
    Records (done ++ [line]) p where
  filled := by
    rw [headers_concat_of_ne hline fun _ h => by cases h]
    exact h.filled
  current_eq := by
    rw [governing, headers_concat_of_ne hline fun _ h => by cases h]
    exact h.current_eq
  current_eq_none_iff := by
    rw [h.current_eq_none_iff, List.forall_mem_append, List.forall_mem_singleton]
    exact (and_iff_left hline.head?_ignored).symm
  holds name sec hsec := by
    rw [assigned_concat_of_ne hline fun _ _ h => by cases h]
    exact h.holds name sec hsec

/-- A header opens its section, or opens it again. -/
theorem openSection (h : Records done p) {inner : List Char}
    (hline : Line.Of line (.header inner)) :
    Reads done line (p.openSection (String.ofList inner)) := by
  have hheaders : headers (done ++ [line]) = headers done ++ [String.ofList inner] :=
    headers_concat_header hline
  have hassigned : ∀ other, assigned (done ++ [line]) other = assigned done other :=
    assigned_concat_of_ne hline fun _ _ h => by cases h
  generalize String.ofList inner = name at hheaders ⊢
  have hcurrent : some name = governing (done ++ [line]) := by
    rw [governing, hheaders, List.getLast?_concat]
  have hopened : some name = none ↔ ∀ l ∈ done ++ [line], l.head? ≠ some '[' := by
    rw [List.forall_mem_append, List.forall_mem_singleton]
    exact iff_of_false (Option.some_ne_none name) fun hnone => hnone.2 hline.head?_header
  unfold Progress.openSection
  dsimp only
  split
  next hold =>
    refine .passed (not_breaks hline rfl) ⟨?_, hcurrent, hopened, ?_⟩
    · rw [hheaders]
      exact h.filled.concat_of_mem ((h.filled.contains_iff name).mp hold)
    · intro other sec hsec
      rw [hassigned]
      exact h.holds other sec hsec
  next hnew =>
    rw [h.filled.contains_iff] at hnew
    rcases h.filled.put_cases name (Map.empty Keying.text) with ⟨change, hput⟩ | ⟨⟨r, hput⟩, hroom⟩
    · rw [hput]
      refine .passed (not_breaks hline rfl) ⟨?_, hcurrent, hopened, ?_⟩
      · rw [hheaders]
        exact h.filled.put hput
      · intro other sec hsec
        rw [hassigned]
        have hget := h.filled.get?_put hput other
        by_cases hother : name = other
        · -- nothing can have been assigned in a section without a header
          rw [if_pos hother] at hget
          cases hget.symm.trans hsec
          rw [assigned_of_notMem (hother ▸ hnew)]
          exact .empty
        · rw [if_neg hother] at hget
          exact h.holds other sec (hget.symm.trans hsec)
    · rw [hput]
      exact .noRoom (Nat.le_trans hroom (length_headers_le done))

/-- An assignment goes into the section opened last. -/
theorem assign (h : Records done p) {key value : List Char} {name : String}
    (hline : Line.Of line (.assignment key value)) (hkey : key ≠ [])
    (hname : p.current = some name) :
    Reads done line (p.assign name (String.ofList key) (String.ofList value)) := by
  have hgoverning : governing done = some name := h.current_eq.symm.trans hname
  have hheaders : headers (done ++ [line]) = headers done :=
    headers_concat_of_ne hline fun _ h => by cases h
  have hassigned := assigned_concat_assignment hline hgoverning
  have hopened : ¬ ∀ l ∈ done, l.head? ≠ some '[' := by
    rw [← h.current_eq_none_iff, hname]
    exact Option.some_ne_none name
  have hfault : fault? done (.assignment key value) = none := by
    rw [fault?, if_neg hopened, if_neg hkey]
  unfold Progress.assign
  split
  next hs =>
    have hmem := (h.filled.contains_iff name).mpr (h.mem_headers_of_current hname)
    rw [Map.contains, hs] at hmem
    cases hmem
  next e hs =>
    have hget : p.sections.get? name = some e.value := by
      rw [Map.get?, hs]
      rfl
    have hsec := h.holds name e.value hget
    dsimp only
    rcases hsec.toFilled.put_cases (String.ofList key) (String.ofList value) with
      ⟨change, hput⟩ | ⟨⟨r, hput⟩, hroom⟩
    · rw [hput]
      refine .passed (not_breaks hline hfault) ⟨?_, ?_, ?_, ?_⟩
      · rw [hheaders]
        exact h.filled.mapValueAt hs _
      · rw [governing, hheaders]
        exact h.current_eq
      · show p.current = none ↔ _
        rw [h.current_eq_none_iff, List.forall_mem_append, List.forall_mem_singleton]
        exact (and_iff_left hline.head?_assignment).symm
      · intro other sec hother
        rw [hassigned]
        have hchanged := h.filled.get?_mapValueAt hs
          (fun _ => (e.value.put {} (String.ofList key) (String.ofList value)).map) other
        by_cases heq : name = other
        · subst heq
          rw [if_pos rfl] at hchanged ⊢
          cases hchanged.symm.trans hother
          exact hsec.put hput
        · rw [if_neg heq] at hchanged ⊢
          rw [List.append_nil]
          exact h.holds other sec (hchanged.symm.trans hother)
    · rw [hput]
      rw [List.length_map] at hroom
      exact .noRoom (Nat.le_trans hroom (length_assigned_le done name))

/-- Reading one more line. -/
theorem read (h : Records done p) (line : List Char) :
    Reads done line (p.read (done.length + 1) (Line.ofTrimmed line)) := by
  have hof := Line.of_ofTrimmed line
  cases hkind : Line.ofTrimmed line with
  | ignored =>
    rw [hkind] at hof
    exact .passed (not_breaks hof rfl) (h.ignored hof)
  | header inner =>
    rw [hkind] at hof
    exact h.openSection hof
  | openHeader =>
    rw [hkind] at hof
    exact .broken (.openHeader hof)
  | noAssignment =>
    rw [hkind] at hof
    exact .broken (.noAssignment hof)
  | assignment key value =>
    rw [hkind] at hof
    unfold Progress.read
    cases hname : p.current with
    | none => exact .broken (.outside hof (h.current_eq_none_iff.mp hname))
    | some name =>
      dsimp only
      split
      next hkey =>
        rw [List.isEmpty_iff.mp hkey] at hof
        refine .broken (.emptyKey hof (exists_head?_of_not ?_))
        rw [← h.current_eq_none_iff, hname]
        exact Option.some_ne_none name
      next hkey =>
        exact h.assign hof (fun hnil => hkey (List.isEmpty_iff.mpr hnil)) hname

theorem readAll (h : Records done p) (ls : List (List Char)) :
    ReadsAll done (ls.map trimBlank) (p.readAll (done.length + 1) ls) := by
  induction ls generalizing done p with
  | nil => exact .nil h
  | cons l rest ih =>
    have hread := h.read (trimBlank l)
    unfold Progress.readAll Line.ofChars
    cases hstep : p.read (done.length + 1) (Line.ofTrimmed (trimBlank l)) with
    | error e =>
      rw [hstep] at hread
      exact .stop hread
    | ok p' =>
      rw [hstep] at hread
      refine .cons hread ?_
      cases hread with
      | passed _ hrecords =>
        have hrest := ih hrecords
        rwa [List.length_append] at hrest

end Records

end Chaining.Ini
