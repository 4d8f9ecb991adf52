import Mathlib.Data.Set.Card
import Chaining.Proofs.Ini.Faults

/-!
# What an INI file holds

A file that has been read has the sections of which its text has headers, and in each
section the keys assigned under any of the section's headers, with the value assigned
last (`parse_contents`). The order of lines counts, the maps do not: where a section is
opened again it goes on with the keys it has.
-/

namespace Chaining.Ini

variable {ls : List (List Char)} {p : Progress} {name key value : String}

namespace Records

theorem contains_iff (h : Records ls p) (name : String) :
    p.sections.contains name = true ↔ ∃ line ∈ ls, Line.Of line (.header name.toList) := by
  rw [h.filled.contains_iff, mem_headers]

theorem len_eq (h : Records ls p) :
    p.sections.len = {name : String | ∃ line ∈ ls, Line.Of line (.header name.toList)}.ncard := by
  have hset : {name : String | ∃ line ∈ ls, Line.Of line (.header name.toList)} =
      (headers ls).toFinset := by
    ext name
    simp [mem_headers]
  rw [h.filled.len_eq, hset, Set.ncard_coe_finset]

/-- A key of a section that is not there has not been assigned to. -/
theorem get?_eq (h : Records ls p) (name key : String) :
    (⟨p.sections⟩ : File).get? name key = lastOf (assigned ls name) key := by
  show (p.sections.get? name).bind (fun sec => sec.get? key) = _
  cases hsec : p.sections.get? name with
  | some sec => exact (h.holds name sec hsec).get?_eq key
  | none =>
    have hnot : name ∉ headers ls := by
      rw [← h.filled.contains_iff, Map.contains_eq]
      rw [Map.get?_eq, Option.map_eq_none_iff] at hsec
      rw [hsec]
      exact Bool.false_ne_true
    rw [assigned_of_notMem hnot]
    rfl

theorem len_section (h : Records ls p) {sec : Section} (hsec : p.sections.get? name = some sec) :
    sec.len = {key : String | ∃ before line after value, ls = before ++ line :: after ∧
      Assigns before line name key value}.ncard := by
  have hset : {key : String | ∃ before line after value, ls = before ++ line :: after ∧
      Assigns before line name key value} = ((assigned ls name).map Prod.fst).toFinset := by
    ext key
    rw [Set.mem_ofPred_eq, ← mem_keys_assigned]
    simp
  rw [(h.holds name sec hsec).len_eq, hset, Set.ncard_coe_finset]

end Records

/-- The sections of a file that has been read, their number, the value under each key of
each, and the number of keys. -/
theorem parse_contents {text : String} {f : File} (h : (File.parse text).result = .ok f) :
    (∀ name, f.containsSection name = true ↔
        ∃ line ∈ trimmedLines text, Line.Of line (.header name.toList)) ∧
      f.len = {name : String | ∃ line ∈ trimmedLines text,
        Line.Of line (.header name.toList)}.ncard ∧
      (∀ name key value, f.get? name key = some value ↔
        ∃ before line after, trimmedLines text = before ++ line :: after ∧
          Assigns before line name key value ∧
          ∀ mid l rest, after = mid ++ l :: rest →
            ∀ other, ¬ Assigns (before ++ line :: mid) l name key other) ∧
      ∀ name, (f.section? name).isSome = f.containsSection name ∧
        ∀ sec, f.section? name = some sec →
          sec.len = {key : String | ∃ before line after value,
            trimmedLines text = before ++ line :: after ∧
              Assigns before line name key value}.ncard := by
  obtain ⟨p, rfl, _, hrecords⟩ := records_of_parse h
  refine ⟨hrecords.contains_iff, hrecords.len_eq, fun name key value => ?_, fun name => ⟨?_, ?_⟩⟩
  · rw [hrecords.get?_eq]
    exact lastOf_assigned_eq_some_iff
  · show (p.sections.get? name).isSome = p.sections.contains name
    rw [Map.get?_eq, Option.isSome_map, ← Map.contains_eq]
  · intro sec hsec
    exact hrecords.len_section hsec

/-- A text in which section `a` is opened again. -/
def reopened : String :=
  "[a]\ni = 1\nk = 1\n[b]\n[ a ]\nk = 2"

/-- The section keeps what it has, and what is assigned again has the later value. -/
theorem parse_contents_reopened :
    ∃ f, (File.parse reopened).result = .ok f ∧
      f.get? "a" "i" = some "1" ∧ f.get? "a" "k" = some "2" := by
  refine ⟨_, rfl, rfl, ?_⟩
  have hget := (@parse_contents reopened _ rfl).2.2.1 "a" "k" "2"
  let front := ["[a]".toList, "i = 1".toList, "k = 1".toList, "[b]".toList]
  have hlines : trimmedLines reopened = (front ++ ["[ a ]".toList]) ++ "k = 2".toList :: [] := by
    decide
  refine hget.mpr ⟨_, _, _, hlines, ⟨⟨front, _, [], rfl, ?_, by simp⟩, ?_⟩, by simp⟩
  · exact Line.of_ofTrimmed _
  · exact Line.of_ofTrimmed _

end Chaining.Ini
