import Mathlib.Data.List.Induction
import Chaining.Proofs.Ini.Grammar

/-!
# What an INI text says

The meaning of a text, line by line and without any map. `headers` are the names of its
header lines. A line is governed by the nearest header before it (`governing`), and an
assignment that is governed by one is a `Setting`; `settings` are all of them, in order.
Sections are not kept apart on the way: those opened again have their settings at
several places, and `assigned` collects them.

Each of these is also said without the functions, by how the lines stand to one
another: `mem_headers`, `governing_eq_some_iff`, `mem_settings` and, for the last line
that assigns to a key, `lastOf_assigned_eq_some_iff`.
-/

namespace Chaining

universe u v

/-! ## Lines with the lines before them -/

section Along

variable {α : Type u} {β : Type v} {g : List α → α → Option β}

/-- What `g` finds on each of some lines, given those before it. -/
def along (g : List α → α → Option β) (before : List α) : List α → List β
  | [] => []
  | a :: rest => (g before a).toList ++ along g (before ++ [a]) rest

theorem along_append (before xs ys : List α) :
    along g before (xs ++ ys) = along g before xs ++ along g (before ++ xs) ys := by
  induction xs generalizing before with
  | nil => simp [along]
  | cons x xs ih => simp [along, ih]

theorem along_filterMap {γ : Type*} (f : β → Option γ) (before ls : List α) :
    (along g before ls).filterMap f = along (fun b a => (g b a).bind f) before ls := by
  induction ls generalizing before with
  | nil => rfl
  | cons a rest ih =>
    unfold along
    rw [List.filterMap_append, ih]
    cases g before a with
    | none => rfl
    | some b => cases hb : f b <;> simp [hb]

theorem along_concat (ls : List α) (x : α) :
    along g [] (ls ++ [x]) = along g [] ls ++ (g ls x).toList := by
  rw [along_append]
  simp [along]

/-- A list with one more element is split at that element or before it. -/
theorem exists_split_concat {P : List α → α → List α → Prop} {ls : List α} {x : α} :
    (∃ front a back, ls ++ [x] = front ++ a :: back ∧ P front a back) ↔
      P ls x [] ∨ ∃ front a back, ls = front ++ a :: back ∧ P front a (back ++ [x]) := by
  constructor
  · rintro ⟨front, a, back, hls, h⟩
    rcases List.eq_nil_or_concat back with rfl | ⟨back, y, rfl⟩
    · obtain ⟨rfl, hx⟩ := List.append_inj' hls rfl
      obtain rfl := List.singleton_inj.mp hx
      exact Or.inl h
    · rw [List.concat_eq_append, ← List.cons_append, ← List.append_assoc] at hls
      obtain ⟨rfl, hx⟩ := List.append_inj' hls rfl
      obtain rfl := List.singleton_inj.mp hx
      exact Or.inr ⟨front, a, back, rfl, by rwa [List.concat_eq_append] at h⟩
  · rintro (h | ⟨front, a, back, rfl, h⟩)
    · exact ⟨ls, x, [], rfl, h⟩
    · exact ⟨front, a, back ++ [x], by simp, h⟩

theorem mem_along {ls : List α} {b : β} :
    b ∈ along g [] ls ↔ ∃ front a back, ls = front ++ a :: back ∧ g front a = some b := by
  induction ls using List.reverseRecOn with
  | nil => simp [along]
  | append_singleton ls x ih =>
    rw [along_concat, List.mem_append, Option.mem_toList, ih,
      exists_split_concat (P := fun front a _ => g front a = some b), or_comm]

/-- What is found last is found on a line behind which nothing is found. -/
theorem getLast?_along_eq_some_iff {ls : List α} {b : β} :
    (along g [] ls).getLast? = some b ↔
      ∃ front a back, ls = front ++ a :: back ∧ g front a = some b ∧
        ∀ mid x rest, back = mid ++ x :: rest → g (front ++ a :: mid) x = none := by
  induction ls using List.reverseRecOn with
  | nil => simp [along]
  | append_singleton ls x ih =>
    have hbehind : ∀ front a back,
        (∀ mid y rest, back ++ [x] = mid ++ y :: rest → g (front ++ a :: mid) y = none) ↔
          g (front ++ a :: back) x = none ∧
            ∀ mid y rest, back = mid ++ y :: rest → g (front ++ a :: mid) y = none := by
      intro front a back
      have hsplit :=
        @exists_split_concat α (fun mid y _ => g (front ++ a :: mid) y ≠ none) back x
      simpa using not_congr hsplit
    rw [along_concat, exists_split_concat]
    simp only [hbehind]
    cases hx : g ls x with
    | none =>
      rw [Option.toList_none, List.append_nil, ih]
      constructor
      · rintro ⟨front, a, back, rfl, hb, h⟩
        exact Or.inr ⟨front, a, back, rfl, hb, hx, h⟩
      · rintro (⟨hnone, _⟩ | ⟨front, a, back, rfl, hb, _, h⟩)
        · cases hnone
        · exact ⟨front, a, back, rfl, hb, h⟩
    | some c =>
      rw [Option.toList_some, List.getLast?_concat]
      constructor
      · intro hc
        exact Or.inl ⟨hc, fun mid y rest h => absurd h (by simp)⟩
      · rintro (⟨hc, _⟩ | ⟨front, a, back, rfl, _, hnone, _⟩)
        · exact hc
        · rw [hx] at hnone
          cases hnone

end Along

/-- The last value under a key. -/
def lastOf {V : Type v} (pairs : List (String × V)) (key : String) : Option V :=
  (pairs.filterMap fun x => if x.1 = key then some x.2 else none).getLast?

theorem lastOf_concat {V : Type v} (pairs : List (String × V)) (key : String) (value : V)
    (other : String) :
    lastOf (pairs ++ [(key, value)]) other =
      if key = other then some value else lastOf pairs other := by
  unfold lastOf
  rw [List.filterMap_append]
  split
  next h => simp [h]
  next h => simp [h]

/-- Where keys are told apart, the last value under a key is the one under it. -/
theorem lastOf_eq_some_iff {V : Type v} {pairs : List (String × V)}
    (h : (pairs.map Prod.fst).Nodup) {key : String} {value : V} :
    lastOf pairs key = some value ↔ (key, value) ∈ pairs := by
  induction pairs using List.reverseRecOn with
  | nil => simp [lastOf]
  | append_singleton pairs pair ih =>
    obtain ⟨last, lastValue⟩ := pair
    rw [List.map_append, List.nodup_append] at h
    obtain ⟨hpairs, _, hapart⟩ := h
    rw [lastOf_concat, List.mem_append, List.mem_singleton]
    by_cases hkey : last = key
    · subst hkey
      have hnot : (last, value) ∉ pairs := fun hmem =>
        hapart last (List.mem_map_of_mem hmem) last (by simp) rfl
      rw [if_pos rfl, Option.some_inj]
      constructor
      · rintro rfl
        exact Or.inr rfl
      · rintro (hmem | heq)
        · exact absurd hmem hnot
        · exact (Prod.mk.inj heq).2.symm
    · rw [if_neg hkey, ih hpairs]
      constructor
      · exact Or.inl
      · rintro (hmem | heq)
        · exact hmem
        · exact absurd (Prod.mk.inj heq).1.symm hkey

namespace Ini

/-! ## Headers and settings -/

/-- A value given to a key of a section. -/
structure Setting where
  name : String
  key : String
  value : String
  deriving DecidableEq, Repr

/-- The name in a header. -/
def Line.header? : Line → Option String
  | .header name => some (String.ofList name)
  | _ => none

/-- The names of all header lines, in order. -/
def headers (ls : List (List Char)) : List String :=
  ls.filterMap fun line => (Line.ofTrimmed line).header?

/-- The name in the last header line. -/
def governing (ls : List (List Char)) : Option String :=
  (headers ls).getLast?

/-- What a line sets, given the lines before it. -/
def setting? (before : List (List Char)) (line : List Char) : Option Setting :=
  match governing before, Line.ofTrimmed line with
  | some name, .assignment key value => some ⟨name, String.ofList key, String.ofList value⟩
  | _, _ => none

/-- All that is set, in order. -/
def settings (ls : List (List Char)) : List Setting :=
  along setting? [] ls

/-- The keys and values of one section, from all places where it is open. -/
def assigned (ls : List (List Char)) (name : String) : List (String × String) :=
  (settings ls).filterMap fun x => if x.name = name then some (x.key, x.value) else none

theorem headers_concat (ls : List (List Char)) (line : List Char) :
    headers (ls ++ [line]) = headers ls ++ (Line.ofTrimmed line).header?.toList := by
  unfold headers
  rw [List.filterMap_append]
  cases h : (Line.ofTrimmed line).header? <;> simp [h]

theorem settings_concat (ls : List (List Char)) (line : List Char) :
    settings (ls ++ [line]) = settings ls ++ (setting? ls line).toList :=
  along_concat ls line

theorem assigned_concat (ls : List (List Char)) (line : List Char) (name : String) :
    assigned (ls ++ [line]) name = assigned ls name ++ ((setting? ls line).toList.filterMap
      fun x => if x.name = name then some (x.key, x.value) else none) := by
  unfold assigned
  rw [settings_concat, List.filterMap_append]

section OneMore

variable {ls : List (List Char)} {line : List Char} {kind : Line}

theorem headers_concat_header {inner : List Char} (h : Line.Of line (.header inner)) :
    headers (ls ++ [line]) = headers ls ++ [String.ofList inner] := by
  rw [headers_concat, h.ofTrimmed_eq]
  rfl

theorem headers_concat_of_ne (h : Line.Of line kind) (hkind : ∀ inner, kind ≠ .header inner) :
    headers (ls ++ [line]) = headers ls := by
  rw [headers_concat, h.ofTrimmed_eq]
  cases kind with
  | header inner => exact absurd rfl (hkind inner)
  | _ => exact List.append_nil _

theorem assigned_concat_of_ne (h : Line.Of line kind)
    (hkind : ∀ key value, kind ≠ .assignment key value) (name : String) :
    assigned (ls ++ [line]) name = assigned ls name := by
  have hnone : setting? ls line = none := by
    unfold setting?
    rw [h.ofTrimmed_eq]
    split
    next key value _ => exact absurd rfl (hkind key value)
    next => rfl
  rw [assigned_concat, hnone]
  exact List.append_nil _

/-- An assignment belongs to the section that governs it. -/
theorem assigned_concat_assignment {key value : List Char}
    (h : Line.Of line (.assignment key value)) {name : String}
    (hname : governing ls = some name) (other : String) :
    assigned (ls ++ [line]) other = assigned ls other ++
      if name = other then [(String.ofList key, String.ofList value)] else [] := by
  have hsome : setting? ls line = some ⟨name, String.ofList key, String.ofList value⟩ := by
    unfold setting?
    rw [h.ofTrimmed_eq, hname]
  rw [assigned_concat, hsome]
  split
  next heq => simp [heq]
  next hne => simp [hne]

end OneMore

/-- A section in which something is set has a header. -/
theorem mem_headers_of_mem_settings {ls : List (List Char)} {x : Setting}
    (h : x ∈ settings ls) : x.name ∈ headers ls := by
  obtain ⟨before, line, after, rfl, hx⟩ := mem_along.mp h
  have hname : x.name ∈ headers before := by
    unfold setting? at hx
    split at hx
    next name _ _ hgoverning _ =>
      cases hx
      exact List.mem_of_getLast? hgoverning
    next => cases hx
  unfold headers
  rw [List.filterMap_append]
  exact List.mem_append_left _ hname

theorem assigned_of_notMem {ls : List (List Char)} {name : String} (h : name ∉ headers ls) :
    assigned ls name = [] := by
  refine List.filterMap_eq_nil_iff.mpr fun x hx => if_neg fun hname => h ?_
  exact hname ▸ mem_headers_of_mem_settings hx

theorem length_headers_le (ls : List (List Char)) : (headers ls).length ≤ written ls := by
  induction ls using List.reverseRecOn with
  | nil => exact Nat.le_refl _
  | append_singleton ls line ih =>
    rw [headers_concat, written, List.countP_append, List.length_append]
    cases line with
    | nil => exact Nat.add_le_add ih (Nat.le_refl _)
    | cons c rest => exact Nat.add_le_add ih (Option.length_toList_le)

theorem length_settings_le (ls : List (List Char)) : (settings ls).length ≤ written ls := by
  induction ls using List.reverseRecOn with
  | nil => exact Nat.le_refl _
  | append_singleton ls line ih =>
    rw [settings_concat, written, List.countP_append, List.length_append]
    cases line with
    | nil =>
      have hnone : setting? ls [] = none := by
        unfold setting?
        split
        next h => cases h
        next => rfl
      rw [hnone]
      exact Nat.add_le_add ih (Nat.le_refl _)
    | cons c rest => exact Nat.add_le_add ih (Option.length_toList_le)

theorem length_assigned_le (ls : List (List Char)) (name : String) :
    (assigned ls name).length ≤ written ls :=
  Nat.le_trans (List.length_filterMap_le _ _) (length_settings_le ls)

/-! ## How lines stand to one another -/

/-- The nearest header line before has that name. -/
def Governs (before : List (List Char)) (name : String) : Prop :=
  ∃ front line back, before = front ++ line :: back ∧ Line.Of line (.header name.toList) ∧
    ∀ l ∈ back, ∀ other, ¬ Line.Of l (.header other)

/-- A line assigns that value to that key of that section. -/
def Assigns (before : List (List Char)) (line : List Char) (name key value : String) : Prop :=
  Governs before name ∧ Line.Of line (.assignment key.toList value.toList)

theorem header?_eq_some_iff {line : List Char} {name : String} :
    (Line.ofTrimmed line).header? = some name ↔ Line.Of line (.header name.toList) := by
  rw [← Line.ofTrimmed_eq_iff]
  constructor
  · intro h
    unfold Line.header? at h
    split at h
    next inner hline =>
      cases h
      rw [hline, String.toList_ofList]
    next => cases h
  · intro h
    rw [h, Line.header?, String.ofList_toList]

theorem header?_eq_none_iff {line : List Char} :
    (Line.ofTrimmed line).header? = none ↔ ∀ inner, ¬ Line.Of line (.header inner) := by
  rw [Option.eq_none_iff_forall_ne_some]
  constructor
  · intro h inner hof
    refine h (String.ofList inner) (header?_eq_some_iff.mpr ?_)
    rwa [String.toList_ofList]
  · exact fun h name hname => h _ (header?_eq_some_iff.mp hname)

theorem mem_headers {ls : List (List Char)} {name : String} :
    name ∈ headers ls ↔ ∃ line ∈ ls, Line.Of line (.header name.toList) := by
  unfold headers
  simp only [List.mem_filterMap, header?_eq_some_iff]

theorem governing_eq_some_iff {ls : List (List Char)} {name : String} :
    governing ls = some name ↔ Governs ls name := by
  unfold governing headers
  rw [List.getLast?_eq_some_iff]
  constructor
  · rintro ⟨names, h⟩
    obtain ⟨earlier, later, rfl, _, hlater⟩ := List.filterMap_eq_append_iff.mp h
    obtain ⟨front, line, back, rfl, _, hline, hback⟩ := List.filterMap_eq_cons_iff.mp hlater
    refine ⟨earlier ++ front, line, back, by simp, header?_eq_some_iff.mp hline, fun l hl => ?_⟩
    exact header?_eq_none_iff.mp (List.filterMap_eq_nil_iff.mp hback l hl)
  · rintro ⟨front, line, back, rfl, hline, hback⟩
    have hnone : back.filterMap (fun line => (Line.ofTrimmed line).header?) = [] :=
      List.filterMap_eq_nil_iff.mpr fun l hl => header?_eq_none_iff.mpr (hback l hl)
    rw [List.filterMap_append, List.filterMap_cons, header?_eq_some_iff.mpr hline, hnone]
    exact ⟨_, rfl⟩

theorem setting?_eq_some_iff {before : List (List Char)} {line : List Char} {x : Setting} :
    setting? before line = some x ↔ Assigns before line x.name x.key x.value := by
  unfold Assigns
  rw [← governing_eq_some_iff, ← Line.ofTrimmed_eq_iff]
  constructor
  · intro h
    unfold setting? at h
    split at h
    next name key value hname hline =>
      cases h
      rw [String.toList_ofList, String.toList_ofList]
      exact ⟨hname, hline⟩
    next => cases h
  · rintro ⟨hname, hline⟩
    unfold setting?
    rw [hname, hline]
    dsimp only
    rw [String.ofList_toList, String.ofList_toList]

theorem mem_settings {ls : List (List Char)} {x : Setting} :
    x ∈ settings ls ↔ ∃ before line after, ls = before ++ line :: after ∧
      Assigns before line x.name x.key x.value := by
  unfold settings
  simp only [mem_along, setting?_eq_some_iff]

theorem mem_keys_assigned {ls : List (List Char)} {name key : String} :
    key ∈ (assigned ls name).map Prod.fst ↔
      ∃ before line after value, ls = before ++ line :: after ∧
        Assigns before line name key value := by
  unfold assigned
  constructor
  · intro h
    obtain ⟨pair, hpair, rfl⟩ := List.mem_map.mp h
    obtain ⟨x, hx, hsome⟩ := List.mem_filterMap.mp hpair
    split at hsome
    next hname =>
      cases hsome
      subst hname
      obtain ⟨before, line, after, hls, hassigns⟩ := mem_settings.mp hx
      exact ⟨before, line, after, x.value, hls, hassigns⟩
    next => cases hsome
  · rintro ⟨before, line, after, value, hls, hassigns⟩
    have hx : (⟨name, key, value⟩ : Setting) ∈ settings ls :=
      mem_settings.mpr ⟨before, line, after, hls, hassigns⟩
    exact List.mem_map.mpr
      ⟨(key, value), List.mem_filterMap.mpr ⟨_, hx, if_pos rfl⟩, rfl⟩

/-- The value that a setting has for a key of a section. -/
def Setting.valueFor? (x : Setting) (name key : String) : Option String :=
  if x.name = name ∧ x.key = key then some x.value else none

theorem lastOf_assigned (ls : List (List Char)) (name key : String) :
    lastOf (assigned ls name) key =
      ((settings ls).filterMap fun x => x.valueFor? name key).getLast? := by
  unfold lastOf assigned
  rw [List.filterMap_filterMap]
  refine congrArg List.getLast? (List.filterMap_congr fun x _ => ?_)
  unfold Setting.valueFor?
  by_cases hname : x.name = name
  · simp [hname]
  · simp [hname]

theorem valueFor?_setting?_eq_some_iff {before : List (List Char)} {line : List Char}
    {name key value : String} :
    ((setting? before line).bind fun x => x.valueFor? name key) = some value ↔
      Assigns before line name key value := by
  rw [Option.bind_eq_some_iff]
  constructor
  · rintro ⟨x, hx, hv⟩
    unfold Setting.valueFor? at hv
    split at hv
    next h =>
      obtain ⟨rfl, rfl⟩ := h
      cases hv
      exact setting?_eq_some_iff.mp hx
    next => cases hv
  · intro h
    exact ⟨⟨name, key, value⟩, setting?_eq_some_iff.mpr h, if_pos ⟨rfl, rfl⟩⟩

/-- The last value under a key is that of the line behind which none assigns to it. -/
theorem lastOf_assigned_eq_some_iff {ls : List (List Char)} {name key value : String} :
    lastOf (assigned ls name) key = some value ↔
      ∃ before line after, ls = before ++ line :: after ∧ Assigns before line name key value ∧
        ∀ mid l rest, after = mid ++ l :: rest →
          ∀ other, ¬ Assigns (before ++ line :: mid) l name key other := by
  rw [lastOf_assigned, settings, along_filterMap, getLast?_along_eq_some_iff]
  simp only [Option.eq_none_iff_forall_ne_some, ne_eq, valueFor?_setting?_eq_some_iff]

end Ini

end Chaining
