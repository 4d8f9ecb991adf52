import Mathlib.Data.Finset.Card
import Chaining.Proofs.Map.Lookup
import Chaining.Proofs.Map.Room
import Chaining.Proofs.Ini.Settings

/-!
# Maps that hold what a text says

Maps of texts that come from an empty one by puts and by changes in place. `Filled`
says which keys such a map has, `Holds` also which values: of several that were put
under one key it has the last. A put is refused only where very many keys have been
put before (`Filled.put_cases`).
-/

namespace Chaining

universe v

variable {V : Type v}

@[simp] theorem Keying.equals_text (a b : String) : Keying.text.equals a b = (a == b) :=
  rfl

namespace Map

/-- A map of standard sizing with those keys, of which some may be listed repeatedly. -/
structure Filled (m : Map Keying.text V) (keys : List String) : Prop where
  reachable : m.Reachable
  sizing_eq : m.sizing = .standard
  contains_iff : ∀ key, m.contains key = true ↔ key ∈ keys
  len_eq : m.len = keys.toFinset.card

/-- It has the last of the values listed for each key. -/
structure Holds (m : Map Keying.text V) (pairs : List (String × V)) : Prop
    extends Filled m (pairs.map Prod.fst) where
  get?_eq : ∀ key, m.get? key = lastOf pairs key

namespace Reachable

variable {m : Map Keying.text V}

/-- A map of texts lists each key once. -/
theorem nodup_keys (hm : m.Reachable) : (m.pairs.map Prod.fst).Nodup := by
  rw [List.nodup_iff_pairwise_ne, List.pairwise_map]
  refine (hm.pairwise Keying.lawful_text).imp fun {x y} hxy => ?_
  exact ne_of_beq_false hxy

theorem get?_eq_some_iff (hm : m.Reachable) {key : String} {value : V} :
    m.get? key = some value ↔ (key, value) ∈ m.pairs := by
  rw [get?_eq, Option.map_eq_some_iff]
  constructor
  · rintro ⟨⟨stored, value⟩, hpair, rfl⟩
    obtain ⟨hmem, heq⟩ := (getPair?_eq_some_iff hm Keying.lawful_text).mp hpair
    rwa [← eq_of_beq heq]
  · intro hmem
    exact ⟨_, (getPair?_eq_some_iff hm Keying.lawful_text).mpr ⟨hmem, beq_self_eq_true key⟩, rfl⟩

theorem contains_iff_mem (hm : m.Reachable) {key : String} :
    m.contains key = true ↔ key ∈ m.pairs.map Prod.fst := by
  rw [contains_eq, ← Option.isSome_map (f := Prod.snd), ← get?_eq, Option.isSome_iff_exists]
  simp only [hm.get?_eq_some_iff, List.mem_map, Prod.exists, exists_and_right, exists_eq_right]

end Reachable

theorem toFinset_concat (keys : List String) (key : String) :
    (keys ++ [key]).toFinset = insert key keys.toFinset := by
  rw [List.toFinset_eq_of_perm _ _ (List.perm_append_singleton key keys), List.toFinset_cons]

namespace Filled

variable {m : Map Keying.text V} {keys : List String} {key : String} {value : V}

theorem empty : (empty Keying.text : Map Keying.text V).Filled [] where
  reachable := .empty Keying.text
  sizing_eq := rfl
  contains_iff key := by
    rw [contains_eq, Map.empty, getPair?_ofSizing]
    simp
  len_eq := rfl

theorem len_le (h : m.Filled keys) : m.len ≤ keys.length := by
  rw [h.len_eq]
  exact List.toFinset_card_le keys

/-- A put is stored, or it is refused and there are very many keys. -/
theorem put_cases (h : m.Filled keys) (key : String) (value : V) :
    (∃ change, (m.put {} key value).answer = .stored change) ∨
      (∃ r, (m.put {} key value).answer = .rejected r) ∧ 2 ^ 59 ≤ keys.length := by
  have hlaw := Keying.lawful_text.toPartialEquivalence
  by_cases hlen : m.len < 2 ^ 59
  · exact Or.inl (h.reachable.exists_put_stored hlaw h.sizing_eq hlen key value)
  · have hkeys := h.len_le
    cases ha : (m.put {} key value).answer with
    | stored change => exact Or.inl ⟨change, rfl⟩
    | rejected r => exact Or.inr ⟨⟨r, rfl⟩, by omega⟩
    | faulted fault => exact absurd ha (h.reachable.put_ne_faulted hlaw rfl key value fault)

theorem put (h : m.Filled keys) {change : Change}
    (hput : (m.put {} key value).answer = .stored change) :
    (m.put {} key value).map.Filled (keys ++ [key]) where
  reachable := h.reachable.responded {} (.put key value)
  sizing_eq := (m.put_puts {} key value).sizing_eq.trans h.sizing_eq
  contains_iff other := by
    rw [contains_put h.reachable Keying.lawful_text rfl hput, Bool.or_eq_true, h.contains_iff,
      Keying.equals_text, beq_iff_eq, List.mem_append, List.mem_singleton, or_comm, eq_comm]
  len_eq := by
    rw [len_put h.reachable Keying.lawful_text rfl hput, h.len_eq, toFinset_concat]
    split
    next hkey =>
      have hmem := List.mem_toFinset.mpr ((h.contains_iff key).mp hkey)
      rw [Finset.insert_eq_of_mem hmem]
    next hkey =>
      have hnot : key ∉ keys.toFinset := fun hmem =>
        hkey ((h.contains_iff key).mpr (List.mem_toFinset.mp hmem))
      rw [Finset.card_insert_of_notMem hnot]

theorem get?_put (h : m.Filled keys) {change : Change}
    (hput : (m.put {} key value).answer = .stored change) (other : String) :
    (m.put {} key value).map.get? other = if key = other then some value else m.get? other := by
  rw [Map.get?_put h.reachable Keying.lawful_text rfl hput, Keying.equals_text]
  simp only [beq_iff_eq]

/-- A key that is there may be listed once more. -/
theorem concat_of_mem (h : m.Filled keys) (hkey : key ∈ keys) : m.Filled (keys ++ [key]) where
  reachable := h.reachable
  sizing_eq := h.sizing_eq
  contains_iff other := by
    rw [h.contains_iff, List.mem_append, List.mem_singleton]
    exact (or_iff_left_of_imp fun hother => hother ▸ hkey).symm
  len_eq := by
    rw [h.len_eq, toFinset_concat, Finset.insert_eq_of_mem (List.mem_toFinset.mpr hkey)]

theorem mapValueAt (h : m.Filled keys) {e : Entry String V}
    (hs : (m.search key).found = some e) (f : V → V) : (m.mapValueAt e.pos f).Filled keys where
  reachable := h.reachable.mapValueAt hs f
  sizing_eq := h.sizing_eq
  contains_iff other := by
    have hkey : m.contains key = true := by rw [contains, hs]; rfl
    rw [contains_mapValueAt h.reachable Keying.lawful_text hs, Bool.or_eq_true,
      Keying.equals_text, beq_iff_eq, ← h.contains_iff]
    exact or_iff_right_of_imp fun hother => hother ▸ hkey
  len_eq := (len_mapValueAt m e.pos f).trans h.len_eq

theorem get?_mapValueAt (h : m.Filled keys) {e : Entry String V}
    (hs : (m.search key).found = some e) (f : V → V) (other : String) :
    (m.mapValueAt e.pos f).get? other =
      if key = other then some (f e.value) else m.get? other := by
  rw [Map.get?_mapValueAt h.reachable Keying.lawful_text hs, Keying.equals_text]
  simp only [beq_iff_eq]

end Filled

namespace Holds

variable {m : Map Keying.text V} {pairs : List (String × V)} {key : String} {value : V}

theorem empty : (empty Keying.text : Map Keying.text V).Holds [] where
  toFilled := .empty
  get?_eq key := by
    rw [Map.get?_eq, Map.empty, getPair?_ofSizing]
    rfl

theorem put (h : m.Holds pairs) {change : Change}
    (hput : (m.put {} key value).answer = .stored change) :
    (m.put {} key value).map.Holds (pairs ++ [(key, value)]) where
  toFilled := by
    rw [List.map_append]
    exact h.toFilled.put hput
  get?_eq other := by
    rw [h.toFilled.get?_put hput, lastOf_concat, h.get?_eq]

/-- Where keys are told apart, a map lists what it holds. -/
theorem perm (h : m.Holds pairs) (hkeys : (pairs.map Prod.fst).Nodup) : m.pairs.Perm pairs := by
  have hm := h.toFilled.reachable
  have hnodup := List.perm_ext_iff_of_nodup hm.nodup_keys.of_map hkeys.of_map
  refine hnodup.mpr fun ⟨key, value⟩ => ?_
  rw [← hm.get?_eq_some_iff, h.get?_eq, lastOf_eq_some_iff hkeys]

end Holds

end Map

end Chaining
