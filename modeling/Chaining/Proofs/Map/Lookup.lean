import Chaining.Proofs.Dictionary

/-!
# What keys are found with

Under a lawful keying no two pairs of a map that there can be have equal keys, so the
map is the dictionary of its own pairs (`Reachable.exists_represents`), and what a
request does to lookups can be read off the dictionary. After a put its key is found
with the pair just stored and every other key with what it was found with before
(`getPair?_put`); a value changed in place changes what its own key is found with and
nothing else (`getPair?_mapValueAt`).
-/

namespace Chaining

universe u v

variable {K : Type u} {V : Type v} {ks : Keying K}

/-- A dictionary has one key more, unless that was there. -/
theorem Dictionary.card_keys_insert {h : ks.Lawful} (s : Dictionary h V) (c : Quotient h.setoid)
    (kv : K × V) : (s.insert c kv).keys.card = if c ∈ s then s.keys.card else s.keys.card + 1 := by
  have hcard : ∀ s : Dictionary h V, s.keys.card = Multiset.card s.entries :=
    fun s => Multiset.card_map _ _
  rw [hcard, entries_insert, Multiset.card_cons, hcard]
  split
  next hc =>
    obtain ⟨old, hold⟩ := Finmap.mem_iff.mp hc
    rw [entries_of_lookup hold, Multiset.card_cons]
  next hc => rw [erase_of_notMem hc]

namespace Map

open Table

variable {m : Map ks V} {c : Conditions} {key : K}

theorem Reachable.pairwise (hm : m.Reachable) (h : ks.Lawful) :
    m.pairs.Pairwise fun x y => ks.equals x.1 y.1 = false := by
  have hapart := (hm.distinct h.toPartialEquivalence).pairwise_apart hm.wellFormed
    (Nat.dvd_refl m.table.bucketCount)
  refine hapart.imp fun {x y} hxy => ?_
  -- equal keys hash alike, so they share a bucket
  by_contra hne
  rw [Bool.not_eq_false] at hne
  rw [hxy (by rw [h.hash_eq hne])] at hne
  cases hne

/-- A map is the dictionary of its pairs. -/
theorem Reachable.exists_represents (hm : m.Reachable) (h : ks.Lawful) :
    ∃ s : Dictionary h V, Represents h m s := by
  have hnodup : (m.pairs.map h.entry : Multiset (Σ _ : Quotient h.setoid, K × V)).NodupKeys := by
    rw [Multiset.coe_nodupKeys, List.nodupKeys_iff_pairwise, List.pairwise_map]
    refine (hm.pairwise h).imp fun {x y} hxy heq => ?_
    rw [h.classOf_eq.mp heq] at hxy
    cases hxy
  exact ⟨⟨_, hnodup⟩, rfl⟩

/-- What a key is found with is the pair with an equal key. -/
theorem getPair?_eq_some_iff (hm : m.Reachable) (h : ks.Lawful) {kv : K × V} :
    m.getPair? key = some kv ↔ kv ∈ m.pairs ∧ ks.equals kv.1 key = true := by
  obtain ⟨s, hr⟩ := hm.exists_represents h
  have hw := hm.wellFormed
  unfold getPair?
  rw [hr.search_eq hw]
  constructor
  · intro hs
    obtain ⟨hin, heq⟩ := hr.of_lookup hw hs
    exact ⟨mem_pairs.mpr ⟨_, hw.bucketOf_lt _, hin⟩, heq⟩
  · rintro ⟨hmem, heq⟩
    rw [← h.classOf_eq.mpr heq]
    exact hr.lookup_of_mem hmem

theorem get?_eq (m : Map ks V) (key : K) : m.get? key = (m.getPair? key).map Prod.snd := by
  unfold get? getPair?
  rw [Option.map_map]
  rfl

theorem contains_eq (m : Map ks V) (key : K) : m.contains key = (m.getPair? key).isSome := by
  unfold contains getPair?
  rw [Option.isSome_map]

/-- A new map has no key. -/
theorem getPair?_ofSizing (sizing : Sizing) (key : K) :
    (ofSizing ks sizing : Map ks V).getPair? key = none := by
  unfold getPair?
  cases hs : ((ofSizing ks sizing : Map ks V).search key).found with
  | none => rfl
  | some e =>
    rw [search_found, find] at hs
    obtain ⟨_, _, _, hpair, _⟩ := findAlong_eq_some hs
    have hnone : (ofSizing ks sizing : Map ks V).table.pair? e.pos = none := pair?_ofBuckets _ _
    rw [hnone] at hpair
    cases hpair

/-! ## After a put -/

section Put

variable {value : V} {change : Change}

theorem exists_represents_put (hm : m.Reachable) (h : ks.Lawful) (hc : c.reentry = .never)
    (hput : (m.put c key value).answer = .stored change) :
    ∃ s : Dictionary h V, Represents h m s ∧
      Represents h (m.put c key value).map (s.insert (h.classOf key) (key, value)) := by
  obtain ⟨s, hr⟩ := hm.exists_represents h
  have hputs := m.put_puts c key value
  rw [hput] at hputs
  obtain ⟨s', hrespond, hr'⟩ :=
    hr.put hm.wellFormed (hm.distinct h.toPartialEquivalence) hc hputs
  have hs' : s.insert (h.classOf key) (key, value) = s' := (Prod.mk.inj hrespond).2
  exact ⟨s, hr, hs' ▸ hr'⟩

/-- A stored pair is found by its key, and nothing else changes. -/
theorem getPair?_put (hm : m.Reachable) (h : ks.Lawful) (hc : c.reentry = .never)
    (hput : (m.put c key value).answer = .stored change) (other : K) :
    (m.put c key value).map.getPair? other =
      if ks.equals key other then some (key, value) else m.getPair? other := by
  obtain ⟨s, hr, hr'⟩ := exists_represents_put hm h hc hput
  have hw' := (m.put_puts c key value).wellFormed hm.wellFormed
  unfold getPair?
  rw [hr'.search_eq hw', hr.search_eq hm.wellFormed]
  split
  next heq => rw [← h.classOf_eq.mpr heq, Finmap.lookup_insert]
  next hne =>
    refine Finmap.lookup_insert_of_ne s fun hclass => hne ?_
    exact h.classOf_eq.mp hclass.symm

theorem get?_put (hm : m.Reachable) (h : ks.Lawful) (hc : c.reentry = .never)
    (hput : (m.put c key value).answer = .stored change) (other : K) :
    (m.put c key value).map.get? other =
      if ks.equals key other then some value else m.get? other := by
  rw [get?_eq, getPair?_put hm h hc hput, get?_eq]
  split <;> rfl

theorem contains_put (hm : m.Reachable) (h : ks.Lawful) (hc : c.reentry = .never)
    (hput : (m.put c key value).answer = .stored change) (other : K) :
    (m.put c key value).map.contains other = (ks.equals key other || m.contains other) := by
  rw [contains_eq, getPair?_put hm h hc hput, contains_eq]
  cases ks.equals key other <;> rfl

/-- There is one pair more, unless one with an equal key gave way. -/
theorem len_put (hm : m.Reachable) (h : ks.Lawful) (hc : c.reentry = .never)
    (hput : (m.put c key value).answer = .stored change) :
    (m.put c key value).map.len = if m.contains key then m.len else m.len + 1 := by
  obtain ⟨s, hr, hr'⟩ := exists_represents_put hm h hc hput
  have hw' := (m.put_puts c key value).wellFormed hm.wellFormed
  have hmem : h.classOf key ∈ s ↔ m.contains key = true := by
    rw [contains_eq, getPair?, hr.search_eq hm.wellFormed]
    exact Finmap.lookup_isSome.symm
  rw [hr'.len_eq hw', Dictionary.card_keys_insert, hr.len_eq hm.wellFormed]
  simp only [hmem]

end Put

/-! ## After a change in place -/

section Change

variable {e : Entry K V}

theorem Reachable.mapValueAt (hm : m.Reachable) (hs : (m.search key).found = some e)
    (f : V → V) : (m.mapValueAt e.pos f).Reachable := by
  have hmap : (m.respond {} (.modify key f)).map = m.mapValueAt e.pos f := by
    simp only [respond, lookup, hs]
    rfl
  exact hmap ▸ hm.responded {} (.modify key f)

/-- A changed value is found by its key, and nothing else changes. -/
theorem getPair?_mapValueAt (hm : m.Reachable) (h : ks.Lawful)
    (hs : (m.search key).found = some e) (f : V → V) (other : K) :
    (m.mapValueAt e.pos f).getPair? other =
      if ks.equals key other then some (e.key, f e.value) else m.getPair? other := by
  obtain ⟨s, hr⟩ := hm.exists_represents h
  have hw := hm.wellFormed
  obtain ⟨hclass, _⟩ := hr.lookup_of_search hw hs
  obtain ⟨_, front, back, hold, _, hnew⟩ := exists_pairs_of_search hs hw
  have hr' := hr.insert hold (hnew f) rfl
  unfold getPair?
  rw [hr'.search_eq (hw.mapValue e.pos f), hr.search_eq hw, hclass]
  split
  next heq => rw [← h.classOf_eq.mpr heq, Finmap.lookup_insert]
  next hne =>
    refine Finmap.lookup_insert_of_ne s fun hclass => hne ?_
    exact h.classOf_eq.mp hclass.symm

theorem get?_mapValueAt (hm : m.Reachable) (h : ks.Lawful)
    (hs : (m.search key).found = some e) (f : V → V) (other : K) :
    (m.mapValueAt e.pos f).get? other =
      if ks.equals key other then some (f e.value) else m.get? other := by
  rw [get?_eq, getPair?_mapValueAt hm h hs, get?_eq]
  split <;> rfl

theorem contains_mapValueAt (hm : m.Reachable) (h : ks.Lawful)
    (hs : (m.search key).found = some e) (f : V → V) (other : K) :
    (m.mapValueAt e.pos f).contains other = (ks.equals key other || m.contains other) := by
  rw [contains_eq, getPair?_mapValueAt hm h hs, contains_eq]
  cases ks.equals key other <;> rfl

@[simp] theorem len_mapValueAt (m : Map ks V) (p : Pos) (f : V → V) :
    (m.mapValueAt p f).len = m.len :=
  len_mapValue m.table p f

end Change

end Map

end Chaining
