import Chaining.Proofs.Load

/-!
# The room that a pair taken out leaves

A pair that is removed or stolen leaves its slot vacant and on its chain, and as no map
that there can be is fuller than its watermark, it leaves the map below it. So a put of a
key of that bucket does not grow the map, and its walk passes a vacant slot: it ends at
a pair with an equal key or goes back to the first such slot, never on behind the chain.

Neither needs memory. So the put is carried out, in the same way whatever is granted
(`Reachable.houses_of_frees`), also in a map that may not grow and in which the put was
rejected before.
-/

namespace Chaining

open Table

universe u v

variable {K : Type u} {V : Type v} {ks : Keying K}

namespace Table

/-- On a chain with a vacant slot no place is behind the last one. -/
theorem Fits.ne_append {t : Table K V} {key : K} {chain : List Pos} {place : Placement K V}
    (h : Fits ks t key chain place) {p : Pos} (hp : p ∈ chain) (hvacant : t.pair? p = none)
    (last : Pos) : place ≠ .append last := by
  rintro rfl
  cases h with
  | append _ hfull _ => exact hfull p hp hvacant

theorem size_arena_store {t : Table K V} {place : Placement K V}
    (h : ∀ last, place ≠ .append last) (pair : K × V) :
    (t.store place pair).arena.size = t.arena.size := by
  cases place with
  | replace p old => exact size_arena_setPair t p (some pair)
  | reuse p => exact size_arena_fill t p pair
  | append last => exact absurd rfl (h last)

end Table

namespace Map

variable {m after : Map ks V} {c : Conditions} {key other : K}

/-! ## Puts that need no memory -/

/-- A put that has stored its pair in a slot there was. -/
structure Housed (m : Map ks V) (change : Change) (o : Outcome ks V (PutResult K V)) :
    Prop where
  answer_eq : o.answer = .stored change
  bucketCount_eq : o.map.bucketCount = m.bucketCount
  /-- No extension slot is created. -/
  size_arena_eq : o.map.table.arena.size = m.table.arena.size
  /-- Neither a growth nor a new slot is recorded. -/
  events_eq : o.transcript.events = #[] ∨ o.transcript.events = #[.reused]

/-- The map has room for a pair without more memory. -/
structure Houses (m : Map ks V) (key : K) (value : V) : Prop where
  /-- Whatever is granted, the put stores the pair, unless a call of the keying that looks
  into the map breaks it off. -/
  housed : ∃ change, ∀ c : Conditions, m.Housed change (m.put c key value) ∨
    (c.reentry ≠ .never ∧ (m.put c key value).answer = .faulted .reentered ∧
      (m.put c key value).map = m)
  /-- It asks for nothing: what is granted makes no difference to all that it does. -/
  put_eq : ∀ c c' : Conditions, c.reentry = c'.reentry → m.put c key value = m.put c' key value

/-- Below the watermark, a vacant slot on the chain of a key is room for it. -/
theorem houses_of_vacant (hlen : m.len < m.watermark) {p : Pos}
    (hp : p ∈ m.table.chain (m.table.bucketOf (ks.hash key))) (hvacant : m.table.pair? p = none)
    (value : V) : m.Houses key value := by
  have hput := fun c => put_of_lt hlen c key value
  have hne := (locate_fits ks m.table (m.table.bucketOf (ks.hash key)) key).ne_append hp hvacant
  have hsize := fun pair => size_arena_store (t := m.table) hne pair
  -- of the walk only that it does not end behind the chain is needed from here on
  unfold place at hput
  generalize m.table.locate ks (m.table.bucketOf (ks.hash key)) key = located at hput hne hsize
  obtain ⟨place, compared⟩ := located
  dsimp only at hput hne hsize
  refine ⟨⟨place.change, fun c => ?_⟩, fun c c' hcc => ?_⟩
  · rw [hput]
    split
    next hc => exact Or.inr ⟨Reentry.ne_never_of_cut hc, rfl, rfl⟩
    next =>
      refine Or.inl ?_
      cases place with
      | replace q old =>
        exact ⟨rfl, bucketCount_store m.table (.replace q old) _, hsize _, Or.inl rfl⟩
      | reuse q => exact ⟨rfl, bucketCount_store m.table (.reuse q) _, hsize _, Or.inr rfl⟩
      | append last => exact absurd rfl (hne last)
  · rw [hput, hput, hcc]
    cases place with
    | replace q old => rfl
    | reuse q => rfl
    | append last => exact absurd rfl (hne last)

/-! ## Pairs taken out -/

/-- A request takes the pair for a key out of the map and leaves that one. -/
inductive Frees (m : Map ks V) (c : Conditions) (key : K) : Map ks V → Prop where
  | removed : (m.respond c (.remove key)).answer = .flag true →
      Frees m c key (m.respond c (.remove key)).map
  | stolen {kv : K × V} : (m.respond c (.steal key)).answer = .pair (some kv) →
      Frees m c key (m.respond c (.steal key)).map

/-- Either way the slot of what a lookup finds is made vacant. -/
theorem Frees.exists_vacateAt (h : m.Frees c key after) :
    ∃ e, (m.search key).found = some e ∧ after = m.vacateAt e.pos := by
  cases h with
  | removed hanswer => exact (hanswer ▸ m.respond_step c (.remove key)).exists_of_removed
  | stolen hanswer =>
    obtain ⟨e, hs, _, hafter⟩ := (hanswer ▸ m.respond_step c (.steal key)).exists_of_stolen
    exact ⟨e, hs, hafter⟩

/-- A pair taken out of a map that there can be leaves room for one of the same bucket. -/
theorem Reachable.houses_of_frees (hm : m.Reachable) (h : m.Frees c key after)
    (hbucket : m.table.bucketOf (ks.hash other) = m.table.bucketOf (ks.hash key)) (value : V) :
    after.bucketCount = m.bucketCount ∧ after.Houses other value := by
  obtain ⟨e, hs, rfl⟩ := h.exists_vacateAt
  rw [search_found, find] at hs
  obtain ⟨front, back, hchain, hpair, _, _⟩ := findAlong_eq_some hs
  have hcount : (m.vacateAt e.pos).bucketCount = m.bucketCount := bucketCount_vacate m.table e.pos
  have hlen : (m.vacateAt e.pos).len < (m.vacateAt e.pos).watermark := by
    have hfewer : (m.vacateAt e.pos).len + 1 = m.len := hm.wellFormed.len_vacate hpair
    have hmost := hm.loaded.len_le
    have hmark : (m.vacateAt e.pos).watermark = m.watermark := rfl
    omega
  -- the slot is on the chain of the other key as well, and stays on it
  have hmem : e.pos ∈
      (m.vacateAt e.pos).table.chain ((m.vacateAt e.pos).table.bucketOf (ks.hash other)) := by
    have hsame : (m.vacateAt e.pos).table.bucketOf (ks.hash other) =
        m.table.bucketOf (ks.hash key) := by
      rw [← hbucket]
      exact congrArg ((ks.hash other).toNat % ·) hcount
    have hstay : (m.vacateAt e.pos).table.chain (m.table.bucketOf (ks.hash key)) =
        m.table.chain (m.table.bucketOf (ks.hash key)) :=
      (differsAt_vacate m.table e.pos).chain_eq _
    rw [hsame, hstay, hchain]
    simp
  have hvacant : (m.vacateAt e.pos).table.pair? e.pos = none := by
    show (m.table.vacate e.pos).pair? e.pos = none
    rw [pair?_vacate, if_pos rfl]
  exact ⟨hcount, houses_of_vacant hlen hmem hvacant value⟩

/-- Seven pairs in one of ten buckets that may not become more. -/
def walledIn : Map (Keying.word (K := UInt64)) Nat :=
  (ofSizing Keying.word ((Sizing.standard.withInitial 10).withLimit 10)).after
    [({}, .put 5 0), ({}, .put 15 1), ({}, .put 25 2), ({}, .put 35 3), ({}, .put 45 4),
      ({}, .put 55 5), ({}, .put 65 6)]

/-- No put is stored in it until a pair is stolen, and then one is although every
reservation is refused. -/
theorem Reachable.houses_of_frees_walledIn :
    (walledIn.put {} 75 7).answer = .rejected ⟨75, 7, .capacityOverflow 10⟩ ∧
      (walledIn.respond {} (.steal 35)).answer = .pair (some (35, 3)) ∧
      (∃ change, ((walledIn.respond {} (.steal 35)).map.put
        { allocator := ⟨fun _ _ => false⟩ } 75 7).answer = .stored change) := by
  have hm : walledIn.Reachable := .after (.ofSizing _ _) _
  have hstolen : (walledIn.respond {} (.steal 35)).answer = .pair (some (35, 3)) := by decide
  have hbucket : walledIn.table.bucketOf (Keying.word.hash (75 : UInt64)) =
      walledIn.table.bucketOf (Keying.word.hash (35 : UInt64)) := by decide
  obtain ⟨_, hhouses⟩ := hm.houses_of_frees (.stolen hstolen) hbucket 7
  obtain ⟨change, hchange⟩ := hhouses.housed
  refine ⟨by decide, hstolen, change, ?_⟩
  rcases hchange { allocator := ⟨fun _ _ => false⟩ } with hhoused | ⟨hreentry, _⟩
  · exact hhoused.answer_eq
  · exact absurd rfl hreentry

end Map

end Chaining
