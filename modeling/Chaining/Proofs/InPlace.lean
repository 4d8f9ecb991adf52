import Chaining.Proofs.Ownership

/-!
# What one operation does to the order of traversal

As long as a map does not grow, an operation changes the content of one slot, or creates
one behind a chain, and all other pairs stay where they are. So a traversal afterwards
answers with the same pairs in the same order, but for one place: there a pair is gone, or
new, or another one.

A `Site` is that place, a position with what stands before and behind it on the chain of a
bucket. `FirstMatch` and `FreeSpot` say which site it is, by the order in which a walk for
a key goes along the chain and by what the comparison turns down; the comparison need not
be an equivalence for it. `Alters` says what happens there. `Reachable.inPlace` has a case
for each operation.
-/

namespace Chaining

universe u v

variable {K : Type u} {V : Type v} {ks : Keying K}

namespace Table

variable {t u : Table K V} {key : K}

/-- A position on the chain of a bucket, with the positions before and behind it there. -/
structure Site where
  bucket : Nat
  front : List Pos
  pos : Pos
  back : List Pos

/-- The pairs that come before the site in the order of traversal. -/
def Site.before (s : Site) (t : Table K V) : List (K × V) :=
  t.pairsBefore s.bucket ++ s.front.filterMap t.pair?

/-- The pairs that come behind it. -/
def Site.behind (s : Site) (t : Table K V) : List (K × V) :=
  s.back.filterMap t.pair? ++ t.pairsBehind (s.bucket + 1)

/-! ## Sites of a key -/

/-- The first pair on the chain of a key that the comparison does not turn down. -/
structure FirstMatch (ks : Keying K) (t : Table K V) (key : K) (s : Site) (kv : K × V) :
    Prop where
  bucket_eq : s.bucket = (ks.hash key).toNat % t.bucketCount
  chain_eq : t.chain s.bucket = s.front ++ s.pos :: s.back
  pair?_eq : t.pair? s.pos = some kv
  equals : ks.equals kv.1 key = true
  unmatched : Unmatched ks key (s.front.filterMap t.pair?)

theorem FirstMatch.bucket_lt {s : Site} {kv : K × V} (h : FirstMatch ks t key s kv)
    (hw : t.WellFormed ks) : s.bucket < t.bucketCount := by
  rw [h.bucket_eq]
  exact hw.bucketOf_lt (ks.hash key)

/-- The place for a key that is turned down by all pairs on its chain: the first vacant
slot there, or a slot yet to be created behind the chain, if none is vacant. -/
structure FreeSpot (ks : Keying K) (t : Table K V) (key : K) (s : Site) : Prop where
  bucket_eq : s.bucket = (ks.hash key).toNat % t.bucketCount
  unmatched : Unmatched ks key (t.pairsIn s.bucket)
  occupied : ∀ p ∈ s.front, t.pair? p ≠ none
  vacant_or_behind :
    (t.chain s.bucket = s.front ++ s.pos :: s.back ∧ t.pair? s.pos = none) ∨
      (t.chain s.bucket = s.front ∧ s.pos = .extension t.arena.size ∧ s.back = [])

/-! ## One place changes -/

/-- From the first table to the second, the content of one site changes. -/
structure Alters (t u : Table K V) (s : Site) (old new : Option (K × V)) : Prop where
  bucketCount_eq : u.bucketCount = t.bucketCount
  pair?_old : t.pair? s.pos = old
  pair?_new : u.pair? s.pos = new
  pair?_other : ∀ p, p ≠ s.pos → u.pair? p = t.pair? p
  /-- The position is on the chain afterwards, be it new. -/
  chain_eq : u.chain s.bucket = s.front ++ s.pos :: s.back
  chain_other : ∀ b, b < t.bucketCount → b ≠ s.bucket → u.chain b = t.chain b
  pairs_old : t.pairs = s.before t ++ old.toList ++ s.behind t
  pairs_new : u.pairs = s.before t ++ new.toList ++ s.behind t

/-- Tables that differ at the position of the site. -/
theorem Linked.alters (hl : t.Linked) {s : Site} (hb : s.bucket < t.bucketCount)
    (hs : t.chain s.bucket = s.front ++ s.pos :: s.back) (h : DiffersAt t u s.pos) :
    Alters t u s (t.pair? s.pos) (u.pair? s.pos) where
  bucketCount_eq := h.bucketCount_eq
  pair?_old := rfl
  pair?_new := rfl
  pair?_other := h.pair?_eq
  chain_eq := (h.chain_eq s.bucket).trans hs
  chain_other b _ _ := h.chain_eq b
  pairs_old := (hl.exchange hb hs h).pairs.1
  pairs_new := (hl.exchange hb hs h).pairs.2

theorem Linked.alters_setPair (hl : t.Linked) {s : Site} (hb : s.bucket < t.bucketCount)
    (hs : t.chain s.bucket = s.front ++ s.pos :: s.back) (pair : Option (K × V)) :
    Alters t (t.setPair s.pos pair) s (t.pair? s.pos) pair := by
  have hhas : t.Has s.pos := (hl.path_chain hb).has (by rw [hs]; simp)
  have h := hl.alters hb hs (differsAt_setPair t s.pos pair)
  rwa [pair?_setPair_self hhas] at h

theorem Linked.alters_fill (hl : t.Linked) {s : Site} (hb : s.bucket < t.bucketCount)
    (hs : t.chain s.bucket = s.front ++ s.pos :: s.back) (pair : K × V) :
    Alters t (t.fill s.pos pair) s (t.pair? s.pos) (some pair) := by
  have hhas : t.Has s.pos := (hl.path_chain hb).has (by rw [hs]; simp)
  have h := hl.alters hb hs (differsAt_fill t s.pos pair)
  rwa [pair?_fill, pair?_setPair_self hhas] at h

theorem Linked.alters_vacate (hl : t.Linked) {s : Site} (hb : s.bucket < t.bucketCount)
    (hs : t.chain s.bucket = s.front ++ s.pos :: s.back) :
    Alters t (t.vacate s.pos) s (t.pair? s.pos) none := by
  have h := hl.alters hb hs (differsAt_vacate t s.pos)
  rwa [pair?_vacate, if_pos rfl] at h

theorem Linked.alters_mapValue (hl : t.Linked) {s : Site} (hb : s.bucket < t.bucketCount)
    (hs : t.chain s.bucket = s.front ++ s.pos :: s.back) (f : V → V) :
    Alters t (t.mapValue s.pos f) s (t.pair? s.pos)
      ((t.pair? s.pos).map fun kv => (kv.1, f kv.2)) := by
  have h := hl.alters hb hs (differsAt_mapValue t s.pos f)
  rwa [pair?_mapValue, if_pos rfl] at h

/-- A slot created behind a chain ends that chain, and all others are as they were. -/
theorem Linked.alters_append (hl : t.Linked) {b : Nat} (hb : b < t.bucketCount)
    {front : List Pos} {last : Pos} (hs : t.chain b = front ++ [last]) (pair : K × V) :
    Alters t (t.append last pair) ⟨b, t.chain b, .extension t.arena.size, []⟩ none
      (some pair) := by
  have hpath := hl.path_chain hb
  have hmem : last ∈ t.chain b := by rw [hs]; simp
  have hlast : t.Has last := hpath.has hmem
  have hend : t.next? last = none := (hs ▸ hpath).next?_eq_none
  have hpairs := (hl.exchange_append hb hs pair).pairs
  exact {
    bucketCount_eq := bucketCount_append t last pair
    pair?_old := by simp [pair?, slot?]
    pair?_new := by rw [pair?_append, if_pos rfl]
    pair?_other := fun p hp => by rw [pair?_append, if_neg hp]
    chain_eq := by rw [hl.chain_append hlast hend hb, if_pos hmem]
    chain_other := by
      -- the slot that the new one goes behind is on no other chain
      intro c hc hne
      rw [hl.chain_append hlast hend hc, if_neg]
      intro hmemc
      exact hne (hl.chain_unique hc hb hmemc hmem)
    pairs_old := hpairs.1
    pairs_new := hpairs.2 }

/-! ## The place of a pair that is stored -/

section Store

variable {place : Placement K V} {value : V}

/-- A pair that gives way is the first match, and the stored one comes into its place. -/
theorem WellFormed.alters_of_replaced (hw : t.WellFormed ks)
    (hf : Fits ks t key (t.chain (t.bucketOf (ks.hash key))) place)
    (hc : place.change = .replaced) :
    ∃ s old, FirstMatch ks t key s old ∧
      Alters t (t.store place (key, value)) s (some old) (some (key, value)) := by
  have hb := hw.bucketOf_lt (ks.hash key)
  cases hf with
  | @replace p old front back hs hp hk hun =>
    let s : Site := ⟨t.bucketOf (ks.hash key), front, p, back⟩
    have halters := hw.linked.alters_setPair (s := s) hb hs (some (key, value))
    rw [hp] at halters
    exact ⟨s, old, ⟨rfl, hs, hp, hk, hun⟩, halters⟩
  | reuse _ _ _ _ => cases hc
  | append _ _ _ => cases hc

/-- A pair that none gives way to comes to the free spot of its key. -/
theorem WellFormed.alters_of_inserted (hw : t.WellFormed ks)
    (hf : Fits ks t key (t.chain (t.bucketOf (ks.hash key))) place)
    (hc : place.change = .inserted) :
    ∃ s, FreeSpot ks t key s ∧
      Alters t (t.store place (key, value)) s none (some (key, value)) := by
  have hb := hw.bucketOf_lt (ks.hash key)
  cases hf with
  | replace _ _ _ _ => cases hc
  | @reuse p front back hs hp hfront hun =>
    let s : Site := ⟨t.bucketOf (ks.hash key), front, p, back⟩
    have halters := hw.linked.alters_fill (s := s) hb hs (key, value)
    rw [hp] at halters
    exact ⟨s, ⟨rfl, hun, hfront, Or.inl ⟨hs, hp⟩⟩, halters⟩
  | @append last front hs hfull hun =>
    let s : Site :=
      ⟨t.bucketOf (ks.hash key), t.chain (t.bucketOf (ks.hash key)), .extension t.arena.size, []⟩
    exact ⟨s, ⟨rfl, hun, hfull, Or.inr ⟨rfl, rfl, rfl⟩⟩,
      hw.linked.alters_append hb hs (key, value)⟩

end Store

end Table

open Table

/-- A lookup has found nothing, or was broken off. -/
def Answer.misses : Answer K V → Bool
  | .value none => true
  | .pair none => true
  | .flag false => true
  | .faulted _ => true
  | _ => false

namespace Map

variable {m after : Map ks V} {c : Conditions} {key : K} {value : V}
  {releases : List (Release K V)}

/-- From the first map to the second, a traversal and the table differ at one site. -/
structure Alters (m after : Map ks V) (s : Site) (old new : Option (K × V)) : Prop where
  traverse_old : m.traverse = s.before m.table ++ old.toList ++ s.behind m.table
  traverse_new : after.traverse = s.before m.table ++ new.toList ++ s.behind m.table
  bucketCount_eq : after.bucketCount = m.bucketCount
  watermark_eq : after.watermark = m.watermark
  table : m.table.Alters after.table s old new

theorem alters_of_table {s : Site} {old new : Option (K × V)}
    (h : m.table.Alters after.table s old new) (hl : m.table.Linked) (hl' : after.table.Linked)
    (hmark : after.watermark = m.watermark) : m.Alters after s old new where
  traverse_old := (traverse_eq_pairs hl).trans h.pairs_old
  traverse_new := (traverse_eq_pairs hl').trans h.pairs_new
  bucketCount_eq := h.bucketCount_eq
  watermark_eq := hmark
  table := h

/-! ## What each operation does -/

/-- What a lookup finds is the first match. -/
theorem exists_firstMatch {e : Entry K V} (h : (m.search key).found = some e) :
    ∃ s, FirstMatch ks m.table key s e.pair ∧ s.pos = e.pos := by
  rw [search_found, find] at h
  obtain ⟨front, back, hs, hp, hk, hun⟩ := findAlong_eq_some h
  exact ⟨⟨_, front, e.pos, back⟩, ⟨rfl, hs, hp, hk, hun⟩, rfl⟩

theorem alters_vacateAt (hw : m.table.WellFormed ks) {e : Entry K V}
    (h : (m.search key).found = some e) :
    ∃ s, FirstMatch ks m.table key s e.pair ∧ m.Alters (m.vacateAt e.pos) s (some e.pair) none := by
  obtain ⟨s, hmatch, hpos⟩ := exists_firstMatch h
  have halters := hw.linked.alters_vacate (hmatch.bucket_lt hw) hmatch.chain_eq
  rw [hmatch.pair?_eq, hpos] at halters
  exact ⟨s, hmatch, alters_of_table halters hw.linked (hw.linked.vacate e.pos) rfl⟩

theorem alters_mapValueAt (hw : m.table.WellFormed ks) {e : Entry K V}
    (h : (m.search key).found = some e) (f : V → V) :
    ∃ s, FirstMatch ks m.table key s e.pair ∧
      m.Alters (m.mapValueAt e.pos f) s (some e.pair) (some (e.key, f e.value)) := by
  obtain ⟨s, hmatch, hpos⟩ := exists_firstMatch h
  have halters := hw.linked.alters_mapValue (hmatch.bucket_lt hw) hmatch.chain_eq f
  rw [hmatch.pair?_eq, hpos] at halters
  exact ⟨s, hmatch, alters_of_table halters hw.linked (hw.linked.mapValue e.pos f) rfl⟩

/-- A put that has not grown the map stores its pair in the map itself. -/
theorem Puts.exists_store {change : Change}
    (h : m.Puts c key value (.stored change) after releases) (hw : m.table.WellFormed ks)
    (hcount : after.bucketCount = m.bucketCount) :
    ∃ place, Fits ks m.table key (m.table.chain (m.table.bucketOf (ks.hash key))) place ∧
      place.change = change ∧ after.table = m.table.store place (key, value) ∧
      after.watermark = m.watermark := by
  cases h with
  | placed hp hplaces =>
    obtain rfl := hp.eq_of_bucketCount_eq hw (hplaces.bucketCount_eq.symm.trans hcount)
    cases hplaces with
    | @stored place hf _ => exact ⟨place, hf, rfl, rfl, rfl⟩

/-- A request that only reads leaves the map as it is, and so does one that has found
nothing. -/
theorem Step.eq_of_reads_or_misses {request : Request K V} {answer : Answer K V}
    (h : m.Step c request answer after releases)
    (hkept : request.reads = true ∨ answer.misses = true) : after = m := by
  cases h with
  | put _ => rcases hkept with hkept | hkept <;> cases hkept
  | modify _ => rcases hkept with hkept | hkept <;> cases hkept
  | remove _ => rcases hkept with hkept | hkept <;> cases hkept
  | steal _ => rcases hkept with hkept | hkept <;> cases hkept
  | _ => rfl

/-- Where each operation on a map takes effect, as long as the map does not grow. -/
structure InPlace (m : Map ks V) (c : Conditions) : Prop where
  removed : ∀ key, (m.respond c (.remove key)).answer = .flag true →
    ∃ s kv, FirstMatch ks m.table key s kv ∧
      m.Alters (m.respond c (.remove key)).map s (some kv) none
  stolen : ∀ key kv, (m.respond c (.steal key)).answer = .pair (some kv) →
    ∃ s, FirstMatch ks m.table key s kv ∧
      m.Alters (m.respond c (.steal key)).map s (some kv) none
  inserted : ∀ key value, (m.put c key value).answer = .stored .inserted →
    (m.put c key value).map.bucketCount = m.bucketCount →
    ∃ s, FreeSpot ks m.table key s ∧
      m.Alters (m.put c key value).map s none (some (key, value))
  replaced : ∀ key value, (m.put c key value).answer = .stored .replaced →
    (m.put c key value).map.bucketCount = m.bucketCount →
    ∃ s old, FirstMatch ks m.table key s old ∧
      m.Alters (m.put c key value).map s (some old) (some (key, value))
  modified : ∀ key f value, (m.respond c (.modify key f)).answer = .value (some value) →
    ∃ s kv, FirstMatch ks m.table key s kv ∧ value = f kv.2 ∧
      m.Alters (m.respond c (.modify key f)).map s (some kv) (some (kv.1, f kv.2))
  /-- Vacant slots and links included. -/
  kept : ∀ request, request.reads = true ∨ (m.respond c request).answer.misses = true →
    (m.respond c request).map = m

/-- Operations take effect in place, whatever the keying does. -/
theorem Reachable.inPlace (hm : m.Reachable) (c : Conditions) : m.InPlace c where
  removed key h := by
    obtain ⟨e, hs, hafter⟩ := (h ▸ m.respond_step c (.remove key)).exists_of_removed
    obtain ⟨s, hmatch, halters⟩ := alters_vacateAt hm.wellFormed hs
    exact ⟨s, e.pair, hmatch, hafter ▸ halters⟩
  stolen key kv h := by
    obtain ⟨e, hs, rfl, hafter⟩ := (h ▸ m.respond_step c (.steal key)).exists_of_stolen
    obtain ⟨s, hmatch, halters⟩ := alters_vacateAt hm.wellFormed hs
    exact ⟨s, hmatch, hafter ▸ halters⟩
  inserted key value h hcount := by
    have hw := hm.wellFormed
    have hputs := h ▸ m.put_puts c key value
    obtain ⟨place, hf, hc, htable, hmark⟩ := hputs.exists_store hw hcount
    obtain ⟨s, hspot, halters⟩ := hw.alters_of_inserted hf hc
    exact ⟨s, hspot,
      alters_of_table (htable ▸ halters) hw.linked (hputs.wellFormed hw).linked hmark⟩
  replaced key value h hcount := by
    have hw := hm.wellFormed
    have hputs := h ▸ m.put_puts c key value
    obtain ⟨place, hf, hc, htable, hmark⟩ := hputs.exists_store hw hcount
    obtain ⟨s, old, hmatch, halters⟩ := hw.alters_of_replaced hf hc
    exact ⟨s, old, hmatch,
      alters_of_table (htable ▸ halters) hw.linked (hputs.wellFormed hw).linked hmark⟩
  modified key f value h := by
    obtain ⟨e, hs, hvalue, hafter⟩ := (h ▸ m.respond_step c (.modify key f)).exists_of_modified
    obtain ⟨s, hmatch, halters⟩ := alters_mapValueAt hm.wellFormed hs f
    exact ⟨s, e.pair, hmatch, hvalue, hafter ▸ halters⟩
  kept request h := (m.respond_step c request).eq_of_reads_or_misses h

/-- A chain of three with a vacant slot in its middle, and a pair in another bucket. -/
def gapped : Map (Keying.word (K := UInt64)) Nat :=
  (ofSizing Keying.word (Sizing.standard.withInitial 10)).after
    [({}, .put 1 0), ({}, .put 2 1), ({}, .put 11 2), ({}, .put 21 3), ({}, .remove 11)]

/-- A new pair comes into the gap. -/
theorem Reachable.inPlace_gapped :
    (gapped.put {} 31 4).answer = .stored .inserted ∧
      gapped.traverse = [(1, 0), (21, 3), (2, 1)] ∧
      (gapped.put {} 31 4).map.traverse = [(1, 0), (31, 4), (21, 3), (2, 1)] ∧
      ∃ s, FreeSpot Keying.word gapped.table 31 s ∧
        gapped.Alters (gapped.put {} 31 4).map s none (some (31, 4)) := by
  have hm : gapped.Reachable := .after (.ofSizing _ _) _
  have hanswer : (gapped.put {} 31 4).answer = .stored .inserted := by decide
  have hcount : (gapped.put {} 31 4).map.bucketCount = gapped.bucketCount := by decide
  exact ⟨hanswer, by decide, by decide, (hm.inPlace {}).inserted 31 4 hanswer hcount⟩

end Map

end Chaining
