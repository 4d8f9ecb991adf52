import Chaining.Proofs.Map.Reachable

/-!
# Rejected puts

A put that is rejected hands its pair back and lets go of nothing
(`Puts.of_rejected`). Whether it has left the map as it was depends on one thing
only, whether growth was carried out before the slot for the pair was refused
(`GrowsFirst`): then the map stays grown, and the put can be told from its bucket
count (`put_rejected_observe`). In all other cases the map is the same, whichever
reservation was refused.

So a rejected put is not always one that has not been made; `crowded` is a map
that shows it.
-/

namespace Chaining

universe u v

/-- All that is to be seen of a map: its counts, and its pairs in the order of
traversal. -/
structure Observation (K : Type u) (V : Type v) where
  len : Nat
  bucketCount : Nat
  watermark : Nat
  tombstones : Nat
  traversal : List (K × V)
  deriving DecidableEq

namespace Map

variable {K : Type u} {V : Type v} {ks : Keying K}

def observe (m : Map ks V) : Observation K V where
  len := m.len
  bucketCount := m.bucketCount
  watermark := m.watermark
  tombstones := m.tombstones
  traversal := m.traverse

/-- A put grows the map before it looks for a place: the pairs have reached the
watermark, more buckets are allowed, and all that growth reserves is granted. -/
def GrowsFirst (m : Map ks V) (c : Conditions) : Prop :=
  m.watermark ≤ m.len ∧
    ∃ buckets, m.sizing.grown m.bucketCount = some buckets ∧ m.Granted c buckets

variable {m after : Map ks V} {c : Conditions} {key : K} {value : V}
  {rejected : Rejected K V} {releases : List (Release K V)}

theorem Puts.of_rejected (h : m.Puts c key value (.rejected rejected) after releases) :
    rejected.key = key ∧ rejected.value = value ∧ releases = [] := by
  cases h with
  | placed _ hplaces =>
    cases hplaces with
    | noSlot _ _ => exact ⟨rfl, rfl, rfl⟩
  | notGrown _ _ => exact ⟨rfl, rfl, rfl⟩

theorem growsFirst_of_grown {base : Map ks V} {calls : Array (Call K)} {reservations : Nat}
    (hlen : m.watermark ≤ m.len) (h : m.grow c = .grown base calls reservations) :
    m.GrowsFirst c := by
  cases Grows.of_grow h with
  | moved hb hgranted _ => exact ⟨hlen, _, hb, hgranted⟩

theorem not_growsFirst_of_refused {error : StorageError} {calls : Array (Call K)}
    (h : m.grow c = .refused error calls) : ¬ m.GrowsFirst c :=
  fun ⟨_, _, hb, hgranted⟩ => grow_ne_refused hb hgranted error calls h

theorem Puts.eq_of_rejected (h : m.Puts c key value (.rejected rejected) after releases)
    (hg : ¬ m.GrowsFirst c) : after = m := by
  cases h with
  | placed hp hplaces =>
    cases hplaces with
    | noSlot _ _ =>
      cases hp with
      | asIs _ => rfl
      | grown hlen hgrow => exact absurd (growsFirst_of_grown hlen hgrow) hg
  | notGrown _ _ => rfl

/-- After growth a put is rejected for want of one slot, and leaves the grown map. -/
theorem Puts.grown_of_rejected (h : m.Puts c key value (.rejected rejected) after releases)
    (hg : m.GrowsFirst c) :
    (∃ calls reservations, m.grow c = .grown after calls reservations) ∧
      rejected.error = .allocationFailed 1 := by
  cases h with
  | placed hp hplaces =>
    cases hplaces with
    | noSlot _ _ =>
      cases hp with
      | asIs hlt => exact absurd hlt (Nat.not_lt.mpr hg.1)
      | grown _ hgrow => exact ⟨⟨_, _, hgrow⟩, rfl⟩
  | notGrown _ hrefused => exact absurd hg (not_growsFirst_of_refused hrefused)

/-- A rejected put leaves no trace exactly if it did not grow the map first. If it
did, there are four times the buckets and the same pairs, perhaps in another
order, and the slot for the new pair was refused. -/
theorem put_rejected_observe (hm : m.Reachable)
    (h : (m.put c key value).answer = .rejected rejected) :
    ((m.put c key value).map.observe = m.observe ↔ ¬ m.GrowsFirst c) ∧
      (m.GrowsFirst c → rejected.error = .allocationFailed 1 ∧
        (m.put c key value).map.len = m.len ∧
        (m.put c key value).map.bucketCount = m.bucketCount * growthFactor ∧
        (m.put c key value).map.traverse.Perm m.traverse) := by
  have hput := m.put_puts c key value
  rw [h] at hput
  have hw := hm.wellFormed
  have hafter := hput.wellFormed hw
  have hgrown : m.GrowsFirst c →
      rejected.error = .allocationFailed 1 ∧ (m.put c key value).map.len = m.len ∧
        (m.put c key value).map.bucketCount = m.bucketCount * growthFactor ∧
        (m.put c key value).map.traverse.Perm m.traverse := by
    intro hg
    obtain ⟨⟨calls, reservations, hgrow⟩, herror⟩ := hput.grown_of_rejected hg
    obtain ⟨_, hcount, hperm⟩ := grow_grown_wellFormed hgrow hw
    have hlen : (m.put c key value).map.len = m.len :=
      hafter.len_eq.trans (hperm.length_eq.trans hw.len_eq.symm)
    refine ⟨herror, hlen, hcount, ?_⟩
    rw [traverse_eq_pairs hafter.linked, traverse_eq_pairs hw.linked]
    exact hperm
  refine ⟨⟨?_, ?_⟩, hgrown⟩
  · intro hsame hg
    have hcount : (m.put c key value).map.bucketCount = m.bucketCount :=
      congrArg Observation.bucketCount hsame
    obtain ⟨⟨_, _, hgrow⟩, _⟩ := hput.grown_of_rejected hg
    exact Nat.ne_of_gt (grow_grown_bucketCount_lt hgrow hw) hcount
  · intro hg
    exact congrArg observe (hput.eq_of_rejected hg)

/-- Two pairs in four buckets: the next put grows the map. -/
def crowded : Map (Keying.word (K := UInt64)) Nat :=
  (ofSizing Keying.word (Sizing.standard.withInitial 1)).after [({}, .put 0 10), ({}, .put 1 11)]

theorem reachable_crowded : crowded.Reachable :=
  .after (.ofSizing _ _) _

/-- Grown to sixteen buckets, there is room for all but a third pair that falls to
the first bucket. -/
theorem put_rejected_observe_crowded :
    (crowded.put { allocator := .refusing 3 } 16 12).answer =
        .rejected ⟨16, 12, .allocationFailed 1⟩ ∧
      crowded.GrowsFirst { allocator := .refusing 3 } ∧
      (crowded.put { allocator := .refusing 3 } 16 12).map.bucketCount = 4 * growthFactor := by
  have hanswer : (crowded.put { allocator := .refusing 3 } 16 12).answer =
      .rejected ⟨16, 12, .allocationFailed 1⟩ := by decide
  have hgrows : crowded.GrowsFirst { allocator := .refusing 3 } :=
    ⟨by decide, 16, by decide, by decide, by decide, by decide⟩
  have h := put_rejected_observe reachable_crowded hanswer
  exact ⟨hanswer, hgrows, (h.2 hgrows).2.2.1⟩

/-- So a rejected put can leave another map than it found. -/
theorem observe_put_crowded_ne :
    crowded.Reachable ∧
      (crowded.put { allocator := .refusing 3 } 16 12).answer =
        .rejected ⟨16, 12, .allocationFailed 1⟩ ∧
      (crowded.put { allocator := .refusing 3 } 16 12).map.observe ≠ crowded.observe :=
  ⟨reachable_crowded, by decide, by decide⟩

end Map

end Chaining
