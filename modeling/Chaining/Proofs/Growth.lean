import Chaining.Proofs.Map.Reachable
import Chaining.Proofs.Table.Dense

/-!
# Growth spreads each bucket over four

A growth that is carried out makes a table without gaps with four times the buckets.
Each of its chains is the part of one old chain that the hash sends there, in the old
order (`grow_grown_spreads`); this asks nothing of the keying.

That a growth is carried out, once all it reserves is granted, asks that the
comparison be symmetric and transitive (`Reachable.grow_spreads`). The hash need not
agree with it: two keys that meet in a new bucket have met in an old one, and there no
two are found equal. This is not seen on the growth itself, but holds of every map
that there can be, since a pair that takes the place of another has a key equal to the
same keys as the old one.
-/

namespace Chaining

open Table

universe u v

variable {K : Type u} {V : Type v} {ks : Keying K}

namespace Map

/-- A map and the one it has grown to. The fields `emptied` to `len_eq` are all that
the operation takes for granted on its way. -/
structure Spreads (m grown : Map ks V) : Prop where
  sizing_eq : grown.sizing = m.sizing
  bucketCount_eq : grown.bucketCount = m.bucketCount * growthFactor
  /-- All pairs are taken out, and each is counted off. -/
  emptied : m.table.drain.1.toList = m.pairs ∧ m.table.drain.2.len = 0 ∧
    ∀ n, (m.table.takeFirst n).2.len + min n m.len = m.len
  /-- Each is moved once, in the order of traversal. None meets an equal key, and no
  slot is filled that holds a pair. -/
  moves : Moves ks (ofBuckets (m.bucketCount * growthFactor)) m.pairs grown.table
  len_eq : grown.len = m.len
  perm : grown.pairs.Perm m.pairs
  tombstones_eq : grown.tombstones = 0
  /-- The chain of a bucket is what falls into it of one old chain, in the same order;
  if nothing does, it is the vacant head. -/
  chain_eq : ∀ j, j < grown.bucketCount →
    (grown.table.chain j).map grown.table.pair? =
      slotsOf ((m.table.pairsIn (j % m.bucketCount)).filter fun kv =>
        (ks.hash kv.1).toNat % grown.bucketCount = j)

variable {m grown : Map ks V} {c : Conditions} {calls : Array (Call K)} {reservations : Nat}

/-- What growing comes to, whatever the keying, if it is carried out. -/
theorem grow_grown_spreads (h : m.grow c = .grown grown calls reservations)
    (hw : m.table.WellFormed ks) : m.Spreads grown := by
  obtain ⟨hgrown, hcount, hperm⟩ := grow_grown_wellFormed h hw
  cases Grows.of_grow h with
  | @moved buckets table _ _ hb _ hmove =>
    have hmoves := moves_of_migrate hmove
    have hnew := wellFormed_ofBuckets (V := V) ks (grown_pos hb hw.bucketCount_pos)
    have hdense := hmoves.dense hnew (dense_ofBuckets buckets)
    have hbuckets := (Sizing.grown_eq_some_iff.mp hb).1
    have htable : table.bucketCount = buckets := hcount.trans hbuckets.symm
    rw [hw.linked.drain_toList] at hmoves
    refine ⟨rfl, hcount, ⟨hw.linked.drain_toList, hw.len_drain, hw.len_takeFirst⟩,
      hbuckets ▸ hmoves, ?_, hperm, hdense.tombstones_eq, fun j hj => ?_⟩
    · exact hgrown.len_eq.trans (hperm.length_eq.trans hw.len_eq.symm)
    · have hj' : j < table.bucketCount := hj
      rw [hdense.map_chain hgrown.linked hj']
      refine congrArg slotsOf ?_
      show table.pairsIn j = (m.table.pairsIn (j % m.table.bucketCount)).filter fun kv =>
        (ks.hash kv.1).toNat % table.bucketCount = j
      rw [htable] at hj' ⊢
      exact hmoves.pairsIn_eq_filter hw ⟨growthFactor, hbuckets⟩ hj'

/-- Under a comparison that is symmetric and transitive no two pairs of one bucket are
found equal, and a growth of which nothing is refused is carried out. -/
theorem Reachable.grow_spreads (hm : m.Reachable) (hk : ks.PartialEquivalence) :
    m.table.Distinct ks ∧
      ∀ (c : Conditions) (buckets : Nat), c.reentry = .never →
        m.sizing.grown m.bucketCount = some buckets → m.Granted c buckets →
          ∃ grown calls reservations,
            m.grow c = .grown grown calls reservations ∧ m.Spreads grown := by
  have hw := hm.wellFormed
  have hd := hm.distinct hk
  refine ⟨hd, fun c buckets hc hb hgranted => ?_⟩
  cases hg : m.grow c with
  | refused error calls => exact absurd hg (grow_ne_refused hb hgranted error calls)
  | faulted fault left calls => exact absurd hg (grow_ne_faulted hw hd hc fault left calls)
  | grown grown calls reservations =>
    exact ⟨grown, calls, reservations, rfl, grow_grown_spreads hg hw⟩

end Map

/-- Numbers of which those are equal that leave one by four. No other is equal to
itself, and equal numbers need not hash alike. -/
def Keying.oneByFour : Keying UInt64 where
  hash := id
  equals stored given := stored % 4 == 1 && given % 4 == 1

theorem Keying.partialEquivalence_oneByFour : oneByFour.PartialEquivalence where
  symm := by
    intro a b h
    obtain ⟨ha, hb⟩ := Bool.and_eq_true_iff.mp h
    exact Bool.and_eq_true_iff.mpr ⟨hb, ha⟩
  trans := by
    intro a b c h h'
    exact Bool.and_eq_true_iff.mpr
      ⟨(Bool.and_eq_true_iff.mp h).1, (Bool.and_eq_true_iff.mp h').2⟩

namespace Map

/-- Two numbers equal to each other in buckets of their own, and a chain on which the
later one of two pairs stands first. -/
def tangled : Map Keying.oneByFour Nat :=
  (ofSizing Keying.oneByFour (Sizing.standard.withInitial 5)).after
    [({}, .put 5 1), ({}, .put 10 2), ({}, .remove 5), ({}, .put 30 3), ({}, .put 9 4)]

/-- The two numbers that share a bucket keep their order in the grown table, and the
bucket of the number taken out is empty. -/
theorem Reachable.grow_spreads_tangled :
    tangled.table.pairsIn 0 = [(30, 3), (10, 2)] ∧
      ∃ grown calls reservations, tangled.grow {} = .grown grown calls reservations ∧
        (grown.table.chain 10).map grown.table.pair? = [some (30, 3), some (10, 2)] ∧
        (grown.table.chain 5).map grown.table.pair? = [none] ∧ grown.tombstones = 0 := by
  have hm : tangled.Reachable := .after (.ofSizing _ _) _
  obtain ⟨_, hgrow⟩ := hm.grow_spreads Keying.partialEquivalence_oneByFour
  obtain ⟨grown, calls, reservations, hg, hs⟩ :=
    hgrow {} 20 rfl (by decide) ⟨by decide, by decide, by decide⟩
  have hcount : grown.bucketCount = 20 := hs.bucketCount_eq.trans (by decide)
  refine ⟨by decide, grown, calls, reservations, hg, ?_, ?_, hs.tombstones_eq⟩
  · rw [hs.chain_eq 10 (by omega), hcount]
    decide
  · rw [hs.chain_eq 5 (by omega), hcount]
    decide

end Map

end Chaining
