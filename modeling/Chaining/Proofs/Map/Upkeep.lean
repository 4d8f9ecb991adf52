import Chaining.Proofs.Map.Step
import Chaining.Proofs.Table.Steady
import Chaining.Sweep

/-!
# What steps keep

Whatever a request comes to, also where a fault broke it off in the middle of a
growth, the table it leaves is well-formed if the one before was
(`Step.wellFormed`), and the watermark that the map keeps is still that of its
buckets (`Step.gauged`). Where the comparison is symmetric and transitive, steps
keep keys distinct as well (`Step.distinct`), and then no growth meets an equal
key (`grow_ne_faulted`).
-/

namespace Chaining.Map

open Table

universe u v

variable {K : Type u} {V : Type v} {ks : Keying K}
variable {m base after : Map ks V} {c : Conditions} {releases : List (Release K V)}

/-! ## New maps and visits -/

theorem eq_ofSizing_of_create {allocator : Allocator} {sizing : Sizing}
    (h : create ks allocator sizing = .ok m) : m = ofSizing ks sizing := by
  unfold create at h
  dsimp only at h
  split at h
  next => exact (Except.ok.inj h).symm
  next => cases h

/-- A visit changes one value or nothing. -/
theorem visit_cases (f : V → V) (s : Sweep) (t : Table K V) :
    (Sweep.visit f (s, t)).2.2 = t ∨ ∃ p, (Sweep.visit f (s, t)).2.2 = t.mapValue p f := by
  unfold Sweep.visit
  dsimp only
  split
  next => exact Or.inl rfl
  next p _ _ => exact Or.inr ⟨p, rfl⟩

theorem bucketCount_visit (f : V → V) (s : Sweep) (t : Table K V) :
    (Sweep.visit f (s, t)).2.2.bucketCount = t.bucketCount := by
  rcases visit_cases f s t with h | ⟨p, h⟩
  · rw [h]
  · rw [h]
    exact bucketCount_mapValue t p f

theorem len_visit (f : V → V) (s : Sweep) (t : Table K V) :
    (Sweep.visit f (s, t)).2.2.len = t.len := by
  rcases visit_cases f s t with h | ⟨p, h⟩
  · rw [h]
  · rw [h]
    exact len_mapValue t p f

/-! ## Growth -/

theorem grown_pos {s : Sizing} {buckets next : Nat} (h : s.grown buckets = some next)
    (hb : 0 < buckets) : 0 < next := by
  rw [(Sizing.grown_eq_some_iff.mp h).1]
  exact Nat.mul_pos hb (by decide)

section Growth

variable {calls : Array (Call K)} {reservations : Nat}

theorem grow_grown_wellFormed (h : m.grow c = .grown base calls reservations)
    (hw : m.table.WellFormed ks) :
    base.table.WellFormed ks ∧ base.bucketCount = m.bucketCount * growthFactor ∧
      base.pairs.Perm m.pairs := by
  cases Grows.of_grow h with
  | moved hb _ hmove =>
    have hnew := wellFormed_ofBuckets (V := V) ks (grown_pos hb hw.bucketCount_pos)
    have hmoves := moves_of_migrate hmove
    have hcount := hmoves.bucketCount_eq
    have hperm := hmoves.perm hnew
    rw [bucketCount_ofBuckets, (Sizing.grown_eq_some_iff.mp hb).1] at hcount
    rw [pairs_ofBuckets, List.append_nil, hw.linked.drain_toList] at hperm
    exact ⟨hmoves.wellFormed hnew, hcount, hperm⟩

theorem grow_grown_bucketCount_lt (h : m.grow c = .grown base calls reservations)
    (hw : m.table.WellFormed ks) : m.bucketCount < base.bucketCount := by
  have hpos : 0 < m.bucketCount := hw.bucketCount_pos
  rw [(grow_grown_wellFormed h hw).2.1, growthFactor]
  omega

/-- A grown map has distinct keys, however they were before. -/
theorem grow_grown_distinct (h : m.grow c = .grown base calls reservations)
    (hw : m.table.WellFormed ks) (hk : ks.PartialEquivalence) : base.table.Distinct ks := by
  cases Grows.of_grow h with
  | @moved buckets _ _ _ hb _ hmove =>
    have hnew := wellFormed_ofBuckets (V := V) ks (grown_pos hb hw.bucketCount_pos)
    exact (moves_of_migrate hmove).distinct hnew hk (distinct_ofBuckets ks buckets)

/-- Growth is refused only if it is not allowed or something is not granted. -/
theorem grow_ne_refused {buckets : Nat} (hb : m.sizing.grown m.bucketCount = some buckets)
    (hgranted : m.Granted c buckets) (error : StorageError) (calls : Array (Call K)) :
    m.grow c ≠ .refused error calls := by
  intro h
  cases Grows.of_grow h with
  | full hfull =>
    rw [hfull] at hb
    cases hb
  | noHeads hb' hrefused =>
    rw [hb'] at hb
    cases hb
    rcases hrefused with hrefused | hrefused
    · rw [hgranted.heads] at hrefused
      cases hrefused
    · rw [hgranted.marks] at hrefused
      cases hrefused
  | noSlots hb' _ _ hsome hrefused =>
    rw [hb'] at hb
    cases hb
    rw [hgranted.slots hsome] at hrefused
    cases hrefused

/-- A map with distinct keys grows without a fault. -/
theorem grow_ne_faulted (hw : m.table.WellFormed ks) (hd : m.table.Distinct ks)
    (hc : c.reentry = .never) (fault : Fault) (left : Map ks V) (calls : Array (Call K)) :
    m.grow c ≠ .faulted fault left calls := by
  intro h
  cases Grows.of_grow h with
  | reentered _ hne => exact hne hc
  | @stopped buckets _ _ _ hb _ hmove =>
    obtain ⟨hbuckets, _⟩ := Sizing.grown_eq_some_iff.mp hb
    have hpos := grown_pos hb hw.bucketCount_pos
    -- pairs that meet in a new bucket have met in an old one
    have hapart : m.table.drain.1.toList.Pairwise
        (Apart ks (ofBuckets buckets : Table K V).bucketCount) := by
      rw [hw.linked.drain_toList, bucketCount_ofBuckets]
      exact hd.pairwise_apart hw ⟨growthFactor, hbuckets⟩
    obtain ⟨u, calls', hfinished⟩ := exists_migrate_finished 0 m.surveyCalls
      (wellFormed_ofBuckets ks hpos) hapart (fun x hx => by simp at hx)
    rw [hc, hfinished] at hmove
    cases hmove

end Growth

/-! ## Well-formed tables -/

theorem wellFormed_ofSizing (ks : Keying K) (sizing : Sizing) :
    (ofSizing ks sizing : Map ks V).table.WellFormed ks := by
  refine wellFormed_ofBuckets ks (Nat.pos_of_ne_zero fun h => sizing.initial_ne_zero ?_)
  exact UInt64.toNat_inj.mp h

theorem Prepared.wellFormed {reservations : Nat} (h : m.Prepared c base reservations)
    (hw : m.table.WellFormed ks) : base.table.WellFormed ks := by
  cases h with
  | asIs _ => exact hw
  | grown _ hg => exact (grow_grown_wellFormed hg hw).1

/-- A put that leaves the number of buckets goes on in the map itself. -/
theorem Prepared.eq_of_bucketCount_eq {reservations : Nat} (h : m.Prepared c base reservations)
    (hw : m.table.WellFormed ks) (hcount : base.bucketCount = m.bucketCount) : base = m := by
  cases h with
  | asIs _ => rfl
  | grown _ hg => exact absurd hcount (Nat.ne_of_gt (grow_grown_bucketCount_lt hg hw))

theorem Prepared.perm {reservations : Nat} (h : m.Prepared c base reservations)
    (hw : m.table.WellFormed ks) : base.pairs.Perm m.pairs := by
  cases h with
  | asIs _ => exact List.Perm.refl _
  | grown _ hg => exact (grow_grown_wellFormed hg hw).2.2

theorem Places.bucketCount_eq {reservations : Nat} {key : K} {value : V}
    {result : PutResult K V}
    (h : m.Places c reservations key value result after releases) :
    after.bucketCount = m.bucketCount := by
  cases h with
  | @stored place _ _ => exact bucketCount_store m.table place _
  | noSlot _ _ => rfl
  | reentered _ => rfl

theorem Puts.wellFormed {key : K} {value : V} {result : PutResult K V}
    (h : m.Puts c key value result after releases) (hw : m.table.WellFormed ks) :
    after.table.WellFormed ks := by
  cases h with
  | placed hp hplaces =>
    have hbase := hp.wellFormed hw
    cases hplaces with
    | stored hf _ => exact hbase.store hf value
    | noSlot _ _ => exact hbase
    | reentered _ => exact hbase
  | notGrown _ _ => exact hw
  | broken _ hg =>
    obtain ⟨n, rfl⟩ := grow_faulted hg
    exact hw.takeAlong #[] n m.table.positions

/-- Steps keep tables well-formed, whatever the keying does. -/
theorem Step.wellFormed {request : Request K V} {answer : Answer K V}
    (h : m.Step c request answer after releases) (hw : m.table.WellFormed ks) :
    after.table.WellFormed ks := by
  cases h with
  | put hp => exact hp.wellFormed hw
  | @modify _ f e _ => exact hw.mapValue e.pos f
  | @remove _ e _ => exact hw.vacate e.pos
  | @steal _ e _ => exact hw.vacate e.pos
  | _ => exact hw

theorem wellFormed_visit {t : Table K V} (hw : t.WellFormed ks) (f : V → V) (s : Sweep) :
    (Sweep.visit f (s, t)).2.2.WellFormed ks := by
  rcases visit_cases f s t with h | ⟨p, h⟩
  · rwa [h]
  · rw [h]
    exact hw.mapValue p f

/-! ## Watermarks -/

/-- The watermark that a map keeps is that of the buckets it has. -/
structure Gauged (m : Map ks V) : Prop where
  watermark_eq : m.watermark = Chaining.watermark m.bucketCount

theorem gauged_ofSizing (ks : Keying K) (sizing : Sizing) :
    (ofSizing ks sizing : Map ks V).Gauged where
  watermark_eq := rfl

theorem Gauged.watermark_eq_div (hg : m.Gauged) : m.watermark = 7 * m.bucketCount / 10 :=
  hg.watermark_eq.trans (Chaining.watermark_eq m.bucketCount)

/-- What leaves the watermark and the number of buckets keeps them in step. -/
theorem Gauged.of_same (hg : m.Gauged) (hmark : after.watermark = m.watermark)
    (hcount : after.bucketCount = m.bucketCount) : after.Gauged where
  watermark_eq := by rw [hmark, hcount, hg.watermark_eq]

/-- Maps with as many buckets have the same watermark. -/
theorem Gauged.watermark_congr (hg : m.Gauged) (hafter : after.Gauged)
    (hcount : after.bucketCount = m.bucketCount) : after.watermark = m.watermark := by
  rw [hafter.watermark_eq, hg.watermark_eq, hcount]

/-- A growth that is carried out sets the watermark anew, whatever it was. -/
theorem grow_grown_gauged {calls : Array (Call K)} {reservations : Nat}
    (h : m.grow c = .grown base calls reservations) : base.Gauged := by
  cases Grows.of_grow h with
  | moved _ _ _ => exact ⟨rfl⟩

theorem Prepared.gauged {reservations : Nat} (h : m.Prepared c base reservations)
    (hg : m.Gauged) : base.Gauged := by
  cases h with
  | asIs _ => exact hg
  | grown _ hgrown => exact grow_grown_gauged hgrown

theorem Places.watermark_eq {reservations : Nat} {key : K} {value : V}
    {result : PutResult K V}
    (h : m.Places c reservations key value result after releases) :
    after.watermark = m.watermark := by
  cases h <;> rfl

theorem Puts.gauged {key : K} {value : V} {result : PutResult K V}
    (h : m.Puts c key value result after releases) (hg : m.Gauged) : after.Gauged := by
  cases h with
  | placed hp hplaces =>
    exact (hp.gauged hg).of_same hplaces.watermark_eq hplaces.bucketCount_eq
  | notGrown _ _ => exact hg
  | broken _ hbroken =>
    obtain ⟨n, rfl⟩ := grow_faulted hbroken
    exact hg.of_same rfl (Emptied.takeFirst m.table n).bucketCount_eq

/-- Steps keep the watermark and the number of buckets in step. -/
theorem Step.gauged {request : Request K V} {answer : Answer K V}
    (h : m.Step c request answer after releases) (hg : m.Gauged) : after.Gauged := by
  cases h with
  | put hp => exact hp.gauged hg
  | @modify _ f e _ => exact hg.of_same rfl (bucketCount_mapValue m.table e.pos f)
  | @remove _ e _ => exact hg.of_same rfl (bucketCount_vacate m.table e.pos)
  | @steal _ e _ => exact hg.of_same rfl (bucketCount_vacate m.table e.pos)
  | _ => exact hg

/-! ## Lookups -/

/-- What a lookup finds has a key equal to the one looked up and a place among the
pairs, where another value may come, or none. -/
theorem exists_pairs_of_search {key : K} {e : Entry K V} (h : (m.search key).found = some e)
    (hw : m.table.WellFormed ks) :
    ks.equals e.key key = true ∧ ∃ front back, m.pairs = front ++ e.pair :: back ∧
      (m.vacateAt e.pos).pairs = front ++ back ∧
      ∀ f, (m.mapValueAt e.pos f).pairs = front ++ (e.key, f e.value) :: back := by
  obtain ⟨before, behind, _, hk, hv, hm⟩ :=
    hw.linked.exchange_find (hw.bucketOf_lt (ks.hash key)) h
  obtain ⟨hold, hnone⟩ := hv.pairs
  rw [Option.toList_some, List.append_assoc] at hold
  rw [Option.toList_none, List.append_nil] at hnone
  refine ⟨hk, _, _, hold, hnone, fun f => ?_⟩
  have hnew := (hm f).pairs.2
  rwa [Option.toList_some, List.append_assoc] at hnew

/-! ## Distinct keys -/

theorem Puts.distinct {key : K} {value : V} {result : PutResult K V}
    (h : m.Puts c key value result after releases) (hw : m.table.WellFormed ks)
    (hk : ks.PartialEquivalence) (hd : m.table.Distinct ks) : after.table.Distinct ks := by
  cases h with
  | @placed base _ _ _ _ hp hplaces =>
    have hbase := hp.wellFormed hw
    have hdistinct : base.table.Distinct ks := by
      cases hp with
      | asIs _ => exact hd
      | grown _ hg => exact grow_grown_distinct hg hw hk
    cases hplaces with
    | stored hf _ =>
      exact hdistinct.store hk hbase.linked (hbase.bucketOf_lt (ks.hash key)) hf value
    | noSlot _ _ => exact hdistinct
    | reentered _ => exact hdistinct
  | notGrown _ _ => exact hd
  | broken _ hg =>
    obtain ⟨n, rfl⟩ := grow_faulted hg
    exact hd.takeAlong hk hw.linked #[] n m.table.positions

/-- Steps keep keys distinct under a partial equivalence. -/
theorem Step.distinct {request : Request K V} {answer : Answer K V}
    (h : m.Step c request answer after releases) (hw : m.table.WellFormed ks)
    (hk : ks.PartialEquivalence) (hd : m.table.Distinct ks) : after.table.Distinct ks := by
  cases h with
  | put hp => exact hp.distinct hw hk hd
  | @modify _ f e _ => exact hd.mapValue hk hw.linked e.pos f
  | @remove _ e _ => exact hd.vacate hk hw.linked e.pos
  | @steal _ e _ => exact hd.vacate hk hw.linked e.pos
  | _ => exact hd

theorem distinct_visit {t : Table K V} (hd : t.Distinct ks) (hk : ks.PartialEquivalence)
    (hl : t.Linked) (f : V → V) (s : Sweep) : (Sweep.visit f (s, t)).2.2.Distinct ks := by
  rcases visit_cases f s t with h | ⟨p, h⟩
  · rwa [h]
  · rw [h]
    exact hd.mapValue hk hl p f

end Chaining.Map
