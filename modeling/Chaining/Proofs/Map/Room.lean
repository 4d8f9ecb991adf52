import Mathlib.Algebra.Ring.Nat
import Chaining.Proofs.Map.Reachable
import Chaining.Proofs.Table.Steady
import Chaining.Proofs.Table.Survey

/-!
# The number of buckets, and room for puts

Each map that there can be has its first number of buckets times a power of the growth
factor (`Reachable.exists_bucketCount_eq`). With 61 to begin with, the last such number
below 2^60 is 61 * 4^27, and it takes more than 2^59 pairs to grow beyond it. Until then
a growth reserves no more than an address space can hold: neither the buckets, nor the
slots for pairs that collide, of which there are no more than pairs. So a map of
standard sizing with fewer than 2^59 pairs stores whatever is put
(`Reachable.exists_put_stored`).
-/

namespace Chaining

universe u v

variable {K : Type u} {V : Type v} {ks : Keying K}

namespace Map

open Table

variable {m base after : Map ks V} {c : Conditions} {releases : List (Release K V)}

/-! ## The number of buckets -/

theorem Prepared.sizing_eq {reservations : Nat} (h : m.Prepared c base reservations) :
    base.sizing = m.sizing := by
  cases h with
  | asIs _ => rfl
  | grown _ hg =>
    cases Grows.of_grow hg
    rfl

theorem Puts.sizing_eq {key : K} {value : V} {result : PutResult K V}
    (h : m.Puts c key value result after releases) : after.sizing = m.sizing := by
  cases h with
  | notGrown _ _ => rfl
  | broken _ hg =>
    obtain ⟨n, rfl⟩ := grow_faulted hg
    rfl
  | placed hp hplaces =>
    rw [← hp.sizing_eq]
    cases hplaces <;> rfl

theorem Step.sizing_eq {request : Request K V} {answer : Answer K V}
    (h : m.Step c request answer after releases) : after.sizing = m.sizing := by
  cases h with
  | put hp => exact hp.sizing_eq
  | _ => rfl

/-- A put grows the map once or not at all. -/
theorem Puts.bucketCount {key : K} {value : V} {result : PutResult K V}
    (h : m.Puts c key value result after releases) (hw : m.table.WellFormed ks) :
    after.bucketCount = m.bucketCount ∨ after.bucketCount = m.bucketCount * growthFactor := by
  cases h with
  | notGrown _ _ => exact Or.inl rfl
  | broken _ hg =>
    obtain ⟨n, rfl⟩ := grow_faulted hg
    exact Or.inl (Emptied.takeFirst m.table n).bucketCount_eq
  | @placed base _ _ _ _ hp hplaces =>
    rw [hplaces.bucketCount_eq]
    cases hp with
    | asIs _ => exact Or.inl rfl
    | grown _ hg => exact Or.inr (grow_grown_wellFormed hg hw).2.1

theorem Step.bucketCount {request : Request K V} {answer : Answer K V}
    (h : m.Step c request answer after releases) (hw : m.table.WellFormed ks) :
    after.bucketCount = m.bucketCount ∨ after.bucketCount = m.bucketCount * growthFactor := by
  cases h with
  | put hp => exact hp.bucketCount hw
  | @modify _ f e _ => exact Or.inl (bucketCount_mapValue m.table e.pos f)
  | @remove _ e _ => exact Or.inl (bucketCount_vacate m.table e.pos)
  | @steal _ e _ => exact Or.inl (bucketCount_vacate m.table e.pos)
  | _ => exact Or.inl rfl

/-- The buckets have been multiplied some number of times. -/
theorem Reachable.exists_bucketCount_eq (hm : m.Reachable) :
    ∃ n, m.bucketCount = m.sizing.initial.toNat * growthFactor ^ n := by
  induction hm with
  | @created allocator sizing m h =>
    obtain rfl := eq_ofSizing_of_create h
    exact ⟨0, (bucketCount_ofBuckets _).trans (Nat.mul_one _).symm⟩
  | @responded m c request hm ih =>
    obtain ⟨n, hn⟩ := ih
    have hstep := m.respond_step c request
    rw [hstep.sizing_eq]
    rcases hstep.bucketCount hm.wellFormed with hcount | hcount
    · exact ⟨n, hcount.trans hn⟩
    · exact ⟨n + 1, by rw [hcount, hn, Nat.pow_succ, Nat.mul_assoc]⟩
  | @visited m s f hm ih =>
    obtain ⟨n, hn⟩ := ih
    exact ⟨n, (bucketCount_visit f s m.table).trans hn⟩

/-! ## Room -/

/-- What a map of standard sizing grows to at fewer than 2^59 pairs. -/
theorem grown_lt {len n : Nat} (hlen : len < 2 ^ 59)
    (h : Chaining.watermark (61 * growthFactor ^ n) ≤ len) :
    61 * growthFactor ^ (n + 1) < 2 ^ 60 := by
  rw [watermark_eq] at h
  have hpow : growthFactor ^ n < growthFactor ^ 27 := by
    have hlarge : growthFactor ^ 27 = 2 ^ 54 := rfl
    omega
  have hn : n < 27 := (Nat.pow_lt_pow_iff_right (by decide)).mp hpow
  have hle : growthFactor ^ (n + 1) ≤ growthFactor ^ 27 := Nat.pow_le_pow_right (by decide) hn
  have hlarge : growthFactor ^ 27 = 2 ^ 54 := rfl
  omega

theorem Reachable.put_ne_faulted (hm : m.Reachable) (hk : ks.PartialEquivalence)
    (hc : c.reentry = .never) (key : K) (value : V) (fault : Fault) :
    (m.put c key value).answer ≠ .faulted fault := by
  intro ha
  have hputs := m.put_puts c key value
  rw [ha] at hputs
  generalize (m.put c key value).map = after,
    (m.put c key value).transcript.releases.toList = releases at hputs
  cases hputs with
  | placed _ hplaces =>
    cases hplaces with
    | reentered hne => exact hne hc
  | broken _ hg => exact grow_ne_faulted hm.wellFormed (hm.distinct hk) hc _ _ _ hg

theorem grants_addressable {number slots : Nat} (h : slots < 2 ^ 60) :
    Allocator.addressable.grants number slots = true :=
  decide_eq_true h

/-- A map of standard sizing with few pairs is granted all that it grows by. -/
theorem Reachable.exists_granted (hm : m.Reachable) (hs : m.sizing = .standard)
    (hlen : m.len < 2 ^ 59) (hfull : m.watermark ≤ m.len) :
    ∃ buckets, m.sizing.grown m.bucketCount = some buckets ∧ m.Granted {} buckets := by
  obtain ⟨n, hn⟩ := hm.exists_bucketCount_eq
  have hcount : m.table.bucketCount = 61 * growthFactor ^ n := by
    rw [show m.table.bucketCount = _ from hn, hs]
    rfl
  have hgrown : m.table.bucketCount * growthFactor < 2 ^ 60 := by
    rw [hm.gauged.watermark_eq, show m.bucketCount = _ from hcount] at hfull
    rw [hcount, Nat.mul_assoc, ← Nat.pow_succ]
    exact grown_lt hlen hfull
  have hpos : 0 < m.table.bucketCount * growthFactor :=
    Nat.mul_pos hm.wellFormed.bucketCount_pos (by decide)
  have hoverflow := hm.wellFormed.overflow_le hpos
  have hlen' : m.table.len < 2 ^ 59 := hlen
  refine ⟨m.table.bucketCount * growthFactor, ?_, ?_, ?_, fun _ => ?_⟩
  · rw [hs]
    exact Sizing.grown_eq_some_iff.mpr ⟨rfl, Nat.lt_trans hgrown (by decide), rfl⟩
  · exact grants_addressable hgrown
  · exact grants_addressable hgrown
  · exact grants_addressable (by omega)

/-- It has room for another pair. -/
theorem Reachable.exists_put_stored (hm : m.Reachable) (hk : ks.PartialEquivalence)
    (hs : m.sizing = .standard) (hlen : m.len < 2 ^ 59) (key : K) (value : V) :
    ∃ change, (m.put {} key value).answer = .stored change := by
  cases ha : (m.put {} key value).answer with
  | stored change => exact ⟨change, rfl⟩
  | faulted fault => exact absurd ha (hm.put_ne_faulted hk rfl key value fault)
  | rejected r =>
    have hputs := m.put_puts {} key value
    rw [ha] at hputs
    generalize (m.put {} key value).map = after,
      (m.put {} key value).transcript.releases.toList = releases at hputs
    cases hputs with
    | placed _ hplaces =>
      cases hplaces with
      | noSlot _ hrefused =>
        rw [grants_addressable (by decide)] at hrefused
        cases hrefused
    | notGrown hfull hg =>
      obtain ⟨buckets, hb, hgranted⟩ := hm.exists_granted hs hlen hfull
      exact absurd hg (grow_ne_refused hb hgranted _ _)

end Map

end Chaining
