import Chaining.Proofs.Rejection
import Chaining.Proofs.Table.Survey

/-!
# Why a put is rejected

A put can be rejected at four points, and each reports its own count. Three lie in the
growth that it begins with (`RefusesGrowth`): no more buckets are allowed, which is found
out before anything is reserved and whether or not the key is new; the new heads or the
marks of the survey are refused; or so are the slots for the pairs that will collide, as
many as the pairs less the buckets that they hit. The fourth comes when the place has been
found (`Rejects.noSlot`): it is behind a chain without a vacant slot, in the map itself or
in the one that it has grown to.

`put_rejected_iff` says that there are no other causes and that each of these leads to its
error, and `grow_refused_iff` says the same of growth. Nothing is asked of the keying, but
a put that a fault breaks off is not rejected.
-/

namespace Chaining

open Table

universe u v

variable {K : Type u} {V : Type v} {ks : Keying K}

namespace Sizing

/-- So many buckets are no 64-bit number, or pass the limit. -/
def Exceeds (s : Sizing) (buckets : Nat) : Prop :=
  UInt64.size ≤ buckets ∨ ∃ most, s.limit = some most ∧ most.toNat < buckets

theorem not_exceeds_iff {s : Sizing} {buckets : Nat} :
    ¬ s.Exceeds buckets ↔ buckets < UInt64.size ∧ s.allows buckets := by
  unfold Exceeds allows
  rw [not_or, Nat.not_le]
  refine and_congr_right fun _ => ?_
  cases s.limit with
  | none => simp
  | some most => simp

theorem grown_eq_none_iff {s : Sizing} {buckets : Nat} :
    s.grown buckets = none ↔ s.Exceeds (buckets * growthFactor) := by
  unfold grown
  split
  next h => exact iff_of_false (by simp) (not_exceeds_iff.mpr h)
  next h => exact iff_of_true rfl (not_not.mp (mt not_exceeds_iff.mp h))

/-- Growth is allowed to four times the buckets, if they do not exceed. -/
theorem grown_eq_some_iff_exceeds {s : Sizing} {buckets next : Nat} :
    s.grown buckets = some next ↔
      next = buckets * growthFactor ∧ ¬ s.Exceeds (buckets * growthFactor) := by
  rw [grown_eq_some_iff, not_exceeds_iff]
  refine and_congr_right fun h => ?_
  rw [h]

end Sizing

namespace Table

/-- Where all pairs of a chain are turned down and no slot is vacant, a new one comes
behind it. -/
theorem Fits.eq_append {t : Table K V} {key : K} {chain : List Pos} {place : Placement K V}
    (h : Fits ks t key chain place) (hun : Unmatched ks key (chain.filterMap t.pair?))
    (hfull : ∀ p ∈ chain, t.pair? p ≠ none) : ∃ last, place = .append last := by
  cases h with
  | @replace p old _ _ hs hp hk _ =>
    have hmem : old ∈ chain.filterMap t.pair? :=
      List.mem_filterMap.mpr ⟨p, by rw [hs]; simp, hp⟩
    rw [hun old hmem] at hk
    cases hk
  | @reuse p _ _ hs hp _ _ => exact absurd hp (hfull p (by rw [hs]; simp))
  | @append last _ _ _ _ => exact ⟨last, rfl⟩

end Table

namespace Map

variable {m base after : Map ks V} {c : Conditions} {key : K} {value : V}
  {error : StorageError} {reservations : Nat}

/-- The number of pairs less that of the buckets, among so many, that they hit. -/
def collisions (m : Map ks V) (buckets : Nat) : Nat :=
  m.len - (bucketsHit ks buckets (m.pairs.map Prod.fst)).card

theorem overflow_eq_collisions (hw : m.table.WellFormed ks) {buckets : Nat}
    (hpos : 0 < buckets) : m.table.overflow ks buckets = m.collisions buckets := by
  have hcount : m.table.overflow ks buckets +
      (bucketsHit ks buckets (m.pairs.map Prod.fst)).card = m.len := hw.overflow_add_card hpos
  unfold collisions
  omega

/-! ## Growth -/

/-- A map is refused growth for that cause. -/
inductive RefusesGrowth (m : Map ks V) (c : Conditions) : StorageError → Prop where
  | full : m.sizing.Exceeds (m.bucketCount * growthFactor) →
      RefusesGrowth m c (.capacityOverflow m.bucketCount)
  /-- The heads are refused, or the marks, one for each of them. -/
  | noHeads : ¬ m.sizing.Exceeds (m.bucketCount * growthFactor) →
      c.allocator.grants 1 (m.bucketCount * growthFactor) = false ∨
        c.allocator.grants 2 (m.bucketCount * growthFactor) = false →
      RefusesGrowth m c (.allocationFailed (m.bucketCount * growthFactor))
  | noSlots : ¬ m.sizing.Exceeds (m.bucketCount * growthFactor) →
      c.allocator.grants 1 (m.bucketCount * growthFactor) = true →
      c.allocator.grants 2 (m.bucketCount * growthFactor) = true →
      m.collisions (m.bucketCount * growthFactor) ≠ 0 →
      c.allocator.grants 3 (m.collisions (m.bucketCount * growthFactor)) = false →
      RefusesGrowth m c (.allocationFailed (m.collisions (m.bucketCount * growthFactor)))

theorem refusesGrowth_of_grow {calls : Array (Call K)} (h : m.grow c = .refused error calls)
    (hw : m.table.WellFormed ks) : m.RefusesGrowth c error := by
  cases Grows.of_grow h with
  | full hb => exact .full (Sizing.grown_eq_none_iff.mp hb)
  | noHeads hb hrefused =>
    obtain ⟨rfl, hmore⟩ := Sizing.grown_eq_some_iff_exceeds.mp hb
    exact .noHeads hmore hrefused
  | noSlots hb hheads hmarks hsome hrefused =>
    have hpos := grown_pos hb hw.bucketCount_pos
    obtain ⟨rfl, hmore⟩ := Sizing.grown_eq_some_iff_exceeds.mp hb
    rw [overflow_eq_collisions hw hpos] at hsome hrefused ⊢
    exact .noSlots hmore hheads hmarks hsome hrefused

/-- No cause to refuse growth is left where it has been carried out. -/
theorem not_refusesGrowth_of_grow {calls : Array (Call K)}
    (h : m.grow c = .grown base calls reservations) (hw : m.table.WellFormed ks)
    (error : StorageError) : ¬ m.RefusesGrowth c error := by
  cases Grows.of_grow h with
  | moved hb hg _ =>
    have hpos := grown_pos hb hw.bucketCount_pos
    obtain ⟨rfl, hmore⟩ := Sizing.grown_eq_some_iff_exceeds.mp hb
    intro hcause
    cases hcause with
    | full hexceeds => exact hmore hexceeds
    | noHeads _ hrefused =>
      rw [hg.heads, hg.marks] at hrefused
      rcases hrefused with hrefused | hrefused <;> cases hrefused
    | noSlots _ _ _ hsome hrefused =>
      have hslots := hg.slots
      rw [overflow_eq_collisions hw hpos] at hslots
      rw [hslots hsome] at hrefused
      cases hrefused

/-- The causes exclude each other. -/
theorem RefusesGrowth.unique {error' : StorageError} (h : m.RefusesGrowth c error)
    (h' : m.RefusesGrowth c error') : error = error' := by
  cases h with
  | full hexceeds =>
    cases h' with
    | full _ => rfl
    | noHeads hmore _ => exact absurd hexceeds hmore
    | noSlots hmore _ _ _ _ => exact absurd hexceeds hmore
  | noHeads hmore hrefused =>
    cases h' with
    | full hexceeds => exact absurd hexceeds hmore
    | noHeads _ _ => rfl
    | noSlots _ hheads hmarks _ _ =>
      rw [hheads, hmarks] at hrefused
      rcases hrefused with hrefused | hrefused <;> cases hrefused
  | noSlots hmore hheads hmarks _ _ =>
    cases h' with
    | full hexceeds => exact absurd hexceeds hmore
    | noHeads _ hrefused =>
      rw [hheads, hmarks] at hrefused
      rcases hrefused with hrefused | hrefused <;> cases hrefused
    | noSlots _ _ _ _ _ => rfl

/-- A growth is refused for such a cause and for no other, unless a fault breaks it off. -/
theorem grow_refused_iff (hw : m.table.WellFormed ks)
    (hok : ∀ fault left calls, m.grow c ≠ .faulted fault left calls) :
    (∃ calls, m.grow c = .refused error calls) ↔ m.RefusesGrowth c error := by
  constructor
  · rintro ⟨calls, hg⟩
    exact refusesGrowth_of_grow hg hw
  · intro h
    cases hg : m.grow c with
    | refused error' calls => exact ⟨calls, by rw [h.unique (refusesGrowth_of_grow hg hw)]⟩
    | faulted fault left calls => exact absurd hg (hok fault left calls)
    | grown base calls reservations => exact absurd h (not_refusesGrowth_of_grow hg hw error)

/-! ## Puts -/

/-- A put of that key is rejected for that cause. -/
inductive Rejects (m : Map ks V) (c : Conditions) (key : K) : StorageError → Prop where
  /-- The pairs have reached the watermark, and growth is refused. -/
  | notGrown {error : StorageError} : m.watermark ≤ m.len → m.RefusesGrowth c error →
      Rejects m c key error
  /-- No growth was needed, or it has been carried out. No pair on the chain of the key has
  an equal one, no slot there is vacant, and the slot behind it is refused. -/
  | noSlot {base : Map ks V} {reservations : Nat} : m.Prepared c base reservations →
      Unmatched ks key (base.table.pairsIn (base.table.bucketOf (ks.hash key))) →
      (∀ p ∈ base.table.chain (base.table.bucketOf (ks.hash key)),
        base.table.pair? p ≠ none) →
      c.allocator.grants (reservations + 1) 1 = false →
      Rejects m c key (.allocationFailed 1)

theorem Prepared.unique {base' : Map ks V} {reservations' : Nat}
    (h : m.Prepared c base reservations) (h' : m.Prepared c base' reservations') :
    base = base' ∧ reservations = reservations' := by
  cases h with
  | asIs hlt =>
    cases h' with
    | asIs _ => exact ⟨rfl, rfl⟩
    | grown hfull _ => exact absurd hlt (Nat.not_lt.mpr hfull)
  | grown hfull hg =>
    cases h' with
    | asIs hlt => exact absurd hlt (Nat.not_lt.mpr hfull)
    | grown _ hg' =>
      rw [hg] at hg'
      cases hg'
      exact ⟨rfl, rfl⟩

variable {result : PutResult K V} {rejected : Rejected K V} {releases : List (Release K V)}

theorem Puts.rejects (h : m.Puts c key value (.rejected rejected) after releases)
    (hw : m.table.WellFormed ks) : m.Rejects c key rejected.error := by
  cases h with
  | notGrown hfull hg => exact .notGrown hfull (refusesGrowth_of_grow hg hw)
  | placed hp hplaces =>
    cases hplaces with
    | noSlot hf hrefused =>
      cases hf with
      | append _ hfull hun => exact .noSlot hp hun hfull hrefused

/-- A put that there is cause to reject, and that no fault breaks off, is rejected. -/
theorem Puts.of_rejects (h : m.Puts c key value result after releases)
    (hw : m.table.WellFormed ks) (hok : ∀ fault, result ≠ .faulted fault)
    (hr : m.Rejects c key error) : result = .rejected ⟨key, value, error⟩ := by
  cases h with
  | broken _ _ => exact absurd rfl (hok _)
  | notGrown hfull hg =>
    cases hr with
    | notGrown _ hcause => rw [hcause.unique (refusesGrowth_of_grow hg hw)]
    | noSlot hp _ _ _ =>
      cases hp with
      | asIs hlt => exact absurd hlt (Nat.not_lt.mpr hfull)
      | grown _ hg' =>
        rw [hg] at hg'
        cases hg'
  | placed hp hplaces =>
    cases hr with
    | notGrown hfull hcause =>
      cases hp with
      | asIs hlt => exact absurd hlt (Nat.not_lt.mpr hfull)
      | grown _ hg => exact absurd hcause (not_refusesGrowth_of_grow hg hw error)
    | noSlot hp' hun hfull hrefused =>
      obtain ⟨rfl, rfl⟩ := hp.unique hp'
      cases hplaces with
      | noSlot _ _ => rfl
      | reentered _ => exact absurd rfl (hok _)
      | stored hf hgrants =>
        -- behind a full chain the slot would have had to be granted
        obtain ⟨last, hlast⟩ := hf.eq_append hun hfull
        rw [hgrants last hlast] at hrefused
        cases hrefused

theorem Puts.perm_of_rejected (h : m.Puts c key value (.rejected rejected) after releases)
    (hw : m.table.WellFormed ks) : after.pairs.Perm m.pairs := by
  cases h with
  | notGrown _ _ => exact List.Perm.refl _
  | placed hp hplaces =>
    cases hplaces with
    | noSlot _ _ => exact hp.perm hw

/-- A put that no fault breaks off is rejected exactly if there is cause to, with the error
of that cause and the pair that was given. Then nothing is let go of, and the pairs are
those there were. -/
theorem put_rejected_iff (hm : m.Reachable)
    (hok : ∀ fault, (m.put c key value).answer ≠ .faulted fault) (rejected : Rejected K V) :
    ((m.put c key value).answer = .rejected rejected ↔
      rejected.key = key ∧ rejected.value = value ∧ m.Rejects c key rejected.error) ∧
    ((m.put c key value).answer = .rejected rejected →
      (m.put c key value).transcript.releases.toList = [] ∧
        (m.put c key value).map.pairs.Perm m.pairs) := by
  have hw := hm.wellFormed
  have hputs := m.put_puts c key value
  refine ⟨⟨fun h => ?_, fun ⟨hkey, hvalue, hr⟩ => ?_⟩, fun h => ?_⟩
  · rw [h] at hputs
    obtain ⟨hkey, hvalue, _⟩ := hputs.of_rejected
    exact ⟨hkey, hvalue, hputs.rejects hw⟩
  · rw [hputs.of_rejects hw hok hr, ← hkey, ← hvalue]
  · rw [h] at hputs
    exact ⟨hputs.of_rejected.2.2, hputs.perm_of_rejected hw⟩

/-- Three pairs in five buckets, of which all would fall into the first of twenty. -/
def colliding : Map (Keying.word (K := UInt64)) Nat :=
  (ofSizing Keying.word (Sizing.standard.withInitial 5)).after
    [({}, .put 0 1), ({}, .put 20 2), ({}, .put 40 3)]

/-- A pair that would only take the place of another is rejected for want of two slots. -/
theorem put_rejected_iff_colliding :
    colliding.contains 20 = true ∧
      (colliding.put { allocator := .refusing 3 } 20 4).answer =
        .rejected ⟨20, 4, .allocationFailed 2⟩ ∧
      colliding.Rejects { allocator := .refusing 3 } 20 (.allocationFailed 2) ∧
      colliding.collisions 20 = 2 := by
  have hm : colliding.Reachable := .after (.ofSizing _ _) _
  have hanswer : (colliding.put { allocator := .refusing 3 } 20 4).answer =
      .rejected ⟨20, 4, .allocationFailed 2⟩ := by decide
  have hok : ∀ fault,
      (colliding.put { allocator := .refusing 3 } 20 4).answer ≠ .faulted fault := by
    intro fault hfault
    rw [hanswer] at hfault
    cases hfault
  have h := put_rejected_iff hm hok ⟨20, 4, .allocationFailed 2⟩
  exact ⟨by decide, hanswer, (h.1.mp hanswer).2.2, by decide⟩

end Map

end Chaining
