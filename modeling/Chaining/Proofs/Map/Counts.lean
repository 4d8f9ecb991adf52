import Chaining.Proofs.Dictionary
import Chaining.Proofs.Ownership

/-!
# What the counts decide

Whether a put is refused, and whether the map grows for it, is not decided by its keys. Where
no fault breaks the put off and no reservation is refused, the counts decide it: the number of
pairs, the number of buckets and the sizing (`Step.room_eq`). A put below the watermark is
stored in the buckets that there are, and at the watermark in four times as many, or not at all
if so many are not allowed.
-/

namespace Chaining

open Table

universe u v

variable {K : Type u} {V : Type v} {ks : Keying K}

/-- Whether a request went on without a fault, and all that it reserved was granted. -/
def Answer.undisturbed : Answer K V → Bool
  | .put (.faulted _) => false
  | .put (.rejected ⟨_, _, .allocationFailed _⟩) => false
  | .faulted _ => false
  | _ => true

theorem Answer.isFault_of_undisturbed {answer : Answer K V} (h : answer.undisturbed = true) :
    answer.isFault = false := by
  cases answer with
  | put result => cases result <;> first | rfl | cases h
  | faulted fault => cases h
  | _ => rfl

theorem Answer.refusal_of_undisturbed {answer : Answer K V} (h : answer.undisturbed = true) :
    answer.refusal = none ∨ ∃ buckets, answer.refusal = some (.capacityOverflow buckets) := by
  cases answer with
  | put result =>
    cases result with
    | stored _ => exact Or.inl rfl
    | faulted _ => cases h
    | rejected r =>
      obtain ⟨_, _, error⟩ := r
      cases error with
      | capacityOverflow buckets => exact Or.inr ⟨buckets, rfl⟩
      | allocationFailed _ => cases h
  | _ => exact Or.inl rfl

/-- Whether a put is refused that no lack of memory keeps from being stored, and the
number of buckets afterwards. -/
def Sizing.room (s : Sizing) (len buckets : Nat) : Option StorageError × Nat :=
  if len < watermark buckets then (none, buckets)
  else
    match s.grown buckets with
    | none => (some (.capacityOverflow buckets), buckets)
    | some next => (none, next)

/-- Only puts are refused, or change the number of buckets. -/
def Request.room (s : Sizing) (len buckets : Nat) :
    Request K V → Option StorageError × Nat
  | .put _ _ => s.room len buckets
  | _ => (none, buckets)

/-- All that is reserved is granted, and no call looks into the map. -/
def Conditions.granting : Conditions where
  allocator := .generous

namespace Map

variable {m base after : Map ks V} {c : Conditions} {releases : List (Release K V)}

theorem Prepared.room_eq {reservations : Nat} (h : m.Prepared c base reservations)
    (hw : m.table.WellFormed ks) (hgauged : m.Gauged) :
    m.sizing.room m.len m.bucketCount = (none, base.bucketCount) := by
  unfold Sizing.room
  rw [← hgauged.watermark_eq]
  cases h with
  | asIs hlt => exact if_pos hlt
  | grown hfull hg =>
    have hcount := (grow_grown_wellFormed hg hw).2.1
    have hgrows := Grows.of_grow hg
    rw [if_neg (Nat.not_lt.mpr hfull)]
    cases hgrows with
    | moved hb _ _ =>
      rw [hb, hcount, (Sizing.grown_eq_some_iff.mp hb).1]

/-- A growth that is refused, though no memory is, is not allowed; it has called nothing. -/
theorem full_of_refused {key : K} {value : V} {error : StorageError} {calls : Array (Call K)}
    (h : m.grow c = .refused error calls)
    (hok : (Answer.put (.rejected ⟨key, value, error⟩)).undisturbed = true) :
    m.sizing.grown m.bucketCount = none ∧ error = .capacityOverflow m.bucketCount ∧
      calls = #[] := by
  cases Grows.of_grow h with
  | full hb => exact ⟨hb, rfl, rfl⟩
  | noHeads _ _ => cases hok
  | noSlots _ _ _ _ _ => cases hok

/-- A put is refused, and the map grows, as the counts say. -/
theorem Puts.room_eq {key : K} {value : V} {result : PutResult K V}
    (h : m.Puts c key value result after releases) (hw : m.table.WellFormed ks)
    (hgauged : m.Gauged) (hok : (Answer.put result).undisturbed = true) :
    ((Answer.put result).refusal, after.bucketCount) = m.sizing.room m.len m.bucketCount := by
  cases h with
  | broken _ _ => cases hok
  | notGrown hfull hg =>
    obtain ⟨hb, rfl, _⟩ := full_of_refused hg hok
    unfold Sizing.room
    rw [← hgauged.watermark_eq, if_neg (Nat.not_lt.mpr hfull), hb]
    rfl
  | placed hp hplaces =>
    rw [hp.room_eq hw hgauged, hplaces.bucketCount_eq]
    cases hplaces with
    | stored _ _ => rfl
    | noSlot _ _ => cases hok
    | reentered _ => cases hok

theorem Step.room_eq {request : Request K V} {answer : Answer K V}
    (h : m.Step c request answer after releases) (hw : m.table.WellFormed ks)
    (hgauged : m.Gauged) (hok : answer.undisturbed = true) :
    (answer.refusal, after.bucketCount) = request.room m.sizing m.len m.bucketCount := by
  cases h with
  | put hp => exact hp.room_eq hw hgauged hok
  | reentered _ => cases hok
  | @modify _ f e _ => exact congrArg (none, ·) (bucketCount_mapValue m.table e.pos f)
  | @remove _ e _ => exact congrArg (none, ·) (bucketCount_vacate m.table e.pos)
  | @steal _ e _ => exact congrArg (none, ·) (bucketCount_vacate m.table e.pos)
  | _ => rfl

/-! ## Where everything is granted -/

theorem Puts.undisturbed {key : K} {value : V} {result : PutResult K V}
    (h : m.Puts .granting key value result after releases) (hw : m.table.WellFormed ks)
    (hd : m.table.Distinct ks) : (Answer.put result).undisturbed = true := by
  cases h with
  | broken _ hg => exact absurd hg (grow_ne_faulted hw hd rfl _ _ _)
  | @notGrown error _ hfull hg =>
    cases Grows.of_grow hg with
    | full _ => rfl
    | noHeads _ hrefused => rcases hrefused with hrefused | hrefused <;> cases hrefused
    | noSlots _ _ _ _ hrefused => cases hrefused
  | placed _ hplaces =>
    cases hplaces with
    | stored _ _ => rfl
    | noSlot _ hrefused => cases hrefused
    | reentered hne => exact absurd rfl hne

/-- If all is granted and no call looks into the map, a map of distinct keys is left
undisturbed. -/
theorem Step.undisturbed {request : Request K V} {answer : Answer K V}
    (h : m.Step .granting request answer after releases) (hw : m.table.WellFormed ks)
    (hd : m.table.Distinct ks) : answer.undisturbed = true := by
  cases h with
  | put hp => exact hp.undisturbed hw hd
  | reentered hne => exact absurd rfl hne
  | _ => rfl

end Map

end Chaining
