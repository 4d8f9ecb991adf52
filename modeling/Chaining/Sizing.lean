import Chaining.Text.Describe

/-!
# Sizing: how many buckets, and when more

A table starts with `Sizing.initial` buckets and quadruples them each time its
pairs have reached the watermark, seven tenths of the buckets rounded down.
`Sizing.grown` says what quadrupling gives: the new count must be a 64-bit
number and within the limit, if there is one.
-/

namespace Chaining

/-- The bucket count of a table for which none was asked. -/
def defaultBuckets : UInt64 := 61

/-- The factor by which the bucket count grows. -/
def growthFactor : Nat := 4

/-- The number of pairs at which a table of `buckets` buckets grows before it
takes another one: seven tenths of them, rounded down. The tens and the rest are
multiplied apart, so that a 64-bit count gives 64-bit products. -/
def watermark (buckets : Nat) : Nat :=
  buckets / 10 * 7 + buckets % 10 * 7 / 10

/-- The watermark is seven tenths of the buckets, rounded down. -/
theorem watermark_eq (buckets : Nat) : watermark buckets = 7 * buckets / 10 := by
  unfold watermark
  omega

/-- How many buckets a table starts with and how many it may have. -/
structure Sizing where
  /-- The bucket count at the start. -/
  initial : UInt64 := defaultBuckets
  /-- The largest bucket count that growing may reach, if there is a bound. -/
  limit : Option UInt64 := none
  /-- There is a bucket to start with. -/
  initial_ne_zero : initial ≠ 0 := by decide
  deriving DecidableEq

namespace Sizing

/-- Sixty-one buckets and no limit. -/
def standard : Sizing := {}

/-- Another bucket count at the start; zero is raised to one. -/
def withInitial (s : Sizing) (buckets : UInt64) : Sizing :=
  if h : buckets = 0 then
    { s with initial := 1, initial_ne_zero := by decide }
  else
    { s with initial := buckets, initial_ne_zero := h }

/-- Another limit. It binds growth only: more buckets to start with stay allowed. -/
def withLimit (s : Sizing) (buckets : UInt64) : Sizing :=
  { s with limit := some buckets }

/-- Whether `buckets` is within the limit. -/
def allows (s : Sizing) (buckets : Nat) : Bool :=
  match s.limit with
  | none => true
  | some most => buckets ≤ most.toNat

/-- The bucket count that follows `buckets`, if it is a 64-bit number within
the limit. -/
def grown (s : Sizing) (buckets : Nat) : Option Nat :=
  if buckets * growthFactor < UInt64.size ∧ s.allows (buckets * growthFactor) then
    some (buckets * growthFactor)
  else none

/-- Growing multiplies by the growth factor. -/
theorem grown_eq_some_iff {s : Sizing} {buckets next : Nat} :
    s.grown buckets = some next ↔
      next = buckets * growthFactor ∧ next < UInt64.size ∧ s.allows next := by
  unfold grown
  constructor
  · intro h
    split at h
    next hc => cases h; exact ⟨rfl, hc⟩
    next => cases h
  · rintro ⟨rfl, hc⟩
    exact if_pos hc

instance : Describe Sizing where
  describe s := record "MapConfig"
    [("initial_buckets", describe s.initial), ("max_buckets", describe s.limit)]

end Sizing

end Chaining
