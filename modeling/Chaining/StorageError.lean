import Chaining.Text.Describe

/-!
# Why a pair was not stored

A table takes no further pair for one of two causes: it may not have more
buckets, or a reservation of memory was refused. The pair that was not stored
comes back with the cause.
-/

namespace Chaining

universe u v

/-- Why a table could not be made or could not take a pair. -/
inductive StorageError where
  /-- The bucket count would leave 64 bits or pass the limit; the count is the
  one there is. -/
  | capacityOverflow (buckets : Nat)
  /-- A reservation of that many slots was refused. -/
  | allocationFailed (slots : Nat)
  deriving DecidableEq, Repr

namespace StorageError

/-- The sentence that reports the error. -/
def message : StorageError → String
  | capacityOverflow buckets => s!"cannot grow past {buckets} buckets"
  | allocationFailed slots => s!"allocation failed while reserving {slots} slots"

instance : Describe StorageError where
  describe
    | capacityOverflow buckets => record "CapacityOverflow" [("buckets", describe buckets)]
    | allocationFailed slots => record "AllocationFailed" [("slots", describe slots)]

end StorageError

/-- A pair that was not stored, with the cause. -/
structure Rejected (K : Type u) (V : Type v) where
  key : K
  value : V
  error : StorageError
  deriving DecidableEq, Repr

instance {K : Type u} {V : Type v} [Describe K] [Describe V] : Describe (Rejected K V) where
  describe r := record "Rejected"
    [("key", describe r.key), ("value", describe r.value), ("error", describe r.error)]

end Chaining
