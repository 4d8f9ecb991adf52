import Chaining.Map
import Chaining.Table.Migration

/-!
# Growth

A map grows by moving all pairs into a table with four times the buckets. All
that can be refused is asked for before the first pair moves: the sizing's
consent, then the new heads, then the marks of the survey, then, if the survey
counted any pair, that many extension slots. So a refusal leaves the map as it
was. Only a fault during the move breaks off half-way; then the pairs taken out
so far are gone from the map.
-/

namespace Chaining

universe u v

/-- How the growth of a map ended. -/
inductive Growth {K : Type u} (ks : Keying K) (V : Type v) where
  /-- The map has more buckets, after that many reservations. -/
  | grown (map : Map ks V) (calls : Array (Call K)) (reservations : Nat)
  /-- The map is as it was. -/
  | refused (error : StorageError) (calls : Array (Call K))
  /-- A fault broke the growth off and left that map. -/
  | faulted (fault : Fault) (map : Map ks V) (calls : Array (Call K))

namespace Map

variable {K : Type u} {ks : Keying K} {V : Type v}

/-- The second part of growth, with `calls` and `reservations` made: the move
of all pairs into `buckets` heads. -/
def moveInto (m : Map ks V) (c : Conditions) (buckets : Nat) (calls : Array (Call K))
    (reservations : Nat) : Growth ks V :=
  match Table.migrate ks c.reentry (Table.ofBuckets buckets) 0 calls m.table.drain.1.toList with
  | .finished table calls =>
    .grown { m with table, watermark := Chaining.watermark table.bucketCount } calls reservations
  | .stopped fault taken calls =>
    .faulted fault { m with table := (m.table.takeFirst taken).2 } calls

/-- Four times the buckets, and all pairs moved. -/
def grow (m : Map ks V) (c : Conditions) : Growth ks V :=
  match m.sizing.grown m.bucketCount with
  | none => .refused (.capacityOverflow m.bucketCount) #[]
  | some buckets =>
    if !c.allocator.grants 1 buckets || !c.allocator.grants 2 buckets then
      .refused (.allocationFailed buckets) #[]
    else
      let calls := (m.table.keysBySlot.map Call.hash).toArray
      match c.reentry.cut calls with
      | some made => .faulted .reentered m made
      | none =>
        let overflow := m.table.overflow ks buckets
        if overflow = 0 then m.moveInto c buckets calls 2
        else if c.allocator.grants 3 overflow then m.moveInto c buckets calls 3
        else .refused (.allocationFailed overflow) calls

end Map

end Chaining
