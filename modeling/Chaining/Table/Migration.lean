import Chaining.Table.Marks
import Chaining.Table.Walk
import Chaining.Conditions

/-!
# Moving all pairs into another table

A table grows by moving its pairs into a fresh table with more buckets, in two
passes over the pairs.

* The *survey* (`Table.overflow`) counts the pairs that will find their new head
  slot taken, so that their slots can be reserved before any pair moves. It
  visits the heads and then the arena, and hashes each key once.
* The *migration* (`Table.migrate`) moves the pairs one at a time in the order in
  which `Table.drain` takes them out, each to where a put would place it. Nothing
  is replaced on the way: if a moved pair meets an equal key, which a comparison
  that is not symmetric can bring about, the migration stops.

A migration that stops leaves the old table without the pairs taken out so far,
and the new one is given up with those it holds.

What stops a migration are debug assertions, and they are modelled as enabled.
In a build without them a migration always goes on to its end: a moved pair that
meets an equal key takes the place of the other, which is dropped without the
disposer being told, and the new table counts one pair less than were moved.
-/

namespace Chaining

universe u v

namespace Table

variable {K : Type u} {V : Type v}

/-- The keys in the table, those in heads by bucket, then those in extension
slots by creation. -/
def keysBySlot (t : Table K V) : List K :=
  (t.heads.toList ++ t.arena.toList).filterMap fun s => s.pair.map Prod.fst

/-- One key of the survey: its bucket among `buckets` is marked, or counted if
it is marked already. -/
def surveyKey (ks : Keying K) (buckets : Nat) : Marks × Nat → K → Marks × Nat
  | (marks, overflow), key =>
    let bucket := (ks.hash key).toNat % buckets
    if marks.has bucket then (marks, overflow + 1)
    else (marks.set bucket, overflow)

/-- The marks and the count after some keys. -/
def survey (ks : Keying K) (buckets : Nat) (keys : List K) : Marks × Nat :=
  keys.foldl (surveyKey ks buckets) (Marks.clear buckets, 0)

/-- The number of pairs that would not stand in a head slot among `buckets`
buckets. -/
def overflow (ks : Keying K) (t : Table K V) (buckets : Nat) : Nat :=
  (survey ks buckets t.keysBySlot).2

end Table

/-- How a migration ended, with all calls of the operation so far. -/
inductive Migration (K : Type u) (V : Type v) where
  /-- All pairs are in the new table. -/
  | finished (table : Table K V) (calls : Array (Call K))
  /-- It stopped at the pair that was the `taken`-th to be taken out. -/
  | stopped (fault : Fault) (taken : Nat) (calls : Array (Call K))

namespace Table

variable {K : Type u} {V : Type v}

/-- Moves some pairs into `new`, of which `taken` have been taken out and
`calls` made before. -/
def migrate (ks : Keying K) (reentry : Reentry) (new : Table K V) (taken : Nat)
    (calls : Array (Call K)) : List (K × V) → Migration K V
  | [] => .finished new calls
  | (key, value) :: rest =>
    let (place, compared) := new.locate ks (new.bucketOf (ks.hash key)) key
    let calls := calls.push (.hash key) ++ compared.map (Call.equals · key)
    match reentry.cut calls with
    | some made => .stopped .reentered (taken + 1) made
    | none =>
      match place with
      | .replace .. => .stopped .duplicateKey (taken + 1) calls
      | place => migrate ks reentry (new.store place (key, value)) (taken + 1) calls rest

end Table

end Chaining
