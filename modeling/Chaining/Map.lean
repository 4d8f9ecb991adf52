import Chaining.Sizing
import Chaining.Table.Walk
import Chaining.Conditions
import Chaining.Transcript

/-!
# Maps: a table with its keying and its sizing

A `Map` stores values under keys. It is a table together with the rule for its
bucket count; the keying is part of its type, so that every operation on one
map hashes and compares alike.

Here stand how maps are made and how they are read. Reading walks one chain and
leaves the map as it is; `Map.search` is that walk, with the calls it makes.
-/

namespace Chaining

universe u v

/-- Values under keys that are hashed and compared by `ks`. -/
structure Map {K : Type u} (ks : Keying K) (V : Type v) where
  /-- How many buckets the map starts with and may have. -/
  sizing : Sizing
  /-- Where the pairs are. -/
  table : Table K V
  /-- The number of pairs at which the next put grows the map first. It is computed when the
  map comes by a table, and kept beside it. -/
  watermark : Nat

/-- What a lookup found and the calls it made. -/
structure Search (K : Type u) (V : Type v) where
  found : Option (Entry K V)
  calls : Array (Call K)

namespace Map

variable {K : Type u} {ks : Keying K} {V : Type v}

/-- An empty map of that sizing, its memory taken for granted. -/
def ofSizing (ks : Keying K) (sizing : Sizing) : Map ks V :=
  let table := Table.ofBuckets sizing.initial.toNat
  { sizing, table, watermark := Chaining.watermark table.bucketCount }

/-- An empty map of the standard sizing. -/
def empty (ks : Keying K) : Map ks V :=
  ofSizing ks .standard

/-- An empty map of that sizing, if its heads, the one reservation made, are
granted. -/
def create (ks : Keying K) (allocator : Allocator) (sizing : Sizing) :
    Except StorageError (Map ks V) :=
  let buckets := sizing.initial.toNat
  if allocator.grants 1 buckets then .ok (ofSizing ks sizing)
  else .error (.allocationFailed buckets)

/-- The number of pairs. -/
def len (m : Map ks V) : Nat :=
  m.table.len

/-- Whether there is no pair. -/
def isEmpty (m : Map ks V) : Bool :=
  m.table.len == 0

/-- The number of buckets. -/
def bucketCount (m : Map ks V) : Nat :=
  m.table.bucketCount

/-- The number of vacant extension slots. -/
def tombstones (m : Map ks V) : Nat :=
  m.table.tombstones

/-- The pairs in the order of traversal. -/
def pairs (m : Map ks V) : List (K × V) :=
  m.table.pairs

/-- The lookup of a key: its hash is asked for once, then keys are compared. -/
def search (m : Map ks V) (key : K) : Search K V :=
  let (found, compared) := m.table.find ks (m.table.bucketOf (ks.hash key)) key
  ⟨found, #[Call.hash key] ++ compared.map (Call.equals · key)⟩

/-- The value under a key. -/
def get? (m : Map ks V) (key : K) : Option V :=
  (m.search key).found.map Entry.value

/-- The stored pair for a key. -/
def getPair? (m : Map ks V) (key : K) : Option (K × V) :=
  (m.search key).found.map Entry.pair

/-- Whether there is a pair for a key. -/
def contains (m : Map ks V) (key : K) : Bool :=
  (m.search key).found.isSome

/-- The map with another value in the place of an entry. -/
def mapValueAt (m : Map ks V) (p : Pos) (f : V → V) : Map ks V :=
  { m with table := m.table.mapValue p f }

/-- The map without the pair in one place. -/
def vacateAt (m : Map ks V) (p : Pos) : Map ks V :=
  { m with table := m.table.vacate p }

/-- What is let go of when the map is given up: every pair, as it is taken out
of the table. -/
def releases (m : Map ks V) : Array (Release K V) :=
  m.table.drain.1.map fun (k, v) => .pair k v

instance [Describe K] [Describe V] : Describe (Map ks V) where
  describe m := mapping (m.pairs.map fun (k, v) => (describe k, describe v))

/-- The text of the map with a line for each pair. -/
def describeOnLines [Describe K] [Describe V] (m : Map ks V) : String :=
  mappingOnLines (m.pairs.map fun (k, v) => (describe k, describe v))

end Map

end Chaining
