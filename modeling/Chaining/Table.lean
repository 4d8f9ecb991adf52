/-!
# Tables: head slots, extension slots and chains

A table has one head slot for each bucket and an arena of extension slots. A
slot holds a pair or is vacant, and may link to an extension slot, named by its
place in the arena; the head and what its links lead to are the bucket's
*chain*. Slots are never taken out of a chain: a pair that leaves makes its slot
vacant, and a vacant extension slot is a *tombstone*.

The view of a table is `Table.pairs`: the pairs bucket by bucket and, within a
bucket, along the chain. Lookups, changes and traversals are all said in terms
of the positions in that order, `Table.positions`.

A chain is read with the number of extension slots as its bound. In a table
made by the operations of this library every link leads to a slot created
later than its own, so no chain is longer.

The arena stands for a slot map, a store that gives out a key for each slot it
is handed. This much is taken of the slot map:

* its keys are numbers that count the slots as they were created. No slot is
  ever taken out of a table's arena, it is only appended to, so no key is given
  out twice and none goes stale;
* it visits its slots in the order of their creation;
* nothing but memory limits how many slots it holds.
-/

namespace Chaining

universe u v

/-- A place for one pair, with the link to the extension slot that follows. -/
structure Slot (K : Type u) (V : Type v) where
  /-- The pair in the slot; a slot without one is vacant. -/
  pair : Option (K × V)
  /-- The next slot of the chain, by its place in the arena. -/
  next : Option Nat
  deriving Repr

/-- A vacant slot that ends its chain. -/
def Slot.vacant {K : Type u} {V : Type v} : Slot K V :=
  ⟨none, none⟩

/-- The slot with another value in its pair, if it holds one. -/
def Slot.mapValue {K : Type u} {V : Type v} (s : Slot K V) (f : V → V) : Slot K V :=
  { s with pair := s.pair.map fun (k, v) => (k, f v) }

/-- Where a slot is. -/
inductive Pos where
  /-- The head slot of a bucket. -/
  | head (bucket : Nat)
  /-- The extension slot at a place in the arena. -/
  | extension (index : Nat)
  deriving DecidableEq, Repr

/-- Head slots, extension slots and the number of pairs they hold. -/
structure Table (K : Type u) (V : Type v) where
  /-- The head slots, one for each bucket. -/
  heads : Array (Slot K V)
  /-- The extension slots in the order of their creation. -/
  arena : Array (Slot K V)
  /-- The number of pairs. -/
  len : Nat
  deriving Repr

namespace Table

variable {K : Type u} {V : Type v}

/-- A table of vacant heads. -/
def ofBuckets (buckets : Nat) : Table K V where
  heads := Array.replicate buckets Slot.vacant
  arena := #[]
  len := 0

/-- The number of buckets. -/
def bucketCount (t : Table K V) : Nat :=
  t.heads.size

/-- The bucket of a hash: its remainder by the number of buckets. -/
def bucketOf (t : Table K V) (hash : UInt64) : Nat :=
  hash.toNat % t.bucketCount

/-- The slot at a position, if the table has it. -/
def slot? (t : Table K V) : Pos → Option (Slot K V)
  | .head b => t.heads[b]?
  | .extension i => t.arena[i]?

/-- The pair at a position; none if the slot is vacant. -/
def pair? (t : Table K V) (p : Pos) : Option (K × V) :=
  (t.slot? p).bind Slot.pair

/-- The extension slot that follows a position on its chain. -/
def next? (t : Table K V) (p : Pos) : Option Nat :=
  (t.slot? p).bind Slot.next

/-- The number of vacant extension slots. -/
def tombstones (t : Table K V) : Nat :=
  t.arena.countP fun s => s.pair.isNone

/-- A position and those that its links lead to, at most `bound` of them. -/
def chainFrom (t : Table K V) : (bound : Nat) → Pos → List Pos
  | 0, _ => []
  | bound + 1, p =>
    p :: match t.next? p with
      | none => []
      | some i => t.chainFrom bound (.extension i)

/-- The chain of a bucket. -/
def chain (t : Table K V) (bucket : Nat) : List Pos :=
  t.chainFrom (t.arena.size + 1) (.head bucket)

/-- All positions on chains, bucket by bucket. -/
def positions (t : Table K V) : List Pos :=
  (List.range t.bucketCount).flatMap t.chain

/-- The pairs, bucket by bucket and along the chains. -/
def pairs (t : Table K V) : List (K × V) :=
  t.positions.filterMap t.pair?

/-- Another content for one slot; its link stays. -/
def setPair (t : Table K V) (p : Pos) (pair : Option (K × V)) : Table K V :=
  match p with
  | .head b => { t with heads := t.heads.modify b fun s => { s with pair } }
  | .extension i => { t with arena := t.arena.modify i fun s => { s with pair } }

/-- Another link for one slot; its content stays. -/
def setNext (t : Table K V) (p : Pos) (next : Option Nat) : Table K V :=
  match p with
  | .head b => { t with heads := t.heads.modify b fun s => { s with next } }
  | .extension i => { t with arena := t.arena.modify i fun s => { s with next } }

/-- Another value for the pair at a position, if there is one. -/
def mapValue (t : Table K V) (p : Pos) (f : V → V) : Table K V :=
  match p with
  | .head b => { t with heads := t.heads.modify b (·.mapValue f) }
  | .extension i => { t with arena := t.arena.modify i (·.mapValue f) }

/-- A pair into a vacant slot. -/
def fill (t : Table K V) (p : Pos) (pair : K × V) : Table K V :=
  let len := t.len + 1
  { t.setPair p (some pair) with len }

/-- A pair into a new extension slot behind the last slot of a chain. -/
def append (t : Table K V) (last : Pos) (pair : K × V) : Table K V :=
  let index := t.arena.size
  let len := t.len + 1
  let t := t.setNext last (some index)
  { t with arena := t.arena.push ⟨some pair, none⟩, len }

/-- The slot at a position made vacant. A slot that is vacant already changes
nothing. -/
def vacate (t : Table K V) (p : Pos) : Table K V :=
  match t.pair? p with
  | none => t
  | some _ =>
    let len := t.len - 1
    { t.setPair p none with len }

/-- Takes pairs out along some positions, at most `most` of them, behind those
`taken`: each slot is read and made vacant before the next one is read. -/
def takeAlong (taken : Array (K × V)) (t : Table K V) :
    (most : Nat) → List Pos → Array (K × V) × Table K V
  | 0, _ => (taken, t)
  | _ + 1, [] => (taken, t)
  | most + 1, p :: rest =>
    match t.pair? p with
    | none => takeAlong taken t (most + 1) rest
    | some pair => takeAlong (taken.push pair) (t.vacate p) most rest

/-- Takes out the first `n` pairs, bucket by bucket and along the chains. All
slots stay where they are. -/
def takeFirst (t : Table K V) (n : Nat) : Array (K × V) × Table K V :=
  takeAlong #[] t n t.positions

/-- Takes out all pairs. -/
def drain (t : Table K V) : Array (K × V) × Table K V :=
  t.takeFirst t.positions.length

end Table

end Chaining
