import Chaining.Table
import Chaining.Walk

/-!
# Cursors and traversals

A `Cursor` is a place between two pairs of some table: the bucket it is in and,
if the chain goes on, the extension slot that comes next. It holds no table, so
it can be kept while the table changes and even be used on another one. Then
its extension slot may be one that the table does not have; such a slot is
dropped and the walk goes on with the next bucket.

A `Traversal` is a cursor from the start together with the number of pairs
still to come, counted down from the table's own.
-/

namespace Chaining

universe u v

/-- A place in a walk over tables. -/
structure Cursor where
  /-- The bucket the walk is in; none before the first. -/
  bucket : Option Nat
  /-- The extension slot that comes next on the chain. -/
  pending : Option Nat
  deriving DecidableEq, Repr

namespace Table

variable {K : Type u} {V : Type v}

/-- The first pair along the chain from a position on, at most `bound` slots
ahead, with the extension slot that follows it. -/
def firstFrom (t : Table K V) : (bound : Nat) → Pos → Option ((K × V) × Option Nat)
  | 0, _ => none
  | bound + 1, p =>
    match t.pair? p, t.next? p with
    | some pair, next => some (pair, next)
    | none, some i => t.firstFrom bound (.extension i)
    | none, none => none

/-- The first pair in `n` buckets from `bucket` on, with its bucket and the
extension slot that follows it. -/
def firstInBuckets (t : Table K V) : (n bucket : Nat) → Option ((K × V) × Cursor)
  | 0, _ => none
  | n + 1, bucket =>
    match t.firstFrom (t.arena.size + 1) (.head bucket) with
    | some (pair, next) => some (pair, ⟨some bucket, next⟩)
    | none => t.firstInBuckets n (bucket + 1)

end Table

namespace Cursor

variable {K : Type u} {V : Type v}

/-- Before the first bucket. -/
def start : Cursor := ⟨none, none⟩

/-- The bucket after the one the walk is in. -/
def nextBucket (c : Cursor) : Nat :=
  match c.bucket with
  | none => 0
  | some b => b + 1

/-- The next pair in the buckets after this one; without any, the cursor is past
the last bucket. -/
def nextHead (c : Cursor) (t : Table K V) : Option (K × V) × Cursor :=
  match t.firstInBuckets (t.bucketCount - c.nextBucket) c.nextBucket with
  | some (pair, c) => (some pair, c)
  | none => (none, ⟨some t.bucketCount, none⟩)

/-- The next pair of the walk over a table, and the cursor behind it. -/
def next (c : Cursor) (t : Table K V) : Option (K × V) × Cursor :=
  match c.pending with
  | none => c.nextHead t
  | some i =>
    match t.firstFrom (t.arena.size + 1) (.extension i) with
    | some (pair, next) => (some pair, { c with pending := next })
    | none => c.nextHead t

/-- The answers of the next `n` steps. -/
def take (c : Cursor) (t : Table K V) (n : Nat) : Array (Option (K × V)) × Cursor :=
  Walk.take (fun c => c.next t) n c

/-- More steps than any cursor takes before it answers none: from its pending
slot on it passes one chain, and then every bucket's. -/
def stepBound (t : Table K V) : Nat :=
  t.bucketCount + 2 * t.arena.size + 1

/-- All pairs that are still ahead. -/
def drain (c : Cursor) (t : Table K V) : Array (K × V) × Cursor :=
  Walk.drain (fun c => c.next t) (stepBound t) c

end Cursor

/-- A walk over one table from its start that knows how many pairs remain. -/
structure Traversal where
  cursor : Cursor
  remaining : Nat
  deriving DecidableEq, Repr

namespace Traversal

variable {K : Type u} {V : Type v}

/-- The traversal of a table. -/
def ofTable (t : Table K V) : Traversal :=
  ⟨.start, t.len⟩

/-- The next pair and the traversal behind it. -/
def next (it : Traversal) (t : Table K V) : Option (K × V) × Traversal :=
  match it.cursor.next t with
  | (none, cursor) => (none, { it with cursor })
  | (some pair, cursor) => (some pair, ⟨cursor, it.remaining - 1⟩)

/-- The key of the next pair. -/
def nextKey (it : Traversal) (t : Table K V) : Option K × Traversal :=
  let (answer, it) := it.next t
  (answer.map Prod.fst, it)

/-- The value of the next pair. -/
def nextValue (it : Traversal) (t : Table K V) : Option V × Traversal :=
  let (answer, it) := it.next t
  (answer.map Prod.snd, it)

/-- All pairs that are still to come. -/
def drain (it : Traversal) (t : Table K V) : Array (K × V) × Traversal :=
  Walk.drain (fun it => it.next t) (Cursor.stepBound t) it

end Traversal

end Chaining
