import Chaining.Table

/-!
# Sweeps: walks that change values

A `Sweep` goes over the pairs of one table, in the order of `Table.pairs`, and
hands out the place of each, so that its value can be changed there. No place
is handed out twice: the sweep keeps a mark for each extension slot that it has
not come to yet, and it takes a slot only with its mark. It ends as soon as
all pairs have been seen.
-/

namespace Chaining

universe u v

/-- A walk over the places of pairs, each handed out once. -/
structure Sweep where
  /-- The first head not yet come to. -/
  head : Nat
  /-- The extension slot that comes next on the chain. -/
  pending : Option Nat
  /-- For each extension slot, whether it has not been come to yet. -/
  ahead : Array Bool
  /-- The number of pairs still to come. -/
  remaining : Nat
  deriving DecidableEq, Repr

namespace Sweep

variable {K : Type u} {V : Type v}

/-- The sweep of a table from its start. -/
def ofTable (t : Table K V) : Sweep where
  head := 0
  pending := none
  ahead := Array.replicate t.arena.size true
  remaining := t.len

/-- The next head. -/
def stepHead (s : Sweep) (t : Table K V) : Option (Pos × Sweep) :=
  if s.head < t.bucketCount then
    let pending := t.next? (.head s.head)
    some (.head s.head, { s with pending, head := s.head + 1 })
  else none

/-- The slot that comes next, marked as come to: the pending one if it still
has its mark, else the next head. -/
def step (s : Sweep) (t : Table K V) : Option (Pos × Sweep) :=
  match s.pending with
  | none => s.stepHead t
  | some i =>
    if s.ahead.getD i false then
      let pending := t.next? (.extension i)
      some (.extension i, { s with pending, ahead := s.ahead.setIfInBounds i false })
    else s.stepHead t

/-- The place of the next pair within `bound` slots. -/
def nextWithin (t : Table K V) : (bound : Nat) → Sweep → Option Pos × Sweep
  | 0, s => (none, s)
  | bound + 1, s =>
    match s.step t with
    | none => (none, s)
    | some (p, s) =>
      match t.pair? p with
      | none => nextWithin t bound s
      | some _ => (some p, { s with remaining := s.remaining - 1 })

/-- The place of the next pair. No slot is come to twice, so there are at most
as many steps as slots. -/
def next (s : Sweep) (t : Table K V) : Option Pos × Sweep :=
  if s.remaining = 0 then (none, s)
  else nextWithin t (t.bucketCount + t.arena.size + 1) s

/-- The next pair, its value changed in place by `f`, with the sweep and the table
afterwards. -/
def visit (f : V → V) : Sweep × Table K V → Option (K × V) × (Sweep × Table K V)
  | (s, t) =>
    match s.next t with
    | (none, s) => (none, (s, t))
    | (some p, s) =>
      let t := t.mapValue p f
      (t.pair? p, (s, t))

end Sweep

end Chaining
