import Chaining.Request

/-!
# The guard of a map

A map has a mark that is set while one of its walks is under way. A walk that asks to begin
while the mark is set is refused, and whatever asked for it is unwound: the call of the keying
from which it came, the walk that made this call, and the operation to which that walk belongs.
The walk that is unwound clears the mark, as does one that ends.

`Map.respond` says at once what comes of a call that looks into its map. Here is how it comes
about: an operation is a row of walks (`Map.walks`), each made under the guard (`Guard.walk`).
-/

namespace Chaining

universe u v

/-- The mark that a walk of a map is under way. -/
structure Guard where
  active : Bool
  deriving DecidableEq, Repr

/-- What has come of walks under a guard. -/
structure Guarded (K : Type u) where
  /-- The calls made. -/
  made : List (Call K)
  /-- Whether a walk was refused, so that nothing followed. -/
  refused : Bool
  /-- The guard afterwards. -/
  guard : Guard
  deriving DecidableEq, Repr

namespace Guard

variable {K : Type u}

/-- No walk is under way. -/
def idle : Guard := ⟨false⟩

/-- A walk is under way. -/
def busy : Guard := ⟨true⟩

/-- A walk asks to begin: whether it may. The mark is set in either case. -/
def enter (g : Guard) : Bool × Guard :=
  (!g.active, busy)

/-- A walk that was let in ends or is unwound. -/
def leave (_ : Guard) : Guard :=
  idle

/-- The call of that number: whether it answers. One that looks into the map asks for a walk
there, which ends before the call does. -/
def call (reentry : Reentry) (g : Guard) (number : Nat) : Bool × Guard :=
  if reentry.call? = some number then
    match g.enter with
    | (true, g) => (true, g.leave)
    | (false, g) => (false, g)
  else (true, g)

/-- Calls one after the other, when `before` have been made. -/
def calls (reentry : Reentry) (g : Guard) (before : Nat) : List (Call K) → Guarded K
  | [] => ⟨[], false, g⟩
  | call :: rest =>
    match g.call reentry before with
    | (false, g) => ⟨[call], true, g⟩
    | (true, g) =>
      let w := calls reentry g (before + 1) rest
      { w with made := call :: w.made }

/-- One walk. However its calls go, the mark is cleared. -/
def walk (reentry : Reentry) (g : Guard) (before : Nat) (calls : List (Call K)) : Guarded K :=
  match g.enter with
  | (false, g) => ⟨[], true, g⟩
  | (true, g) =>
    let w := g.calls reentry before calls
    { w with guard := w.guard.leave }

/-- Walks one after the other, up to one that is refused or unwound. -/
def walks (reentry : Reentry) (g : Guard) (before : Nat) : List (List (Call K)) → Guarded K
  | [] => ⟨[], false, g⟩
  | calls :: rest =>
    let w := g.walk reentry before calls
    if w.refused then w
    else
      let later := walks reentry w.guard (before + w.made.length) rest
      { later with made := w.made ++ later.made }

end Guard

namespace Map

variable {K : Type u} {ks : Keying K} {V : Type v}

/-- The walks of a growth that no call breaks off, each with its calls: the survey, once the
new heads are granted, and the move of the pairs, once all is. -/
def growthWalks (m : Map ks V) (allocator : Allocator) : List (List (Call K)) :=
  match m.sizing.grown m.bucketCount with
  | none => []
  | some buckets =>
    if allocator.grants 1 buckets then
      let survey := m.table.keysBySlot.length
      match m.grow { allocator } with
      | .refused _ calls => [calls.toList]
      | .grown _ calls _ | .faulted _ _ calls =>
        [calls.toList.take survey, calls.toList.drop survey]
    else []

/-- The walks of a put that no call breaks off. -/
def putWalks (m : Map ks V) (allocator : Allocator) (key : K) : List (List (Call K)) :=
  if m.len < m.watermark then [m.table.placeCalls ks key]
  else
    match m.grow { allocator } with
    | .grown base _ _ => m.growthWalks allocator ++ [base.table.placeCalls ks key]
    | _ => m.growthWalks allocator

/-- The walks of an operation that no call breaks off. -/
def walks (m : Map ks V) (allocator : Allocator) : Request K V → List (List (Call K))
  | .put key _ => m.putWalks allocator key
  | .get key | .getPair key | .contains key => [(m.search key).calls.toList]
  | .modify key _ | .remove key | .steal key => [(m.search key).calls.toList]
  | .len => []

/-- The walks of an operation, made under a guard. -/
def guarded (m : Map ks V) (c : Conditions) (request : Request K V) (g : Guard) : Guarded K :=
  g.walks c.reentry 0 (m.walks c.allocator request)

/-- A run under a guard: whether a walk was refused on the way, and the guard afterwards. -/
def guardedRun (m : Map ks V) (g : Guard) : List (Conditions × Request K V) → Bool × Guard
  | [] => (false, g)
  | (c, request) :: rest =>
    let w := m.guarded c request g
    let (refused, g) := (m.respond c request).map.guardedRun w.guard rest
    (w.refused || refused, g)

end Map

end Chaining
