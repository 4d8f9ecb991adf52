import Chaining.Table
import Chaining.Keying

/-!
# Walks along one chain

Two walks ask a keying for a key along the chain of its bucket.

* `Table.find` looks the key up: the first pair whose key is equal to it.
* `Table.locate` finds a place for it: the same pair if there is one, which is
  to be replaced; else the first vacant slot passed on the way; else the end of
  the chain, behind which a new slot goes. A vacant slot never ends the walk,
  since an equal key may stand behind it.

Both answer with the stored keys they compared, in order.
-/

namespace Chaining

universe u v

/-- Where a pair goes. -/
inductive Placement (K : Type u) (V : Type v) where
  /-- In the place of the pair there, whose key is equal. -/
  | replace (pos : Pos) (old : K × V)
  /-- Into the first vacant slot of the chain. -/
  | reuse (vacant : Pos)
  /-- Into a new slot behind the last one of the chain. -/
  | append (last : Pos)
  deriving Repr

/-- A pair in the table with its position. -/
structure Entry (K : Type u) (V : Type v) where
  pos : Pos
  key : K
  value : V
  deriving Repr

/-- The pair of an entry. -/
def Entry.pair {K : Type u} {V : Type v} (e : Entry K V) : K × V :=
  (e.key, e.value)

namespace Table

variable {K : Type u} {V : Type v}

/-- The first entry along some positions whose key is equal to `key`, and the
keys compared. -/
def findAlong (ks : Keying K) (t : Table K V) (key : K) :
    List Pos → Option (Entry K V) × List K
  | [] => (none, [])
  | p :: rest =>
    match t.pair? p with
    | none => findAlong ks t key rest
    | some (stored, value) =>
      if ks.equals stored key then
        (some ⟨p, stored, value⟩, [stored])
      else
        let (found, compared) := findAlong ks t key rest
        (found, stored :: compared)

/-- The entry for a key in a bucket, and the keys compared. -/
def find (ks : Keying K) (t : Table K V) (bucket : Nat) (key : K) :
    Option (Entry K V) × List K :=
  findAlong ks t key (t.chain bucket)

/-- The place for `key` along some positions, and the keys compared; `vacant`
is the first vacant slot passed so far and `last` the position before. -/
def locateAlong (ks : Keying K) (t : Table K V) (key : K) (vacant : Option Pos) (last : Pos) :
    List Pos → Placement K V × List K
  | [] =>
    match vacant with
    | some p => (.reuse p, [])
    | none => (.append last, [])
  | p :: rest =>
    match t.pair? p with
    | none => locateAlong ks t key (vacant.orElse fun _ => some p) p rest
    | some (stored, value) =>
      if ks.equals stored key then
        (.replace p (stored, value), [stored])
      else
        let (place, compared) := locateAlong ks t key vacant p rest
        (place, stored :: compared)

/-- The place for a key in a bucket, and the keys compared. -/
def locate (ks : Keying K) (t : Table K V) (bucket : Nat) (key : K) : Placement K V × List K :=
  locateAlong ks t key none (.head bucket) (t.chain bucket)

/-- The calls of the walk for the place of a key: its hash chooses the bucket. -/
def placeCalls (ks : Keying K) (t : Table K V) (key : K) : List (Call K) :=
  .hash key :: (t.locate ks (t.bucketOf (ks.hash key)) key).2.map (Call.equals · key)

/-- A pair stored in its place. -/
def store (t : Table K V) (place : Placement K V) (pair : K × V) : Table K V :=
  match place with
  | .replace p _ => t.setPair p (some pair)
  | .reuse p => t.fill p pair
  | .append last => t.append last pair

end Table

end Chaining
