import Chaining.Map.Growth

/-!
# Storing pairs

`Map.put` stores a value under a key. If the pairs have reached the watermark
the map grows first, whether or not the key is new. The pair then takes the
place of a pair with an equal key, whose value and key are let go of in that
order, or the first vacant slot of its chain, or a new slot behind the chain.

Only that last case needs memory. If it is refused the pair comes back; so it
does when growth is refused. Growth that was carried out before is kept.
-/

namespace Chaining

universe u v w

/-- How storing a pair changed a map. -/
inductive Change where
  /-- The key was new. -/
  | inserted
  /-- A pair with an equal key was replaced. -/
  | replaced
  deriving DecidableEq, Repr

/-- How a put ended. -/
inductive PutResult (K : Type u) (V : Type v) where
  /-- The pair is stored. -/
  | stored (change : Change)
  /-- The pair comes back. -/
  | rejected (rejected : Rejected K V)
  /-- A fault broke the put off; the pair is gone. -/
  | faulted (fault : Fault)
  deriving DecidableEq, Repr

/-- An answer of a map, the map afterwards and the record of what happened. -/
structure Outcome {K : Type u} (ks : Keying K) (V : Type v) (α : Type w) where
  answer : α
  map : Map ks V
  transcript : Transcript K V

namespace Map

variable {K : Type u} {ks : Keying K} {V : Type v}

/-- Stores a pair in a map that need not grow, after `reservations` and what
`before` records. -/
def place (m : Map ks V) (c : Conditions) (reservations : Nat) (before : Transcript K V)
    (key : K) (value : V) : Outcome ks V (PutResult K V) :=
  let (place, compared) := m.table.locate ks (m.table.bucketOf (ks.hash key)) key
  let calls := before.calls.push (.hash key) ++ compared.map (Call.equals · key)
  match c.reentry.cut calls with
  | some calls => ⟨.faulted .reentered, m, { before with calls }⟩
  | none =>
    match place with
    | .replace pos old =>
      ⟨.stored .replaced, { m with table := m.table.store (.replace pos old) (key, value) },
        { before with calls, releases := before.releases ++ #[.value old.2, .key old.1] }⟩
    | .reuse pos =>
      ⟨.stored .inserted, { m with table := m.table.store (.reuse pos) (key, value) },
        { before with calls, events := before.events.push .reused }⟩
    | .append last =>
      if c.allocator.grants (reservations + 1) 1 then
        ⟨.stored .inserted, { m with table := m.table.store (.append last) (key, value) },
          { before with calls, events := before.events.push .appended }⟩
      else
        let error := .allocationFailed 1
        ⟨.rejected ⟨key, value, error⟩, m,
          { before with calls, events := before.events.push (.putRejected error) }⟩

/-- Stores a value under a key. -/
def put (m : Map ks V) (c : Conditions) (key : K) (value : V) : Outcome ks V (PutResult K V) :=
  if m.len < m.watermark then m.place c 0 {} key value
  else
    let buckets := m.bucketCount
    let entries := m.len
    match m.grow c with
    | .refused error calls =>
      ⟨.rejected ⟨key, value, error⟩, m,
        { calls, events := #[.growthFailed buckets entries error] }⟩
    | .faulted fault left calls => ⟨.faulted fault, left, { calls }⟩
    | .grown m calls reservations =>
      let resized := .resized buckets m.bucketCount entries m.watermark
      m.place c reservations { calls, events := #[resized] } key value

end Map

end Chaining
