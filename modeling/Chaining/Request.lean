import Chaining.Map.Put

/-!
# Requests to a map

All operations that ask a map for a key, and the count of its pairs, as one type
of request with one type of answer. `Map.respond` carries a request out; a
sequence of requests is a run of a map.

A lookup that faults changes nothing. A pair that is removed is let go of; one
that is stolen belongs to whoever asked.
-/

namespace Chaining

universe u v

/-- What a map can be asked. -/
inductive Request (K : Type u) (V : Type v) where
  /-- Store a value under a key. -/
  | put (key : K) (value : V)
  /-- The value under a key. -/
  | get (key : K)
  /-- The stored pair for a key. -/
  | getPair (key : K)
  /-- Whether there is a pair for a key. -/
  | contains (key : K)
  /-- Change the value under a key in place. -/
  | modify (key : K) (f : V → V)
  /-- Let go of the pair for a key. -/
  | remove (key : K)
  /-- Hand out the pair for a key. -/
  | steal (key : K)
  /-- The number of pairs. -/
  | len

/-- What a map can answer. -/
inductive Answer (K : Type u) (V : Type v) where
  /-- A put ended so. -/
  | put (result : PutResult K V)
  /-- The value under the key, if there is one. -/
  | value (value : Option V)
  /-- The pair for the key, if there is one. -/
  | pair (pair : Option (K × V))
  /-- Yes or no. -/
  | flag (flag : Bool)
  /-- A number of pairs. -/
  | count (n : Nat)
  /-- A fault broke the lookup off. -/
  | faulted (fault : Fault)
  deriving DecidableEq, Repr

namespace Map

variable {K : Type u} {ks : Keying K} {V : Type v}

/-- Looks a key up and goes on with what was found, unless the lookup faults. -/
def lookup (m : Map ks V) (c : Conditions) (key : K)
    (goOn : Map ks V → Option (Entry K V) → Answer K V × Map ks V × Array (Release K V)) :
    Outcome ks V (Answer K V) :=
  let s := m.search key
  match c.reentry.cut s.calls with
  | some calls => ⟨.faulted .reentered, m, { calls }⟩
  | none =>
    let (answer, map, releases) := goOn m s.found
    ⟨answer, map, { calls := s.calls, releases }⟩

/-- Carries out a request. -/
def respond (m : Map ks V) (c : Conditions) : Request K V → Outcome ks V (Answer K V)
  | .put key value =>
    let o := m.put c key value
    ⟨.put o.answer, o.map, o.transcript⟩
  | .get key => m.lookup c key fun m found => (.value (found.map Entry.value), m, #[])
  | .getPair key => m.lookup c key fun m found => (.pair (found.map Entry.pair), m, #[])
  | .contains key => m.lookup c key fun m found => (.flag found.isSome, m, #[])
  | .modify key f =>
    m.lookup c key fun m found =>
      match found with
      | none => (.value none, m, #[])
      | some e => (.value (some (f e.value)), m.mapValueAt e.pos f, #[])
  | .remove key =>
    m.lookup c key fun m found =>
      match found with
      | none => (.flag false, m, #[])
      | some e => (.flag true, m.vacateAt e.pos, #[.pair e.key e.value])
  | .steal key =>
    m.lookup c key fun m found =>
      match found with
      | none => (.pair none, m, #[])
      | some e => (.pair (some e.pair), m.vacateAt e.pos, #[])
  | .len => ⟨.count m.len, m, {}⟩

/-- Carries out a request while the first of its calls that is `watched` looks `key` up before it
answers: in the map `other` if one is given, else in the map itself, which is a fault. -/
def respondNesting (m : Map ks V) (request : Request K V) (key : K) (watched : Call K → Bool)
    (other : Option (Map ks V)) : Outcome ks V (Answer K V) :=
  let o := m.respond {} request
  match o.transcript.calls.findIdx? watched, other with
  | none, _ => o
  | some number, none => m.respond { reentry := .atCall number } request
  | some number, some other =>
    let calls := Reentry.nest number (other.search key).calls o.transcript.calls
    { o with transcript := { o.transcript with calls } }

end Map

end Chaining
