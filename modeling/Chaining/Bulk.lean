import Chaining.Request

/-!
# Many requests of one kind

Storing, looking up and removing many keys in a row, with a tally in the place
of the single answers. A put that is rejected does not end the row; a fault
does.
-/

namespace Chaining

universe u v

/-- What a row of puts came to. -/
structure PutTally where
  inserted : Nat := 0
  replaced : Nat := 0
  rejected : Nat := 0
  /-- The error of the first put that was rejected. -/
  firstError : Option StorageError := none
  /-- The fault that ended the row early. -/
  fault : Option Fault := none
  deriving DecidableEq, Repr

namespace PutTally

/-- One more put. -/
def count {K : Type u} {V : Type v} (n : PutTally) : PutResult K V → PutTally
  | .stored .inserted => { n with inserted := n.inserted + 1 }
  | .stored .replaced => { n with replaced := n.replaced + 1 }
  | .rejected r =>
    { n with rejected := n.rejected + 1, firstError := n.firstError.orElse fun _ => some r.error }
  | .faulted f => { n with fault := some f }

end PutTally

/-- What was recorded first, then what was recorded next. -/
def Transcript.append {K : Type u} {V : Type v} (a b : Transcript K V) : Transcript K V where
  calls := a.calls ++ b.calls
  releases := a.releases ++ b.releases
  events := a.events ++ b.events

namespace Map

variable {K : Type u} {ks : Keying K} {V : Type v}

/-- Stores some pairs one after the other, until a fault. -/
def putAll (c : Conditions) (before : Transcript K V) (tally : PutTally) :
    List (K × V) → Map ks V → Outcome ks V PutTally
  | [], m => ⟨tally, m, before⟩
  | (key, value) :: rest, m =>
    let o := m.put c key value
    let tally := tally.count o.answer
    let record := before.append o.transcript
    if tally.fault.isSome then ⟨tally, o.map, record⟩
    else putAll c record tally rest o.map

/-- Sends a request for each key of a row, one after the other, and gathers the
answers in a state. -/
def foldRequests {σ : Type} (c : Conditions) (request : K → Request K V)
    (gather : σ → Answer K V → σ) (before : Transcript K V) (s : σ) :
    List K → Map ks V → Outcome ks V σ
  | [], m => ⟨s, m, before⟩
  | key :: rest, m =>
    let o := m.respond c (request key)
    foldRequests c request gather (before.append o.transcript) (gather s o.answer) rest o.map

/-- Lets go of the pairs for some keys and counts those there were. -/
def removeAll (m : Map ks V) (c : Conditions) (keys : List K) : Outcome ks V Nat :=
  foldRequests c .remove (fun n a => if a matches .flag true then n + 1 else n) {} 0 keys m

/-- One more value, if there is one: how many there were, and their sum. -/
def tallyValue (t : Nat × Int) : Option Int → Nat × Int
  | none => t
  | some v => (t.1 + 1, t.2 + v)

end Map

/-- How many of a row of keys were found, and the sum of their values. -/
def Answer.tally {K : Type u} (t : Nat × Int) : Answer K Int → Nat × Int
  | .value v => Map.tallyValue t v
  | .pair p => Map.tallyValue t (p.map Prod.snd)
  | _ => t

namespace Map

variable {K : Type u} {ks : Keying K}

/-- Looks some keys up. -/
def getAll (m : Map ks Int) (c : Conditions) (keys : List K) : Outcome ks Int (Nat × Int) :=
  foldRequests c .get Answer.tally {} (0, 0) keys m

/-- Takes the pairs for some keys out. -/
def stealAll (m : Map ks Int) (c : Conditions) (keys : List K) : Outcome ks Int (Nat × Int) :=
  foldRequests c .steal Answer.tally {} (0, 0) keys m

end Map

end Chaining
