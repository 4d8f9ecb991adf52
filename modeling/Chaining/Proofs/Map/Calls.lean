import Chaining.Proofs.Map.Counts
import Chaining.Proofs.Map.History
import Chaining.Proofs.Table.Survey

/-!
# Which keys are hashed

Among the calls that an operation makes of its keying, `hashed` picks out the keys whose hash
is asked for. A walk along a chain only compares, so that a lookup or a put asks for the hash
of its key once. What is asked for besides is asked for by growth: each key that the map holds
is hashed twice, in the survey slot by slot and then in the order in which the pairs are moved
(`grow_grown_hashed`).
-/

namespace Chaining

universe u v

variable {K : Type u} {V : Type v} {ks : Keying K}

/-- The key whose hash was asked for. -/
def Call.hashed? : Call K → Option K
  | .hash key => some key
  | .equals _ _ => none

/-- The keys whose hashes were asked for, in order. -/
def hashed (calls : Array (Call K)) : List K :=
  calls.toList.filterMap Call.hashed?

/-- The calls of a walk for a key, whatever it compares: one hash more. -/
theorem hashed_walk (calls : Array (Call K)) (key : K) (compared : List K) :
    hashed (calls.push (.hash key) ++ compared.map (Call.equals · key)) =
      hashed calls ++ [key] := by
  have hnone : (compared.map (Call.equals · key)).filterMap Call.hashed? = [] := by
    rw [List.filterMap_map, List.filterMap_eq_nil_iff]
    intro stored _
    rfl
  unfold hashed
  rw [Array.toList_appendList, Array.toList_push, List.filterMap_append, List.filterMap_append,
    hnone, List.append_nil]
  rfl

/-- The key that a request is about. -/
def Request.key? : Request K V → Option K
  | .put key _ => some key
  | .get key => some key
  | .getPair key => some key
  | .contains key => some key
  | .modify key _ => some key
  | .remove key => some key
  | .steal key => some key
  | .len => none

/-- The calls that a growth has made, however it ended. -/
def Growth.calls : Growth ks V → Array (Call K)
  | .grown _ calls _ => calls
  | .refused _ calls => calls
  | .faulted _ _ calls => calls

namespace Table

theorem hashed_placeCalls (t : Table K V) (key : K) (calls : Array (Call K)) :
    hashed (calls ++ t.placeCalls ks key) = hashed calls ++ [key] := by
  rw [← push_append_eq_placeCalls, hashed_walk]

/-- Each pair that is moved has its key hashed. -/
theorem migrate_hashed {reentry : Reentry} {t u : Table K V} {taken : Nat}
    {calls calls' : Array (Call K)} {ps : List (K × V)}
    (h : migrate ks reentry t taken calls ps = .finished u calls') :
    hashed calls' = hashed calls ++ ps.map Prod.fst := by
  induction ps generalizing t taken calls with
  | nil =>
    cases h
    exact (List.append_nil _).symm
  | cons kv ps ih =>
    obtain ⟨key, value⟩ := kv
    obtain ⟨_, hrest⟩ := migrate_cons_finished h
    rw [ih hrest, hashed_placeCalls, List.append_assoc]
    rfl

end Table

namespace Map

open Table

variable {m base : Map ks V} {c : Conditions} {key : K} {value : V}

theorem hashed_surveyCalls (m : Map ks V) : hashed m.surveyCalls = m.table.keysBySlot := by
  unfold hashed surveyCalls
  rw [List.filterMap_map]
  exact List.filterMap_some

/-- A growth that is carried out asks for the hash of every key twice. -/
theorem grow_grown_hashed {calls : Array (Call K)} {reservations : Nat}
    (h : m.grow c = .grown base calls reservations) (hw : m.table.WellFormed ks) :
    hashed calls = m.table.keysBySlot ++ m.pairs.map Prod.fst := by
  cases Grows.of_grow h with
  | moved _ _ hmove =>
    rw [migrate_hashed hmove, hashed_surveyCalls, hw.linked.drain_toList]
    rfl

/-- The keys that are hashed in the growth that a deed begins with. -/
def hashedInGrowth (m : Map ks V) (deed : Deed K V) : List K :=
  match m.growth? deed with
  | none => []
  | some growth => hashed growth.calls

/-! ## Operations -/

/-- What is hashed for a place is the key alone. -/
theorem place_hashed (m : Map ks V) (c : Conditions) (reservations : Nat)
    (before : Transcript K V) (key : K) (value : V)
    (hok : (Answer.put (m.place c reservations before key value).answer).undisturbed = true) :
    (Answer.put (m.place c reservations before key value).answer).refusal = none ∧
      hashed (m.place c reservations before key value).transcript.calls =
        hashed before.calls ++ [key] := by
  revert hok
  unfold place
  generalize m.table.locate ks (m.table.bucketOf (ks.hash key)) key = located
  obtain ⟨place, compared⟩ := located
  dsimp only
  split
  next =>
    intro hok
    cases hok
  next =>
    cases place with
    | replace p old => exact fun _ => ⟨rfl, hashed_walk _ _ _⟩
    | reuse p => exact fun _ => ⟨rfl, hashed_walk _ _ _⟩
    | append last =>
      dsimp only
      split
      next => exact fun _ => ⟨rfl, hashed_walk _ _ _⟩
      next =>
        intro hok
        cases hok

/-- What a put hashes: the keys for the growth that it begins with, and its own unless it is
refused, in which case none at all. -/
theorem put_hashed (m : Map ks V) (c : Conditions) (key : K) (value : V)
    (hok : (Answer.put (m.put c key value).answer).undisturbed = true) :
    ((Answer.put (m.put c key value).answer).refusal = none →
      hashed (m.put c key value).transcript.calls =
        m.hashedInGrowth (.request c (.put key value)) ++ [key]) ∧
    ((Answer.put (m.put c key value).answer).refusal ≠ none →
      (m.put c key value).transcript.calls = #[]) := by
  unfold hashedInGrowth
  by_cases hlt : m.len < m.watermark
  · rw [put_of_lt hlt] at hok ⊢
    rw [growth?_of_lt hlt]
    obtain ⟨hnone, hcalls⟩ := m.place_hashed c 0 {} key value hok
    exact ⟨fun _ => hcalls, absurd hnone⟩
  · have hfull := Nat.not_lt.mp hlt
    rw [growth?_of_le hfull]
    revert hok
    rw [put_of_le hfull]
    cases hg : m.grow c with
    | faulted fault left calls =>
      intro hok
      cases hok
    | refused error calls =>
      intro hok
      obtain ⟨_, rfl, rfl⟩ := full_of_refused hg hok
      refine ⟨fun hnone => ?_, fun _ => rfl⟩
      cases hnone
    | grown base calls reservations =>
      intro hok
      obtain ⟨hnone, hcalls⟩ := base.place_hashed c reservations _ key value hok
      exact ⟨fun _ => hcalls, absurd hnone⟩

/-- What a lookup hashes is the key alone. -/
theorem lookup_hashed (m : Map ks V) (c : Conditions) (key : K)
    (goOn : Map ks V → Option (Entry K V) → Answer K V × Map ks V × Array (Release K V))
    (hok : (m.lookup c key goOn).answer.undisturbed = true) :
    hashed (m.lookup c key goOn).transcript.calls = [key] := by
  revert hok
  unfold lookup
  dsimp only
  split
  next =>
    intro hok
    cases hok
  next =>
    intro _
    exact hashed_walk #[] key _

theorem Step.refusal_eq_none {after : Map ks V} {request : Request K V} {answer : Answer K V}
    {releases : List (Release K V)} (h : m.Step c request answer after releases)
    (hput : request.isPut = false) : answer.refusal = none := by
  cases h with
  | put _ => cases hput
  | _ => rfl

/-- What is hashed in a request that nothing disturbs: the keys for the growth that it begins
with, and then its own. One that is refused hashes none. -/
theorem respond_hashed (m : Map ks V) (c : Conditions) (request : Request K V)
    (hok : (m.respond c request).answer.undisturbed = true) :
    ((m.respond c request).answer.refusal = none →
      hashed (m.respond c request).transcript.calls =
        m.hashedInGrowth (.request c request) ++ request.key?.toList) ∧
    ((m.respond c request).answer.refusal ≠ none →
      (m.respond c request).transcript.calls = #[]) := by
  cases hput : request.isPut with
  | true =>
    cases request with
    | put key value => exact m.put_hashed c key value hok
    | _ => cases hput
  | false =>
    have hnone := (m.respond_step c request).refusal_eq_none hput
    refine ⟨fun _ => ?_, absurd hnone⟩
    cases request with
    | put key value => cases hput
    | len => rfl
    | _ => exact m.lookup_hashed c _ _ hok

end Map

end Chaining
