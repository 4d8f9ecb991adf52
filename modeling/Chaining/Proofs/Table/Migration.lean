import Chaining.Proofs.Table.Distinct
import Chaining.Table.Migration

/-!
# Migrations: nothing is lost, and when none stops

What a migration does with its first pair is said once (`migrate_cons_of_some`,
`migrate_cons_of_none`); the rest goes by induction over the pairs.

A migration that finishes has moved its pairs one after the other, each to where
the walk for its key found a place, and none gave way (`moves_of_migrate`). So the
new table holds what it held before and what was moved into it (`Moves.perm`),
whatever the keying does.

It stops for no equal key as long as any two of the pairs that fall into one
bucket are `Apart` (`exists_migrate_finished`), which the pairs of a table with
distinct keys are.
-/

namespace Chaining.Table

universe u v

variable {K : Type u} {V : Type v} {ks : Keying K} {t u : Table K V} {ps : List (K × V)}

/-! ## One pair -/

/-- The place that the walk for a key finds. -/
def placeOf (ks : Keying K) (t : Table K V) (key : K) : Placement K V :=
  (t.locate ks (t.bucketOf (ks.hash key)) key).1

section Step

variable {reentry : Reentry} {taken : Nat} {key : K} {value : V} {calls : Array (Call K)}

/-- The calls of a walk behind those made before. -/
theorem push_append_eq_placeCalls (t : Table K V) (key : K) (calls : Array (Call K)) :
    calls.push (.hash key) ++
        (t.locate ks (t.bucketOf (ks.hash key)) key).2.map (Call.equals · key) =
      calls ++ t.placeCalls ks key := by
  apply Array.toList_inj.mp
  simp [placeCalls]

/-- A migration stops at the call that looks into the map. -/
theorem migrate_cons_of_some {made : Array (Call K)}
    (h : reentry.cut (calls ++ t.placeCalls ks key) = some made) :
    migrate ks reentry t taken calls ((key, value) :: ps) =
      .stopped .reentered (taken + 1) made := by
  rw [← push_append_eq_placeCalls] at h
  unfold migrate
  dsimp only
  rw [h]

/-- Else it stops at an equal key, or goes on with the next pair. -/
theorem migrate_cons_of_none (h : reentry.cut (calls ++ t.placeCalls ks key) = none) :
    migrate ks reentry t taken calls ((key, value) :: ps) =
      if (t.placeOf ks key).displaced.isSome then
        .stopped .duplicateKey (taken + 1) (calls ++ t.placeCalls ks key)
      else
        migrate ks reentry (t.store (t.placeOf ks key) (key, value)) (taken + 1)
          (calls ++ t.placeCalls ks key) ps := by
  rw [← push_append_eq_placeCalls] at h ⊢
  unfold placeOf
  conv_lhs => unfold migrate
  dsimp only
  rw [h]
  generalize t.locate ks (t.bucketOf (ks.hash key)) key = located
  obtain ⟨place, compared⟩ := located
  cases place <;> rfl

/-- One that finishes has moved its first pair to where none gave way, and gone on. -/
theorem migrate_cons_finished {calls' : Array (Call K)}
    (h : migrate ks reentry t taken calls ((key, value) :: ps) = .finished u calls') :
    (t.placeOf ks key).displaced = none ∧
      migrate ks reentry (t.store (t.placeOf ks key) (key, value)) (taken + 1)
        (calls ++ t.placeCalls ks key) ps = .finished u calls' := by
  cases hcut : reentry.cut (calls ++ t.placeCalls ks key) with
  | some made =>
    rw [migrate_cons_of_some hcut] at h
    cases h
  | none =>
    rw [migrate_cons_of_none hcut] at h
    split at h
    next => cases h
    next hnone => exact ⟨Option.not_isSome_iff_eq_none.mp hnone, h⟩

/-- The place of a key in a vacant slot is in a slot that is vacant. -/
theorem pair?_of_placeOf {p : Pos} (h : t.placeOf ks key = .reuse p) : t.pair? p = none := by
  have hf := locate_fits ks t (t.bucketOf (ks.hash key)) key
  have hplace : (t.locate ks (t.bucketOf (ks.hash key)) key).1 = .reuse p := h
  rw [hplace] at hf
  cases hf with
  | reuse _ hp _ _ => exact hp

end Step

/-! ## All pairs -/

/-- Some pairs moved into a table, one after the other, each to the place that the
walk for its key finds. No pair gives way there, and a slot to be filled is
vacant. -/
inductive Moves (ks : Keying K) : Table K V → List (K × V) → Table K V → Prop where
  | nil (t : Table K V) : Moves ks t [] t
  | cons {t u : Table K V} {key : K} {value : V} {place : Placement K V} {ps : List (K × V)} :
      (t.locate ks (t.bucketOf (ks.hash key)) key).1 = place → place.displaced = none →
      (∀ p, place = .reuse p → t.pair? p = none) →
      Moves ks (t.store place (key, value)) ps u → Moves ks t ((key, value) :: ps) u

/-- A migration that finishes is made of such moves. -/
theorem moves_of_migrate {reentry : Reentry} {taken : Nat} {calls calls' : Array (Call K)}
    (h : migrate ks reentry t taken calls ps = .finished u calls') : Moves ks t ps u := by
  induction ps generalizing t taken calls with
  | nil =>
    cases h
    exact .nil _
  | cons kv ps ih =>
    obtain ⟨key, value⟩ := kv
    obtain ⟨hnone, hrest⟩ := migrate_cons_finished h
    exact .cons rfl hnone (fun _ => pair?_of_placeOf) (ih hrest)

/-- If no call looks into the map, a migration stops for nothing but an equal key. -/
theorem fault_of_migrate {taken taken' : Nat} {calls calls' : Array (Call K)} {fault : Fault}
    (h : migrate ks .never t taken calls ps = .stopped fault taken' calls') :
    fault = .duplicateKey := by
  induction ps generalizing t taken calls with
  | nil => cases h
  | cons kv ps ih =>
    obtain ⟨key, value⟩ := kv
    rw [migrate_cons_of_none rfl] at h
    split at h
    next =>
      cases h
      rfl
    next => exact ih h

namespace Moves

theorem wellFormed (h : Moves ks t ps u) (hw : t.WellFormed ks) : u.WellFormed ks := by
  induction h with
  | nil _ => exact hw
  | cons hl _ _ _ ih => exact ih (hw.store (hl ▸ locate_fits ..) _)

theorem bucketCount_eq (h : Moves ks t ps u) : u.bucketCount = t.bucketCount := by
  induction h with
  | nil _ => rfl
  | cons _ _ _ _ ih => rw [ih, bucketCount_store]

/-- All pairs are kept, moved ones and those there were. -/
theorem perm (h : Moves ks t ps u) (hw : t.WellFormed ks) : u.pairs.Perm (ps ++ t.pairs) := by
  induction h with
  | nil _ => exact List.Perm.refl _
  | @cons t u key value place ps hl hp _ _ ih =>
    have hf := hl ▸ locate_fits ks t (t.bucketOf (ks.hash key)) key
    obtain ⟨_, _, hx, _⟩ :=
      hw.linked.exchange_store (hw.bucketOf_lt (ks.hash key)) hf (key, value)
    have hstep : (t.store place (key, value)).pairs.Perm ((key, value) :: t.pairs) := by
      simpa [hp] using hx.perm
    calc u.pairs
        _ |>.Perm (ps ++ (t.store place (key, value)).pairs) := ih (hw.store hf value)
        _ |>.Perm (ps ++ (key, value) :: t.pairs) := hstep.append_left ps
        _ |>.Perm ((key, value) :: ps ++ t.pairs) := List.perm_middle

theorem distinct (h : Moves ks t ps u) (hw : t.WellFormed ks) (hk : ks.PartialEquivalence)
    (hd : t.Distinct ks) : u.Distinct ks := by
  induction h with
  | nil _ => exact hd
  | @cons t u key value place ps hl _ _ _ ih =>
    have hf := hl ▸ locate_fits ks t (t.bucketOf (ks.hash key)) key
    have hb := hw.bucketOf_lt (ks.hash key)
    exact ih (hw.store hf value) (hd.store hk hw.linked hb hf value)

end Moves

/-- A migration of pairs that stay apart in the new buckets, from each other and
from the pairs there, finishes. -/
theorem exists_migrate_finished (taken : Nat) (calls : Array (Call K))
    (hw : t.WellFormed ks) (hps : ps.Pairwise (Apart ks t.bucketCount))
    (ht : ∀ x ∈ t.pairs, ∀ y ∈ ps, Apart ks t.bucketCount x y) :
    ∃ u calls', migrate ks .never t taken calls ps = .finished u calls' := by
  induction ps generalizing t taken calls with
  | nil => exact ⟨t, calls, rfl⟩
  | cons kv ps ih =>
    obtain ⟨key, value⟩ := kv
    obtain ⟨hkey, hps⟩ := List.pairwise_cons.mp hps
    have hb := hw.bucketOf_lt (ks.hash key)
    have hf : Fits ks t key (t.chain (t.bucketOf (ks.hash key))) (t.placeOf ks key) :=
      locate_fits ks t (t.bucketOf (ks.hash key)) key
    -- a pair that gave way would be equal to the key and in its bucket
    have hnone : (t.placeOf ks key).displaced = none := by
      cases hp : (t.placeOf ks key).displaced with
      | none => rfl
      | some old =>
        obtain ⟨hold, heq⟩ := hf.of_displaced hp
        have hmem := mem_pairs.mpr ⟨_, hb, hold⟩
        have hne := ht old hmem (key, value) List.mem_cons_self (hw.placed _ hb old hold)
        rw [heq] at hne
        cases hne
    obtain ⟨before, after, hx, _⟩ := hw.linked.exchange_store hb hf (key, value)
    rw [migrate_cons_of_none rfl, if_neg (Option.not_isSome_iff_eq_none.mpr hnone)]
    refine ih (taken + 1) _ (hw.store hf value) (by rwa [hx.bucketCount_eq]) ?_
    intro x hmem y hy
    rw [hx.bucketCount_eq]
    have hmem' : x ∈ (key, value) :: t.pairs := by
      have hperm := hx.perm
      rw [hnone] at hperm
      exact hperm.mem_iff.mp hmem
    rcases List.mem_cons.mp hmem' with rfl | hmem'
    · exact hkey y hy
    · exact ht x hmem' y (List.mem_cons_of_mem _ hy)

end Chaining.Table
