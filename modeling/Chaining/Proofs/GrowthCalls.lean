import Mathlib.Algebra.BigOperators.Group.Finset.Piecewise
import Mathlib.Data.Nat.Choose.Basic
import Chaining.Proofs.Growth
import Chaining.Proofs.Map.Calls

/-!
# The calls of a growth

A growth that is carried out makes the calls of its survey, which hashes every key slot by slot,
and then those of its move. The move hashes every key once more, in the order of traversal, and
compares it with what stands in its new bucket. The table that is being made has no gaps, and no
pair is replaced in it, so a walk passes the whole chain: these are the keys moved before that
fall into the same new bucket, in the order in which they were moved (`moveCalls`,
`migrate_calls`).

So within a new bucket any two keys are compared once, with the one first that stood first on the
old chain, and no others are (`filter_compared_moveCalls`). There are as many comparisons as
pairs of keys that share a new bucket (`Map.Reachable.grow_calls`).
-/

namespace Chaining

universe u v

/-! ## Members of a list and those before them -/

section Earlier

variable {α : Type u}

/-- Each member of a list with those that come before it, behind `front`. -/
def withEarlier (front : List α) : List α → List (List α × α)
  | [] => []
  | a :: rest => (front, a) :: withEarlier (front ++ [a]) rest

/-- Each member of a list paired with each that comes before it, which is named first; those
in `front` come before all. -/
def earlierPairsFrom (front xs : List α) : List (α × α) :=
  (withEarlier front xs).flatMap fun (earlier, a) => earlier.map (·, a)

/-- Any two members of a list, the earlier one first. -/
def earlierPairs (xs : List α) : List (α × α) :=
  earlierPairsFrom [] xs

theorem earlierPairsFrom_cons (front : List α) (a : α) (rest : List α) :
    earlierPairsFrom front (a :: rest) =
      front.map (·, a) ++ earlierPairsFrom (front ++ [a]) rest :=
  List.flatMap_cons

theorem length_earlierPairsFrom (front xs : List α) :
    (earlierPairsFrom front xs).length = front.length * xs.length + xs.length.choose 2 := by
  induction xs generalizing front with
  | nil => rfl
  | cons a rest ih =>
    have hchoose : (rest.length + 1).choose 2 = rest.length + rest.length.choose 2 := by
      rw [Nat.choose_succ_succ, Nat.choose_one_right]
    rw [earlierPairsFrom_cons, List.length_append, List.length_map, ih, List.length_append,
      List.length_singleton, List.length_cons, hchoose, Nat.succ_mul, Nat.mul_succ]
    omega

theorem length_earlierPairs (xs : List α) :
    (earlierPairs xs).length = xs.length * (xs.length - 1) / 2 := by
  rw [earlierPairs, length_earlierPairsFrom, Nat.choose_two_right, List.length_nil, Nat.zero_mul,
    Nat.zero_add]

/-- The members of a list by a number that each has. -/
theorem length_eq_sum_filter {f : α → Nat} {n : Nat} {xs : List α} (h : ∀ x ∈ xs, f x < n) :
    xs.length = ∑ j ∈ Finset.range n, (xs.filter fun x => f x = j).length := by
  induction xs with
  | nil => simp
  | cons x xs ih =>
    have hx : f x ∈ Finset.range n := Finset.mem_range.mpr (h x List.mem_cons_self)
    have hrest := ih fun y hy => h y (List.mem_cons_of_mem _ hy)
    have hone : ∀ j, ((x :: xs).filter fun y => f y = j).length =
        (if f x = j then 1 else 0) + (xs.filter fun y => f y = j).length := by
      intro j
      rw [List.filter_cons]
      by_cases hj : f x = j
      · rw [if_pos (decide_eq_true hj), if_pos hj, List.length_cons, Nat.add_comm]
      · rw [if_neg (by simpa using hj), if_neg hj, Nat.zero_add]
    rw [Finset.sum_congr rfl fun j _ => hone j, Finset.sum_add_distrib, Finset.sum_ite_eq,
      if_pos hx, ← hrest, List.length_cons, Nat.add_comm]

end Earlier

variable {K : Type u} {V : Type v} {ks : Keying K}

/-! ## Comparisons -/

/-- The stored key and the given one, if two were compared. -/
def Call.compared? : Call K → Option (K × K)
  | .hash _ => none
  | .equals stored given => some (stored, given)

/-- The keys that were compared, in order, the stored one first. -/
def compared (calls : Array (Call K)) : List (K × K) :=
  calls.toList.filterMap Call.compared?

/-- The one of `n` buckets that a key falls into. -/
def Keying.bucketIn (ks : Keying K) (n : Nat) (key : K) : Nat :=
  (ks.hash key).toNat % n

/-- The calls of a move of some keys into `n` buckets, when those in `front` have been moved
before: each is hashed and compared with all that have come into its bucket. -/
def moveCalls (ks : Keying K) (n : Nat) (front keys : List K) : List (Call K) :=
  (withEarlier front keys).flatMap fun (earlier, key) =>
    .hash key :: (earlier.filter fun other => ks.bucketIn n other = ks.bucketIn n key).map
      (Call.equals · key)

theorem moveCalls_cons (ks : Keying K) (n : Nat) (front : List K) (key : K) (rest : List K) :
    moveCalls ks n front (key :: rest) =
      .hash key :: (front.filter fun other => ks.bucketIn n other = ks.bucketIn n key).map
        (Call.equals · key) ++ moveCalls ks n (front ++ [key]) rest :=
  List.flatMap_cons

theorem compared_moveCalls_cons (ks : Keying K) (n : Nat) (front : List K) (key : K)
    (rest : List K) :
    (moveCalls ks n front (key :: rest)).filterMap Call.compared? =
      (front.filter fun other => ks.bucketIn n other = ks.bucketIn n key).map (·, key) ++
        (moveCalls ks n (front ++ [key]) rest).filterMap Call.compared? := by
  have hwalk : ∀ others : List K, (others.map (Call.equals · key)).filterMap Call.compared? =
      others.map (·, key) := by
    intro others
    rw [List.filterMap_map]
    show others.filterMap (some ∘ (·, key)) = _
    rw [List.filterMap_eq_map]
  rw [moveCalls_cons, List.filterMap_append, List.filterMap_cons_none rfl, hwalk]

/-- Keys that are compared share their new bucket. -/
theorem bucketIn_eq_of_compared {n : Nat} {front keys : List K} {xy : K × K}
    (h : xy ∈ (moveCalls ks n front keys).filterMap Call.compared?) :
    ks.bucketIn n xy.1 = ks.bucketIn n xy.2 := by
  induction keys generalizing front with
  | nil => cases h
  | cons key rest ih =>
    rw [compared_moveCalls_cons] at h
    rcases List.mem_append.mp h with h | h
    · obtain ⟨other, hother, rfl⟩ := List.mem_map.mp h
      exact of_decide_eq_true (List.mem_filter.mp hother).2
    · exact ih h

/-- In a new bucket each key is compared once with each that has come there before. -/
theorem filter_compared_moveCalls (ks : Keying K) (n j : Nat) (front keys : List K) :
    ((moveCalls ks n front keys).filterMap Call.compared?).filter
        (fun xy => ks.bucketIn n xy.2 = j) =
      earlierPairsFrom (front.filter fun key => ks.bucketIn n key = j)
        (keys.filter fun key => ks.bucketIn n key = j) := by
  induction keys generalizing front with
  | nil => rfl
  | cons key rest ih =>
    rw [compared_moveCalls_cons, List.filter_append, ih, List.filter_append, List.filter_map,
      List.filter_cons, List.filter_cons]
    by_cases hkey : ks.bucketIn n key = j
    · have hall : ∀ others : List K,
          others.filter ((fun xy : K × K => decide (ks.bucketIn n xy.2 = j)) ∘ (·, key)) =
            others := by
        intro others
        exact List.filter_eq_self.mpr fun _ _ => decide_eq_true hkey
      rw [hall, if_pos (decide_eq_true hkey), if_pos (decide_eq_true hkey),
        earlierPairsFrom_cons, hkey]
      rfl
    · have hnone : ∀ others : List K,
          others.filter ((fun xy : K × K => decide (ks.bucketIn n xy.2 = j)) ∘ (·, key)) =
            [] := by
        intro others
        exact List.filter_eq_nil_iff.mpr fun _ _ => by simpa using hkey
      have hneg : ¬ decide (ks.bucketIn n key = j) = true := by simpa using hkey
      rw [hnone, if_neg hneg, if_neg hneg, List.filter_nil, List.append_nil]
      rfl

namespace Table

/-! ## The calls of a migration -/

variable {t u : Table K V} {key : K}

/-- A walk for a key that finds no equal one compares it with all keys it passes. -/
theorem locateAlong_compared {vacant : Option Pos} {last : Pos} {ps : List Pos}
    (h : (locateAlong ks t key vacant last ps).1.displaced = none) :
    (locateAlong ks t key vacant last ps).2 = (ps.filterMap t.pair?).map Prod.fst := by
  induction ps generalizing vacant last with
  | nil =>
    unfold locateAlong
    cases vacant <;> rfl
  | cons p ps ih =>
    unfold locateAlong at h ⊢
    cases hp : t.pair? p with
    | none =>
      rw [hp] at h
      rw [List.filterMap_cons_none hp]
      exact ih h
    | some kv =>
      obtain ⟨stored, value⟩ := kv
      rw [hp] at h
      rw [List.filterMap_cons_some hp]
      dsimp only at h ⊢
      by_cases hk : ks.equals stored key = true
      · rw [if_pos hk] at h
        cases h
      · rw [if_neg hk] at h ⊢
        exact congrArg (stored :: ·) (ih h)

/-- One more pair is moved. -/
theorem Moves.concat {ps : List (K × V)} {value : V} {place : Placement K V}
    (h : Moves ks t ps u) (hl : (u.locate ks (u.bucketOf (ks.hash key)) key).1 = place)
    (hp : place.displaced = none) (hv : ∀ p, place = .reuse p → u.pair? p = none) :
    Moves ks t (ps ++ [(key, value)]) (u.store place (key, value)) := by
  induction h with
  | nil t => exact .cons hl hp hv (.nil _)
  | cons hl' hp' hv' _ ih => exact .cons hl' hp' hv' (ih hl hv)

/-- A migration that finishes, when some pairs have been moved before, has made the calls of
the move. -/
theorem migrate_calls {reentry : Reentry} {n taken : Nat} {calls calls' : Array (Call K)}
    {moved ps : List (K × V)} (hn : 0 < n) (hmoved : Moves ks (ofBuckets n) moved t)
    (h : migrate ks reentry t taken calls ps = .finished u calls') :
    calls'.toList =
      calls.toList ++ moveCalls ks n (moved.map Prod.fst) (ps.map Prod.fst) := by
  induction ps generalizing t taken calls moved with
  | nil =>
    cases h
    exact (List.append_nil _).symm
  | cons kv ps ih =>
    obtain ⟨key, value⟩ := kv
    obtain ⟨hnone, hrest⟩ := migrate_cons_finished h
    have hnew := wellFormed_ofBuckets (V := V) ks hn
    have hcount : t.bucketCount = n := hmoved.bucketCount_eq.trans (bucketCount_ofBuckets n)
    -- the chain holds what has been moved into this bucket
    have hin : (t.pairsIn (t.bucketOf (ks.hash key))).map Prod.fst =
        (moved.map Prod.fst).filter fun other => ks.bucketIn n other = ks.bucketIn n key := by
      have hb : t.bucketOf (ks.hash key) < (ofBuckets n : Table K V).bucketCount := by
        rw [bucketCount_ofBuckets, bucketOf, hcount]
        exact Nat.mod_lt _ hn
      have hpairs := hmoved.pairsIn_eq hnew (dense_ofBuckets n) hb
      rw [pairsIn_ofBuckets, List.nil_append] at hpairs
      rw [hpairs, List.filter_map]
      simp only [bucketOf, bucketCount_ofBuckets, hcount]
      rfl
    have hcompared : (t.locate ks (t.bucketOf (ks.hash key)) key).2 =
        (t.pairsIn (t.bucketOf (ks.hash key))).map Prod.fst := locateAlong_compared hnone
    have hcalls : t.placeCalls ks key = .hash key ::
        ((moved.map Prod.fst).filter fun other => ks.bucketIn n other = ks.bucketIn n key).map
          (Call.equals · key) := by
      rw [placeCalls, hcompared, hin]
    have hmoved' : Moves ks (ofBuckets n) (moved ++ [(key, value)])
        (t.store (t.placeOf ks key) (key, value)) :=
      hmoved.concat rfl hnone fun _ => pair?_of_placeOf
    rw [ih hmoved' hrest, hcalls, List.map_cons, moveCalls_cons, Array.toList_appendList,
      List.append_assoc, List.map_append]
    rfl

end Table

namespace Map

open Table

variable {m : Map ks V} {c : Conditions} {buckets : Nat}

/-- The keys that a growth to so many buckets brings into one of them, in the order in which
they stand on the old chain. -/
def keysFor (m : Map ks V) (buckets j : Nat) : List K :=
  ((m.table.pairsIn (j % m.bucketCount)).map Prod.fst).filter fun key => ks.bucketIn buckets key = j

/-- The calls that a growth of a map to so many buckets makes. -/
structure GrowthCalls (m : Map ks V) (buckets : Nat) (calls : Array (Call K)) : Prop where
  /-- First the survey goes over the slots, then the move over the pairs. -/
  calls_eq : calls.toList =
    m.table.keysBySlot.map Call.hash ++ moveCalls ks buckets [] (m.pairs.map Prod.fst)
  /-- Every key is hashed twice, and nothing else. -/
  hashed_eq : hashed calls = m.table.keysBySlot ++ m.pairs.map Prod.fst
  keysBySlot_perm : m.table.keysBySlot.Perm (m.pairs.map Prod.fst)
  /-- What comes into a new bucket has all stood on one chain. -/
  keysFor_eq : ∀ j, (m.pairs.map Prod.fst).filter (fun key => ks.bucketIn buckets key = j) =
    m.keysFor buckets j
  /-- Any two keys that come into one new bucket are compared once, with that one first that
  stood first on the old chain. -/
  compared_eq : ∀ j, j < buckets →
    (compared calls).filter (fun xy => ks.bucketIn buckets xy.2 = j) =
      earlierPairs (m.keysFor buckets j)
  /-- No others are. -/
  compared_only : ∀ xy ∈ compared calls, ks.bucketIn buckets xy.1 = ks.bucketIn buckets xy.2
  length_compared : (compared calls).length =
    ∑ j ∈ Finset.range buckets,
      (m.keysFor buckets j).length * ((m.keysFor buckets j).length - 1) / 2

theorem filter_keys_eq_keysFor (hw : m.table.WellFormed ks) (hdvd : m.bucketCount ∣ buckets)
    (j : Nat) : (m.pairs.map Prod.fst).filter (fun key => ks.bucketIn buckets key = j) =
      m.keysFor buckets j := by
  have hpairs : m.pairs.filter (fun kv => ks.bucketIn buckets kv.1 = j) =
      (m.table.pairsIn (j % m.bucketCount)).filter fun kv => ks.bucketIn buckets kv.1 = j := by
    refine hw.filter_pairs (Nat.mod_lt _ hw.bucketCount_pos) fun kv hkv => ?_
    show (ks.hash kv.1).toNat % m.bucketCount = j % m.bucketCount
    rw [← Nat.mod_mod_of_dvd _ hdvd]
    exact congrArg (· % m.bucketCount) (of_decide_eq_true hkv)
  unfold keysFor
  rw [List.filter_map, List.filter_map]
  exact congrArg (List.map Prod.fst) hpairs

theorem grow_grown_calls {grown : Map ks V} {calls : Array (Call K)} {reservations : Nat}
    (h : m.grow c = .grown grown calls reservations) (hw : m.table.WellFormed ks) :
    m.GrowthCalls (m.bucketCount * growthFactor) calls := by
  have hhashed := grow_grown_hashed h hw
  cases Grows.of_grow h with
  | @moved buckets table _ _ hb _ hmove =>
    obtain ⟨rfl, _⟩ := Sizing.grown_eq_some_iff.mp hb
    have hpos := grown_pos hb hw.bucketCount_pos
    have hdvd : m.bucketCount ∣ m.bucketCount * growthFactor := ⟨growthFactor, rfl⟩
    have hcalls := migrate_calls hpos (.nil _) hmove
    rw [hw.linked.drain_toList] at hcalls
    have hcompared : compared calls =
        (moveCalls ks (m.bucketCount * growthFactor) [] (m.pairs.map Prod.fst)).filterMap
          Call.compared? := by
      have hnone : (m.table.keysBySlot.map Call.hash).filterMap Call.compared? = [] := by
        rw [List.filterMap_map, List.filterMap_eq_nil_iff]
        intro key _
        rfl
      rw [compared, hcalls, List.filterMap_append]
      exact congrArg (· ++ _) hnone
    have heq : ∀ j, (compared calls).filter
        (fun xy => ks.bucketIn (m.bucketCount * growthFactor) xy.2 = j) =
          earlierPairs (m.keysFor (m.bucketCount * growthFactor) j) := by
      intro j
      rw [hcompared, filter_compared_moveCalls, filter_keys_eq_keysFor hw hdvd]
      rfl
    refine ⟨hcalls, hhashed, hw.linked.perm_keysBySlot, filter_keys_eq_keysFor hw hdvd,
      fun j _ => heq j, fun xy hxy => ?_, ?_⟩
    · exact bucketIn_eq_of_compared (hcompared ▸ hxy)
    · have hlt : ∀ xy ∈ compared calls,
          ks.bucketIn (m.bucketCount * growthFactor) xy.2 < m.bucketCount * growthFactor :=
        fun xy _ => Nat.mod_lt _ hpos
      rw [length_eq_sum_filter hlt]
      refine Finset.sum_congr rfl fun j _ => ?_
      rw [heq, length_earlierPairs]

/-- Under a comparison that is symmetric and transitive a growth of which nothing is refused is
carried out with these calls. -/
theorem Reachable.grow_calls (hm : m.Reachable) (hk : ks.PartialEquivalence)
    (hc : c.reentry = .never) (hb : m.sizing.grown m.bucketCount = some buckets)
    (hgranted : m.Granted c buckets) :
    ∃ grown calls reservations,
      m.grow c = .grown grown calls reservations ∧ m.GrowthCalls buckets calls := by
  have hw := hm.wellFormed
  cases hg : m.grow c with
  | refused error calls => exact absurd hg (grow_ne_refused hb hgranted error calls)
  | faulted fault left calls =>
    exact absurd hg (grow_ne_faulted hw (hm.distinct hk) hc fault left calls)
  | grown grown calls reservations =>
    refine ⟨grown, calls, reservations, rfl, ?_⟩
    rw [(Sizing.grown_eq_some_iff.mp hb).1]
    exact grow_grown_calls hg hw

/-- Three numbers on one chain with a vacant slot between them, which will share one of
twenty-eight buckets, and a number elsewhere. -/
def entwined : Map Keying.oneByFour Nat :=
  (ofSizing Keying.oneByFour (Sizing.standard.withInitial 7)).after
    [({}, .put 21 1), ({}, .put 28 2), ({}, .remove 21), ({}, .put 84 3), ({}, .put 49 4),
      ({}, .put 56 5), ({}, .remove 49), ({}, .put 3 6)]

/-- A number that came later stands first on the chain, and is the first to be compared with. -/
theorem Reachable.grow_calls_entwined :
    entwined.pairs = [(84, 3), (28, 2), (56, 5), (3, 6)] ∧ entwined.tombstones = 1 ∧
      ∃ grown calls reservations, entwined.grow {} = .grown grown calls reservations ∧
        hashed calls = [84, 3, 28, 56, 84, 28, 56, 3] ∧
        (compared calls).filter (fun xy => Keying.oneByFour.bucketIn 28 xy.2 = 0) =
          [(84, 28), (84, 56), (28, 56)] := by
  have hm : entwined.Reachable := .after (.ofSizing _ _) _
  have hgrown : entwined.sizing.grown entwined.bucketCount = some 28 := by decide
  have hgranted : entwined.Granted {} 28 := ⟨by decide, by decide, by decide⟩
  obtain ⟨grown, calls, reservations, hg, h⟩ :=
    hm.grow_calls Keying.partialEquivalence_oneByFour rfl hgrown hgranted
  refine ⟨by decide, by decide, grown, calls, reservations, hg, ?_, ?_⟩
  · rw [h.hashed_eq]
    decide
  · rw [h.compared_eq 0 (by decide)]
    decide

end Map

end Chaining
