import Chaining.Proofs.Reentry
import Chaining.Proofs.Traversal

/-!
# Calls that look into their map

Every call of an operation is made by one of its walks, and while a walk is under way the mark is
set. So a call that looks into the map is refused (`Guard.call_refused`), whichever call it is;
the calls before it go through, and the walk that is unwound clears the mark
(`Guard.walks_refused`). The walks of an operation make the calls that are recorded of it, one
after the other (`Map.flatten_walks`), so `Map.respond` tells what the guard makes of them
(`Map.guarded_eq_respond`). An operation begun with the mark cleared always ends with the mark
cleared, and none is refused for what an earlier one did (`Map.guardedRun_never`).

That the map can be used as before does not mean that it holds what it held. It does unless the
call is made while a growth moves pairs; then the pairs whose move has begun are gone
(`Map.Reachable.interrupted`).
-/

namespace Chaining

universe u v

variable {K : Type u} {V : Type v} {ks : Keying K} {number : Nat}

namespace Guard

variable {reentry : Reentry} {before k : Nat} {made : List (Call K)}
  {ws : List (List (Call K))}

/-! ## Walks under a guard -/

/-- The call at fault is none of the next `n`. -/
def Spares (reentry : Reentry) (before n : Nat) : Prop :=
  ∀ k, k < n → reentry.call? ≠ some (before + k)

theorem Spares.left {n n' : Nat} (h : Spares reentry before (n + n')) : Spares reentry before n :=
  fun k hk => h k (Nat.lt_add_right _ hk)

theorem Spares.right {n n' : Nat} (h : Spares reentry before (n + n')) :
    Spares reentry (before + n) n' := by
  intro k hk
  rw [Nat.add_assoc]
  exact h (n + k) (Nat.add_lt_add_left hk n)

theorem call_spared (g : Guard) (h : reentry.call? ≠ some before) :
    g.call reentry before = (true, g) :=
  if_neg h

/-- While a walk is under way, a call that looks into the map does not answer. -/
theorem call_refused (h : reentry.call? = some before) :
    busy.call reentry before = (false, busy) :=
  if_pos h

theorem calls_spared (g : Guard) (h : Spares reentry before made.length) :
    g.calls reentry before made = ⟨made, false, g⟩ := by
  induction made generalizing before with
  | nil => rfl
  | cons call rest ih =>
    rw [List.length_cons, Nat.add_comm] at h
    have hcall := call_spared g (h.left 0 Nat.one_pos)
    rw [Nat.add_zero] at hcall
    unfold calls
    rw [hcall]
    dsimp only
    rw [ih h.right]

theorem calls_refused (h : reentry.call? = some (before + k)) (hk : k < made.length) :
    busy.calls reentry before made = ⟨made.take (k + 1), true, busy⟩ := by
  induction made generalizing before k with
  | nil => exact absurd hk (Nat.not_lt_zero _)
  | cons call rest ih =>
    unfold calls
    cases k with
    | zero =>
      have hcall : busy.call reentry before = (false, busy) := call_refused h
      rw [hcall]
      rfl
    | succ k =>
      -- the call at fault is one of the rest
      have hne : reentry.call? ≠ some before := by
        rw [h]
        intro hsome
        have hnumber := Option.some.inj hsome
        omega
      have hrest : before + (k + 1) = before + 1 + k := by omega
      rw [call_spared _ hne]
      dsimp only
      rw [ih (hrest ▸ h) (Nat.lt_of_succ_lt_succ hk)]
      rfl

/-- A walk that begins while none is under way sets the mark for its calls. -/
theorem walk_idle (reentry : Reentry) (before : Nat) (made : List (Call K)) :
    idle.walk reentry before made =
      { busy.calls reentry before made with guard := idle } :=
  rfl

theorem walk_spared (h : Spares reentry before made.length) :
    idle.walk reentry before made = ⟨made, false, idle⟩ := by
  rw [walk_idle, calls_spared _ h]

theorem walk_refused (h : reentry.call? = some (before + k)) (hk : k < made.length) :
    idle.walk reentry before made = ⟨made.take (k + 1), true, idle⟩ := by
  rw [walk_idle, calls_refused h hk]

theorem walks_spared (h : Spares reentry before ws.flatten.length) :
    idle.walks reentry before ws = ⟨ws.flatten, false, idle⟩ := by
  induction ws generalizing before with
  | nil => rfl
  | cons made rest ih =>
    rw [List.flatten_cons, List.length_append] at h
    unfold walks
    rw [walk_spared h.left]
    dsimp only
    rw [if_neg Bool.false_ne_true, ih h.right, List.flatten_cons]

theorem walks_refused (h : reentry.call? = some (before + k)) (hk : k < ws.flatten.length) :
    idle.walks reentry before ws = ⟨ws.flatten.take (k + 1), true, idle⟩ := by
  induction ws generalizing before k with
  | nil => exact absurd hk (Nat.not_lt_zero _)
  | cons made rest ih =>
    rw [List.flatten_cons, List.length_append] at hk
    unfold walks
    by_cases hmade : k < made.length
    · rw [walk_refused h hmade, List.flatten_cons,
        List.take_append_of_le_length (Nat.succ_le_of_lt hmade)]
      rfl
    · -- this walk ends, and the call at fault is made by one of the rest
      obtain ⟨k, rfl⟩ := Nat.exists_eq_add_of_le (Nat.not_lt.mp hmade)
      have hspares : Spares reentry before made.length := by
        intro k' hk' hsome
        rw [h] at hsome
        have hnumber := Option.some.inj hsome
        omega
      have hrest : before + (made.length + k) = before + made.length + k := by omega
      rw [walk_spared hspares]
      dsimp only
      rw [if_neg Bool.false_ne_true, ih (hrest ▸ h) (by omega), List.flatten_cons, Nat.add_assoc,
        List.take_length_add_append]

end Guard

namespace Map

open Table

variable {m : Map ks V} {allocator : Allocator} {request : Request K V}

/-! ## The walks of an operation -/

theorem flatten_growthWalks (m : Map ks V) (allocator : Allocator) :
    (m.growthWalks allocator).flatten = (m.grow { allocator }).calls.toList := by
  unfold growthWalks
  cases hb : m.sizing.grown m.bucketCount with
  | none =>
    unfold grow
    rw [hb]
    rfl
  | some buckets =>
    dsimp only
    split
    next =>
      cases m.grow { allocator } with
      | refused error calls => simp [Growth.calls]
      | faulted fault left calls => simp [Growth.calls]
      | grown base calls reservations => simp [Growth.calls]
    next hheads =>
      unfold grow
      rw [hb]
      dsimp only
      rw [Bool.eq_false_iff.mpr hheads]
      rfl

theorem flatten_putWalks (m : Map ks V) (allocator : Allocator) (key : K) (value : V) :
    (m.putWalks allocator key).flatten =
      (m.put { allocator } key value).transcript.calls.toList := by
  unfold putWalks
  by_cases hlt : m.len < m.watermark
  · rw [if_pos hlt, put_of_lt hlt, place_calls]
    simp
  · rw [if_neg hlt, put_of_le (Nat.not_lt.mp hlt)]
    have hgrowth := m.flatten_growthWalks allocator
    cases hg : m.grow { allocator } with
    | refused error calls => exact hgrowth.trans (by rw [hg]; rfl)
    | faulted fault left calls => exact hgrowth.trans (by rw [hg]; rfl)
    | grown base calls reservations =>
      rw [hg] at hgrowth
      dsimp only
      rw [place_calls, List.flatten_append, hgrowth]
      simp [Growth.calls]

/-- The walks of an operation make the calls that are recorded of it. -/
theorem flatten_walks (m : Map ks V) (allocator : Allocator) (request : Request K V) :
    (m.walks allocator request).flatten =
      (m.respond { allocator } request).transcript.calls.toList := by
  cases m.asks request with
  | put key value => exact m.flatten_putWalks allocator key value
  | len => rfl
  | lookup _ hrespond hwalks =>
    rw [hwalks, hrespond, lookup_calls]
    exact List.append_nil _

/-- Under a guard an operation of which no call looks into the map makes all its walks. -/
theorem guarded_never (m : Map ks V) (allocator : Allocator) (request : Request K V) :
    m.guarded { allocator } request .idle =
      ⟨(m.respond { allocator } request).transcript.calls.toList, false, .idle⟩ := by
  rw [← flatten_walks]
  refine Guard.walks_spared fun k _ hsome => ?_
  cases hsome

/-- The first walk of which a call looks into the map is unwound, and the mark is cleared. -/
theorem guarded_atCall (h : number < (m.respond { allocator } request).transcript.calls.size) :
    m.guarded { allocator, reentry := .atCall number } request .idle =
      ⟨(m.respond { allocator } request).transcript.calls.toList.take (number + 1), true,
        .idle⟩ := by
  have hnumber : number < (m.walks allocator request).flatten.length := by
    rw [flatten_walks]
    exact h
  rw [← flatten_walks]
  exact Guard.walks_refused (by rw [Nat.zero_add]; rfl) hnumber

theorem guarded_past (h : (m.respond { allocator } request).transcript.calls.size ≤ number) :
    m.guarded { allocator, reentry := .atCall number } request .idle =
      ⟨(m.respond { allocator } request).transcript.calls.toList, false, .idle⟩ := by
  have hsize : (m.walks allocator request).flatten.length ≤ number := by
    rw [flatten_walks]
    exact h
  rw [← flatten_walks]
  refine Guard.walks_spared fun k hk hsome => ?_
  have hlt : k < (m.walks allocator request).flatten.length := hk
  have hnumber : number = 0 + k := Option.some.inj hsome
  omega

/-! ## Runs in which no call looks into the map -/

theorem Step.fault?_ne_reentered {c : Conditions} {after : Map ks V} {answer : Answer K V}
    {releases : List (Release K V)} (h : m.Step c request answer after releases)
    (hc : c.reentry = .never) : answer.fault? ≠ some .reentered := by
  intro hsome
  cases h with
  | reentered hne => exact hne hc
  | put hputs =>
    cases hputs with
    | notGrown _ _ => cases hsome
    | placed _ hplaces =>
      cases hplaces with
      | stored _ _ => cases hsome
      | noSlot _ _ => cases hsome
      | reentered hne => exact hne hc
    | broken _ hg =>
      cases Grows.of_grow hg with
      | reentered _ hne => exact hne hc
      | stopped _ _ hmove =>
        rw [hc] at hmove
        rw [fault_of_migrate hmove] at hsome
        cases hsome
  | _ => cases hsome

/-- A run in which no call looks into the map goes through under the guard. -/
theorem guardedRun_never (m : Map ks V) {run : List (Conditions × Request K V)}
    (h : ∀ step ∈ run, step.1.reentry = .never) : m.guardedRun .idle run = (false, .idle) := by
  induction run generalizing m with
  | nil => rfl
  | cons step rest ih =>
    obtain ⟨⟨allocator, reentry⟩, request⟩ := step
    obtain rfl : reentry = .never := h _ List.mem_cons_self
    unfold guardedRun
    rw [m.guarded_never allocator request]
    dsimp only
    rw [ih _ fun step hstep => h step (List.mem_cons_of_mem _ hstep)]
    rfl

/-- What is recorded of an operation is what the guard makes of its walks: which calls are made,
and whether a fault ends them. It is given back in any case. -/
theorem guarded_eq_respond (hl : m.table.Linked) (c : Conditions) (request : Request K V) :
    m.guarded c request .idle =
      ⟨(m.respond c request).transcript.calls.toList,
        (m.respond c request).answer.fault? = some .reentered, .idle⟩ := by
  obtain ⟨allocator, ⟨number?⟩⟩ := c
  cases number? with
  | none =>
    have hfault := (m.respond_step { allocator } request).fault?_ne_reentered rfl
    show m.guarded { allocator } request .idle =
      ⟨(m.respond { allocator } request).transcript.calls.toList,
        (m.respond { allocator } request).answer.fault? = some .reentered, .idle⟩
    rw [guarded_never, decide_eq_false hfault]
  | some number =>
    show m.guarded { allocator, reentry := .atCall number } request .idle =
      ⟨(m.respond { allocator, reentry := .atCall number } request).transcript.calls.toList,
        (m.respond { allocator, reentry := .atCall number } request).answer.fault? =
          some .reentered, .idle⟩
    by_cases h : number < (m.respond { allocator } request).transcript.calls.size
    · have hbroken := (respond_brokenOff hl h).1
      rw [guarded_atCall h, hbroken.calls_eq, toList_take, decide_eq_true hbroken.fault_eq]
    · have hle := Nat.not_lt.mp h
      have hfault := (m.respond_step { allocator } request).fault?_ne_reentered rfl
      rw [guarded_past hle, respond_past hle, decide_eq_false hfault]

/-! ## What is left -/

/-- What comes of an operation, and what is left of its map, if the call of that number looks
into the map. -/
structure Interrupted (m : Map ks V) (allocator : Allocator) (request : Request K V)
    (number : Nat) (left : Map ks V) : Prop extends m.BrokenOff allocator request number where
  /-- The walk that the call asks for is refused, and the mark is cleared. -/
  guarded_eq : m.guarded { allocator, reentry := .atCall number } request .idle =
    ⟨(m.respond { allocator } request).transcript.calls.toList.take (number + 1), true, .idle⟩
  /-- Unless the call is made while pairs are moved, the map has all its pairs. It is as it was,
  or has grown. -/
  kept : ¬ m.Moving allocator request number →
    left.len = m.len ∧ left.traverse.Perm m.traverse ∧
      (left = m ∨ ∃ calls reservations, m.grow { allocator } = .grown left calls reservations)
  /-- Else those are gone whose move has begun, and the others are where they were. -/
  lost : m.Moving allocator request number →
    ∃ moved, 0 < moved ∧ moved ≤ m.len ∧ left.traverse = m.traverse.drop moved ∧
      left.len = m.len - moved ∧ left.bucketCount = m.bucketCount ∧
      left.watermark = m.watermark ∧
      hashed ((m.respond { allocator } request).transcript.calls.take (number + 1)) =
        m.table.keysBySlot ++ (m.traverse.take moved).map Prod.fst
  /-- Operations of which no call looks into the map go on as ever. -/
  later : ∀ run : List (Conditions × Request K V), (∀ step ∈ run, step.1.reentry = .never) →
    left.guardedRun .idle run = (false, .idle) ∧
      ∀ turn ∈ left.turns run, turn.outcome.answer.fault? ≠ some .reentered

theorem Leaves.kept {left : Map ks V} {made : Array (Call K)}
    (h : m.Leaves allocator request number made left) (hw : m.table.WellFormed ks)
    (hmoving : ¬ m.Moving allocator request number) :
    left.len = m.len ∧ left.traverse.Perm m.traverse ∧
      (left = m ∨ ∃ calls reservations, m.grow { allocator } = .grown left calls reservations) := by
  cases h with
  | asIs _ => exact ⟨rfl, List.Perm.refl _, Or.inl rfl⟩
  | @grown base calls reservations _ hg =>
    obtain ⟨hbase, _, hperm⟩ := grow_grown_wellFormed hg hw
    refine ⟨hbase.len_eq.trans (hperm.length_eq.trans hw.len_eq.symm), ?_,
      Or.inr ⟨calls, reservations, hg⟩⟩
    rw [traverse_eq_pairs hbase.linked, traverse_eq_pairs hw.linked]
    exact hperm
  | moving hmoving' _ _ _ => exact absurd hmoving' hmoving

theorem Leaves.lost {left : Map ks V} {made : Array (Call K)}
    (h : m.Leaves allocator request number made left) (hw : m.table.WellFormed ks)
    (hmoving : m.Moving allocator request number) :
    ∃ moved, 0 < moved ∧ moved ≤ m.len ∧ left.traverse = m.traverse.drop moved ∧
      left.len = m.len - moved ∧ left.bucketCount = m.bucketCount ∧
      left.watermark = m.watermark ∧
      hashed made = m.table.keysBySlot ++ (m.traverse.take moved).map Prod.fst := by
  cases h with
  | asIs hnot => exact absurd hmoving hnot
  | grown hnot _ => exact absurd hmoving hnot
  | @moving moved _ hpos hle hhashed =>
    have hle' : moved ≤ m.len := hle.trans (Nat.le_of_eq hw.len_eq.symm)
    have hcount := (Emptied.takeFirst m.table moved).bucketCount_eq
    have hleft := hw.takeAlong #[] moved m.table.positions
    have hlen : (m.table.takeFirst moved).2.len = m.len - moved := by
      have hsum := hw.len_takeFirst moved
      have hm : m.len = m.table.len := rfl
      omega
    refine ⟨moved, hpos, hle', ?_, hlen, hcount, rfl, ?_⟩
    · rw [traverse_eq_pairs hw.linked, traverse_eq_pairs hleft.linked]
      exact hw.linked.pairs_takeFirst moved
    · rw [traverse_eq_pairs hw.linked]
      exact hhashed

/-- An operation ends in a fault at the call that looks into its map. The map keeps its pairs,
but for those taken out to be moved, and can be used as ever. -/
theorem Reachable.interrupted (hm : m.Reachable)
    (h : number < (m.respond { allocator } request).transcript.calls.size) :
    m.Interrupted allocator request number
      (m.respond { allocator, reentry := .atCall number } request).map := by
  have hw := hm.wellFormed
  obtain ⟨hbroken, hleaves⟩ := respond_brokenOff hw.linked h
  exact {
    hbroken with
    guarded_eq := guarded_atCall h
    kept := hleaves.kept hw
    lost := hleaves.lost hw
    later := by
      intro run hrun
      refine ⟨guardedRun_never _ hrun, fun turn hturn => ?_⟩
      obtain ⟨_, houtcome, hstep⟩ := of_mem_turns (P := fun _ => True)
        (fun _ _ _ _ => trivial) trivial hturn
      have hnever : turn.conditions.reentry = .never := hrun _ hstep
      rw [houtcome]
      exact (turn.before.respond_step _ _).fault?_ne_reentered hnever }

/-- Seven pairs in ten buckets, two of them on one chain: the next put grows the map. -/
def brimming : Map (Keying.word (K := UInt64)) Nat :=
  (ofSizing Keying.word (Sizing.standard.withInitial 10)).after
    [({}, .put 0 10), ({}, .put 40 11), ({}, .put 1 12), ({}, .put 2 13), ({}, .put 3 14),
      ({}, .put 4 15), ({}, .put 5 16)]

/-- The tenth call of that put compares the two keys that share a bucket, before and after growth:
both pairs are gone if it looks into the map. The seventeenth compares the new key, when the map
has grown. -/
example : brimming.len = 7 ∧
    (brimming.respond { reentry := .atCall 9 } (.put 80 17)).answer = .put (.faulted .reentered) ∧
    (brimming.respond { reentry := .atCall 9 } (.put 80 17)).map.len = 5 ∧
    (brimming.respond { reentry := .atCall 16 } (.put 80 17)).map.len = 7 ∧
    (brimming.respond { reentry := .atCall 16 } (.put 80 17)).map.bucketCount = 40 := by
  decide

end Map

end Chaining
