import Chaining.Guard
import Chaining.Proofs.Map.Calls

/-!
# Operations that a call breaks off

What an operation comes to when one of its calls looks into the map is told by the same operation
when none does. If it makes too few calls for the faulty one to be among them, there is no
difference (`respond_past`). Else it makes the calls up to that one and ends in a fault
(`respond_brokenOff`). The parts of an operation are gone through in turn, the migration pair by
pair, the growth, the put, and each is compared with its undisturbed self in these two cases.

What is left of the map depends on the part from which the call was made (`Map.Leaves`). A lookup
and a survey only read the map, and so does the walk for the place of a pair, after a growth as
without one. But a migration has taken pairs out by the time it calls, the one for which it calls
among them.
-/

namespace Chaining

universe u v

variable {K : Type u} {V : Type v} {ks : Keying K} {number : Nat}

namespace Reentry

variable {calls : Array (Call K)}

theorem cut_of_lt (h : number < calls.size) :
    (atCall number).cut calls = some (calls.take (number + 1)) :=
  if_pos h

theorem cut_of_le (h : calls.size ≤ number) : (atCall number).cut calls = none :=
  if_neg (Nat.not_lt.mpr h)

end Reentry

/-! ## Moves -/

/-- The calls that a migration has made, however it ended. -/
def Migration.calls : Migration K V → Array (Call K)
  | .finished _ calls => calls
  | .stopped _ _ calls => calls

theorem toList_take (calls : Array (Call K)) (n : Nat) :
    (calls.take n).toList = calls.toList.take n := by
  simp

theorem take_appendList_of_lt {calls : Array (Call K)} (more : List (Call K))
    (h : number < calls.size) : (calls ++ more).take (number + 1) = calls.take (number + 1) := by
  apply Array.toList_inj.mp
  rw [toList_take, toList_take, Array.toList_appendList]
  exact List.take_append_of_le_length (Nat.succ_le_of_lt h)

theorem size_le_appendList (calls : Array (Call K)) (more : List (Call K)) :
    calls.size ≤ (calls ++ more).size := by
  show calls.toList.length ≤ (calls ++ more).toList.length
  rw [Array.toList_appendList, List.length_append]
  exact Nat.le_add_right _ _

namespace Table

variable {t : Table K V} {key : K} {value : V} {taken : Nat} {calls : Array (Call K)}
  {ps : List (K × V)} {reentry : Reentry}

/-- Calls up to one of those of the walk for a key have asked for one hash more. -/
theorem hashed_take_placeCalls (t : Table K V) (key : K) (h : calls.size ≤ number) :
    hashed ((calls ++ t.placeCalls ks key).take (number + 1)) = hashed calls ++ [key] := by
  have hsplit : (calls ++ t.placeCalls ks key).take (number + 1) =
      calls.push (.hash key) ++ ((t.locate ks (t.bucketOf (ks.hash key)) key).2.take
        (number - calls.size)).map (Call.equals · key) := by
    have hnumber : number + 1 - calls.size = number - calls.size + 1 := by omega
    apply Array.toList_inj.mp
    simp [placeCalls, List.take_append, hnumber, List.take_of_length_le (Nat.le_succ_of_le h)]
  rw [hsplit, hashed_walk]

/-- A migration in which no call looks into the map starts with the calls made before. -/
theorem migrate_never_calls (ks : Keying K) (t : Table K V) (taken : Nat)
    (calls : Array (Call K)) (ps : List (K × V)) :
    ∃ more : List (Call K), (migrate ks .never t taken calls ps).calls = calls ++ more := by
  induction ps generalizing t taken calls with
  | nil => exact ⟨[], rfl⟩
  | cons kv ps ih =>
    obtain ⟨key, value⟩ := kv
    rw [migrate_cons_of_none (Reentry.cut_never _)]
    split
    next => exact ⟨_, rfl⟩
    next =>
      obtain ⟨more, hmore⟩ := ih (t.store (t.placeOf ks key) (key, value))
        (taken + 1) (calls ++ t.placeCalls ks key)
      refine ⟨t.placeCalls ks key ++ more, ?_⟩
      apply Array.toList_inj.mp
      rw [hmore]
      simp only [Array.toList_appendList, List.append_assoc]

/-- A call that would come after the end of a migration changes nothing. -/
theorem migrate_past (h : (migrate ks .never t taken calls ps).calls.size ≤ number) :
    migrate ks (.atCall number) t taken calls ps = migrate ks .never t taken calls ps := by
  induction ps generalizing t taken calls with
  | nil => rfl
  | cons kv ps ih =>
    obtain ⟨key, value⟩ := kv
    obtain ⟨more, hmore⟩ := migrate_never_calls ks
      (t.store (t.placeOf ks key) (key, value)) (taken + 1)
      (calls ++ t.placeCalls ks key) ps
    rw [migrate_cons_of_none (Reentry.cut_never _)] at h ⊢
    by_cases hd : (t.placeOf ks key).displaced.isSome = true
    · rw [if_pos hd] at h ⊢
      rw [migrate_cons_of_none (Reentry.cut_of_le h), if_pos hd]
    · rw [if_neg hd] at h ⊢
      have hwalk : (calls ++ t.placeCalls ks key).size ≤ number :=
        (hmore ▸ size_le_appendList _ more).trans h
      rw [migrate_cons_of_none (Reentry.cut_of_le hwalk), if_neg hd]
      exact ih h

/-- How a migration of some pairs ends that the call of that number breaks off. -/
structure MoveBroken (ks : Keying K) (number : Nat) (t : Table K V) (taken : Nat)
    (calls : Array (Call K)) (ps : List (K × V)) (moved : Nat) : Prop where
  pos : 0 < moved
  le_length : moved ≤ ps.length
  migrate_eq : migrate ks (.atCall number) t taken calls ps =
    .stopped .reentered (taken + moved)
      ((migrate ks .never t taken calls ps).calls.take (number + 1))
  hashed_eq : hashed ((migrate ks .never t taken calls ps).calls.take (number + 1)) =
    hashed calls ++ (ps.take moved).map Prod.fst

/-- A call during a migration breaks it off at the pair for which it was made. -/
theorem exists_moveBroken (hbefore : calls.size ≤ number)
    (h : number < (migrate ks .never t taken calls ps).calls.size) :
    ∃ moved, MoveBroken ks number t taken calls ps moved := by
  induction ps generalizing t taken calls with
  | nil => exact absurd h (Nat.not_lt.mpr hbefore)
  | cons kv ps ih =>
    obtain ⟨key, value⟩ := kv
    obtain ⟨more, hmore⟩ := migrate_never_calls ks
      (t.store (t.placeOf ks key) (key, value)) (taken + 1)
      (calls ++ t.placeCalls ks key) ps
    have hstep : migrate ks .never t taken calls ((key, value) :: ps) = _ :=
      migrate_cons_of_none (Reentry.cut_never (calls ++ t.placeCalls ks key))
    by_cases hwalk : number < (calls ++ t.placeCalls ks key).size
    · -- the walk for this key is broken off
      have hmade : (migrate ks .never t taken calls ((key, value) :: ps)).calls.take (number + 1) =
          (calls ++ t.placeCalls ks key).take (number + 1) := by
        rw [hstep]
        split
        next => rfl
        next =>
          rw [hmore]
          exact take_appendList_of_lt more hwalk
      refine ⟨1, Nat.one_pos, Nat.succ_le_succ (Nat.zero_le _), ?_, ?_⟩
      · rw [hmade]
        exact migrate_cons_of_some (Reentry.cut_of_lt hwalk)
      · rw [hmade, hashed_take_placeCalls t key hbefore]
        rfl
    · have hwalk := Nat.not_lt.mp hwalk
      by_cases hd : (t.placeOf ks key).displaced.isSome = true
      · rw [hstep, if_pos hd] at h
        exact absurd h (Nat.not_lt.mpr hwalk)
      · rw [if_neg hd] at hstep
        rw [hstep] at h
        obtain ⟨moved, hb⟩ := ih hwalk h
        refine ⟨moved + 1, Nat.succ_pos _, Nat.succ_le_succ hb.le_length, ?_, ?_⟩
        · rw [hstep, migrate_cons_of_none (Reentry.cut_of_le hwalk), if_neg hd, hb.migrate_eq,
            Nat.add_right_comm, Nat.add_assoc]
        · rw [hstep, hb.hashed_eq, hashed_placeCalls, List.append_assoc]
          rfl

end Table

namespace Map

open Table

variable {m base : Map ks V} {allocator : Allocator} {buckets reservations : Nat} {key : K}
  {value : V}

/-! ## Growth -/

theorem calls_moveInto (m : Map ks V) (c : Conditions) (buckets : Nat) (calls : Array (Call K))
    (reservations : Nat) : (m.moveInto c buckets calls reservations).calls =
      (migrate ks c.reentry (ofBuckets buckets) 0 calls m.table.drain.1.toList).calls := by
  unfold moveInto
  split
  next hmove => rw [hmove]; rfl
  next hmove => rw [hmove]; rfl

theorem moveInto_past {calls : Array (Call K)}
    (h : (m.moveInto { allocator } buckets calls reservations).calls.size ≤ number) :
    m.moveInto { allocator, reentry := .atCall number } buckets calls reservations =
      m.moveInto { allocator } buckets calls reservations := by
  rw [calls_moveInto] at h
  unfold moveInto
  rw [migrate_past h]

/-- What a growth comes to with its survey made, unless a call of the survey breaks it off. -/
def surveyed (m : Map ks V) (reentry : Reentry) (growth : Growth ks V) : Growth ks V :=
  match reentry.cut m.surveyCalls with
  | some made => .faulted .reentered m made
  | none => growth

/-- How far a growth comes under an allocator, whichever call looks into the map. -/
inductive Approach (m : Map ks V) (allocator : Allocator) : Prop where
  /-- It is refused before any key is hashed. -/
  | refused (error : StorageError) :
      (∀ reentry, m.grow { allocator, reentry } = .refused error #[]) → Approach m allocator
  /-- It is refused after the survey. -/
  | noSlots (error : StorageError) :
      (∀ reentry, m.grow { allocator, reentry } =
        m.surveyed reentry (.refused error m.surveyCalls)) → Approach m allocator
  | moved {buckets reservations : Nat} :
      (∀ reentry, m.grow { allocator, reentry } =
        m.surveyed reentry
          (m.moveInto { allocator, reentry } buckets m.surveyCalls reservations)) →
      Approach m allocator

theorem approach (m : Map ks V) (allocator : Allocator) : m.Approach allocator := by
  cases hb : m.sizing.grown m.bucketCount with
  | none =>
    refine .refused (.capacityOverflow m.bucketCount) fun reentry => ?_
    unfold grow
    rw [hb]
  | some buckets =>
    by_cases hrefused : (!allocator.grants 1 buckets || !allocator.grants 2 buckets) = true
    · refine .refused (.allocationFailed buckets) fun reentry => ?_
      unfold grow
      rw [hb]
      exact if_pos hrefused
    · have hgrow : ∀ reentry, m.grow { allocator, reentry } =
          m.surveyed reentry
            (if m.table.overflow ks buckets = 0 then
              m.moveInto { allocator, reentry } buckets m.surveyCalls 2
            else if allocator.grants 3 (m.table.overflow ks buckets) then
              m.moveInto { allocator, reentry } buckets m.surveyCalls 3
            else .refused (.allocationFailed (m.table.overflow ks buckets)) m.surveyCalls) := by
        intro reentry
        unfold grow
        rw [hb]
        exact if_neg hrefused
      by_cases hnone : m.table.overflow ks buckets = 0
      · simp only [if_pos hnone] at hgrow
        exact .moved hgrow
      · simp only [if_neg hnone] at hgrow
        by_cases hslots : allocator.grants 3 (m.table.overflow ks buckets) = true
        · simp only [if_pos hslots] at hgrow
          exact .moved hgrow
        · simp only [if_neg hslots] at hgrow
          exact .noSlots _ hgrow

theorem surveyed_of_lt {growth : Growth ks V} (h : number < m.surveyCalls.size) :
    m.surveyed (.atCall number) growth =
      .faulted .reentered m (m.surveyCalls.take (number + 1)) := by
  unfold surveyed
  rw [Reentry.cut_of_lt h]

theorem surveyed_of_le {growth : Growth ks V} (h : m.surveyCalls.size ≤ number) :
    m.surveyed (.atCall number) growth = growth := by
  unfold surveyed
  rw [Reentry.cut_of_le h]

/-- The calls of a growth that moves pairs start with those of the survey. -/
theorem calls_moveInto_surveyCalls (m : Map ks V) (allocator : Allocator)
    (buckets reservations : Nat) : ∃ more : List (Call K),
      (m.moveInto { allocator } buckets m.surveyCalls reservations).calls =
        m.surveyCalls ++ more := by
  rw [calls_moveInto]
  exact migrate_never_calls _ _ _ _ _

/-- A call that would come after the end of a growth changes nothing. -/
theorem grow_past (h : (m.grow { allocator }).calls.size ≤ number) :
    m.grow { allocator, reentry := .atCall number } = m.grow { allocator } := by
  cases m.approach allocator with
  | refused _ hgrow => rw [hgrow, hgrow]
  | noSlots _ hgrow =>
    rw [hgrow] at h ⊢
    rw [hgrow, surveyed_of_le h]
    rfl
  | @moved buckets reservations hgrow =>
    obtain ⟨more, hmore⟩ := m.calls_moveInto_surveyCalls allocator buckets reservations
    have hnever : m.grow { allocator } =
        m.moveInto { allocator } buckets m.surveyCalls reservations := hgrow .never
    rw [hnever] at h ⊢
    have hsurvey : m.surveyCalls.size ≤ number :=
      (hmore ▸ size_le_appendList m.surveyCalls more).trans h
    rw [hgrow, surveyed_of_le hsurvey, moveInto_past h]

/-- A call of the survey breaks a growth off before any pair is moved. -/
theorem grow_of_lt_survey (h : number < (m.grow { allocator }).calls.size)
    (hsurvey : number < m.surveyCalls.size) :
    m.grow { allocator, reentry := .atCall number } =
      .faulted .reentered m ((m.grow { allocator }).calls.take (number + 1)) := by
  cases m.approach allocator with
  | refused _ hgrow =>
    rw [hgrow] at h
    exact absurd h (Nat.not_lt_zero _)
  | noSlots _ hgrow =>
    rw [hgrow, hgrow, surveyed_of_lt hsurvey]
    rfl
  | @moved buckets reservations hgrow =>
    obtain ⟨more, hmore⟩ := m.calls_moveInto_surveyCalls allocator buckets reservations
    have hnever : m.grow { allocator } =
        m.moveInto { allocator } buckets m.surveyCalls reservations := hgrow .never
    rw [hgrow, hnever, surveyed_of_lt hsurvey, hmore, take_appendList_of_lt more hsurvey]

/-- How a growth ends that the call of that number breaks off while pairs are moved, and with
how many of them taken out. -/
structure GrowthBroken (m : Map ks V) (allocator : Allocator) (number moved : Nat) : Prop where
  pos : 0 < moved
  le_length : moved ≤ m.pairs.length
  hashed_eq : hashed ((m.grow { allocator }).calls.take (number + 1)) =
    m.table.keysBySlot ++ (m.pairs.take moved).map Prod.fst
  grow_eq : m.grow { allocator, reentry := .atCall number } =
    .faulted .reentered { m with table := (m.table.takeFirst moved).2 }
      ((m.grow { allocator }).calls.take (number + 1))

/-- A call behind the survey breaks a growth off at the pair for which it was made. -/
theorem exists_growthBroken (hl : m.table.Linked)
    (h : number < (m.grow { allocator }).calls.size) (hsurvey : m.surveyCalls.size ≤ number) :
    ∃ moved, m.GrowthBroken allocator number moved := by
  cases m.approach allocator with
  | refused _ hgrow =>
    rw [hgrow] at h
    exact absurd h (Nat.not_lt_zero _)
  | noSlots _ hgrow =>
    rw [hgrow] at h
    exact absurd h (Nat.not_lt.mpr hsurvey)
  | @moved buckets reservations hgrow =>
    have hnever : m.grow { allocator } =
        m.moveInto { allocator } buckets m.surveyCalls reservations := hgrow .never
    rw [hnever, calls_moveInto] at h
    obtain ⟨moved, hb⟩ := exists_moveBroken hsurvey h
    have hcalls : (m.grow { allocator }).calls = _ :=
      (congrArg Growth.calls hnever).trans (m.calls_moveInto _ _ _ _)
    refine ⟨moved, hb.pos, ?_, ?_, ?_⟩
    · have hle := hb.le_length
      rwa [hl.drain_toList] at hle
    · rw [hcalls, hb.hashed_eq, hashed_surveyCalls, hl.drain_toList]
      rfl
    · rw [hgrow, surveyed_of_le hsurvey, hcalls]
      unfold moveInto
      rw [hb.migrate_eq, Nat.zero_add]

/-! ## Puts -/

theorem place_calls (m : Map ks V) (allocator : Allocator) (reservations : Nat)
    (before : Transcript K V) (key : K) (value : V) :
    (m.place { allocator } reservations before key value).transcript.calls =
      before.calls ++ m.table.placeCalls ks key := by
  rw [← push_append_eq_placeCalls]
  unfold place
  generalize m.table.locate ks (m.table.bucketOf (ks.hash key)) key = located
  obtain ⟨place, compared⟩ := located
  dsimp only
  rw [Reentry.cut_never]
  cases place with
  | replace p old => rfl
  | reuse p => rfl
  | append last =>
    dsimp only
    split <;> rfl

theorem place_past {before : Transcript K V}
    (h : (before.calls ++ m.table.placeCalls ks key).size ≤ number) :
    m.place { allocator, reentry := .atCall number } reservations before key value =
      m.place { allocator } reservations before key value := by
  rw [← push_append_eq_placeCalls] at h
  unfold place
  dsimp only
  rw [Reentry.cut_of_le h, Reentry.cut_never]

theorem place_of_lt {before : Transcript K V}
    (h : number < (before.calls ++ m.table.placeCalls ks key).size) :
    m.place { allocator, reentry := .atCall number } reservations before key value =
      ⟨.faulted .reentered, m, { before with
        calls := (before.calls ++ m.table.placeCalls ks key).take (number + 1) }⟩ := by
  rw [← push_append_eq_placeCalls] at h ⊢
  unfold place
  dsimp only
  rw [Reentry.cut_of_lt h]

theorem put_past (h : (m.put { allocator } key value).transcript.calls.size ≤ number) :
    m.put { allocator, reentry := .atCall number } key value = m.put { allocator } key value := by
  by_cases hlt : m.len < m.watermark
  · rw [put_of_lt hlt, place_calls] at h
    rw [put_of_lt hlt, put_of_lt hlt, place_past h]
  · have hfull := Nat.not_lt.mp hlt
    rw [put_of_le hfull] at h
    rw [put_of_le hfull, put_of_le hfull]
    cases hg : m.grow { allocator } with
    | refused error calls =>
      rw [hg] at h
      rw [grow_past (hg ▸ h), hg]
    | faulted fault left calls =>
      rw [hg] at h
      rw [grow_past (hg ▸ h), hg]
    | grown base calls reservations =>
      rw [hg] at h
      dsimp only at h
      rw [place_calls] at h
      have hgrow : (m.grow { allocator }).calls.size ≤ number := by
        rw [hg]
        exact (size_le_appendList calls _).trans h
      rw [grow_past hgrow, hg]
      exact place_past h

/-- The call of that number is made while a growth moves the pairs. -/
structure Moving (m : Map ks V) (allocator : Allocator) (request : Request K V)
    (number : Nat) : Prop where
  isPut : request.isPut = true
  full : m.watermark ≤ m.len
  survey_le : m.table.keysBySlot.length ≤ number
  lt_calls : number < (m.grow { allocator }).calls.size

/-- An operation can leave that of a map if the call of that number, the last of those `made`,
breaks it off. -/
inductive Leaves (m : Map ks V) (allocator : Allocator) (request : Request K V) (number : Nat)
    (made : Array (Call K)) : Map ks V → Prop where
  | asIs : ¬ m.Moving allocator request number → Leaves m allocator request number made m
  /-- Growth was carried out before. -/
  | grown {base : Map ks V} {calls : Array (Call K)} {reservations : Nat} :
      ¬ m.Moving allocator request number →
      m.grow { allocator } = .grown base calls reservations →
      Leaves m allocator request number made base
  /-- Some pairs have been taken out to be moved. -/
  | moving {moved : Nat} : m.Moving allocator request number → 0 < moved →
      moved ≤ m.pairs.length →
      hashed made = m.table.keysBySlot ++ (m.pairs.take moved).map Prod.fst →
      Leaves m allocator request number made { m with table := (m.table.takeFirst moved).2 }

/-- A put that a call of its growth breaks off. -/
theorem put_of_lt_grow (hl : m.table.Linked) (key : K) (value : V)
    (hfull : m.watermark ≤ m.len) (h : number < (m.grow { allocator }).calls.size) :
    ∃ left, m.put { allocator, reentry := .atCall number } key value =
        ⟨.faulted .reentered, left, { calls := (m.grow { allocator }).calls.take (number + 1) }⟩ ∧
      m.Leaves allocator (.put key value) number
        ((m.grow { allocator }).calls.take (number + 1)) left := by
  rw [put_of_le hfull]
  have hsize : m.surveyCalls.size = m.table.keysBySlot.length := by
    simp [surveyCalls]
  by_cases hsurvey : number < m.surveyCalls.size
  · rw [grow_of_lt_survey h hsurvey]
    refine ⟨m, rfl, .asIs fun hmoving => ?_⟩
    have hle := hmoving.survey_le
    omega
  · obtain ⟨moved, hb⟩ := exists_growthBroken hl h (Nat.not_lt.mp hsurvey)
    have hmoving : m.Moving allocator (.put key value) number :=
      ⟨rfl, hfull, by omega, h⟩
    rw [hb.grow_eq]
    exact ⟨_, rfl, .moving hmoving hb.pos hb.le_length hb.hashed_eq⟩

/-- A put of which a call looks into the map. -/
theorem exists_put_broken (hl : m.table.Linked)
    (h : number < (m.put { allocator } key value).transcript.calls.size) :
    ∃ left events, m.put { allocator, reentry := .atCall number } key value =
        ⟨.faulted .reentered, left,
          { calls := (m.put { allocator } key value).transcript.calls.take (number + 1), events }⟩ ∧
      m.Leaves allocator (.put key value) number
        ((m.put { allocator } key value).transcript.calls.take (number + 1)) left := by
  by_cases hlt : m.len < m.watermark
  · have hcalls : (m.put { allocator } key value).transcript.calls =
        ({} : Transcript K V).calls ++ m.table.placeCalls ks key := by
      rw [put_of_lt hlt, place_calls]
    rw [hcalls] at h ⊢
    rw [put_of_lt hlt, place_of_lt h]
    exact ⟨m, _, rfl, .asIs fun hmoving => absurd hlt (Nat.not_lt.mpr hmoving.full)⟩
  · have hfull := Nat.not_lt.mp hlt
    by_cases hgrow : number < (m.grow { allocator }).calls.size
    · -- nothing comes after the growth
      obtain ⟨left, hput, hleaves⟩ := put_of_lt_grow hl key value hfull hgrow
      have hcalls : (m.put { allocator } key value).transcript.calls.take (number + 1) =
          (m.grow { allocator }).calls.take (number + 1) := by
        rw [put_of_le hfull]
        cases hg : m.grow { allocator } with
        | refused error calls => rfl
        | faulted fault left calls => rfl
        | grown base calls reservations =>
          dsimp only
          rw [place_calls]
          rw [hg] at hgrow
          exact take_appendList_of_lt _ hgrow
      rw [hcalls]
      exact ⟨left, _, hput, hleaves⟩
    · -- the growth makes its calls, and the walk for the place in the grown map is broken off
      have hle := Nat.not_lt.mp hgrow
      rw [put_of_le hfull] at h
      rw [put_of_le hfull, put_of_le hfull, grow_past hle]
      cases hg : m.grow { allocator } with
      | refused error calls =>
        rw [hg] at h hgrow
        exact absurd h hgrow
      | faulted fault left calls =>
        rw [hg] at h hgrow
        exact absurd h hgrow
      | grown base calls reservations =>
        rw [hg] at h
        dsimp only at h ⊢
        rw [place_calls] at h ⊢
        rw [place_of_lt h]
        exact ⟨base, _, rfl, .grown (fun hmoving => hgrow hmoving.lt_calls) hg⟩

/-! ## Requests -/

/-- A request puts a pair, or counts, or looks a key up and goes on with what was found. -/
inductive Asks (m : Map ks V) : Request K V → Prop where
  | put (key : K) (value : V) : Asks m (.put key value)
  | len : Asks m .len
  | lookup {request : Request K V} {key : K}
      {goOn : Map ks V → Option (Entry K V) → Answer K V × Map ks V × Array (Release K V)} :
      request.isPut = false → (∀ c, m.respond c request = m.lookup c key goOn) →
      (∀ allocator, m.walks allocator request = [(m.search key).calls.toList]) → Asks m request

theorem asks (m : Map ks V) (request : Request K V) : m.Asks request := by
  cases request with
  | put key value => exact .put key value
  | len => exact .len
  | _ => exact .lookup rfl (fun c => by unfold respond; rfl) fun _ => rfl

section Lookup

variable {goOn : Map ks V → Option (Entry K V) → Answer K V × Map ks V × Array (Release K V)}

theorem lookup_calls (m : Map ks V) (allocator : Allocator) (key : K)
    (goOn : Map ks V → Option (Entry K V) → Answer K V × Map ks V × Array (Release K V)) :
    (m.lookup { allocator } key goOn).transcript.calls = (m.search key).calls :=
  rfl

theorem lookup_past (h : (m.search key).calls.size ≤ number) :
    m.lookup { allocator, reentry := .atCall number } key goOn =
      m.lookup { allocator } key goOn := by
  unfold lookup
  dsimp only
  rw [Reentry.cut_of_le h, Reentry.cut_never]

theorem lookup_of_lt (h : number < (m.search key).calls.size) :
    m.lookup { allocator, reentry := .atCall number } key goOn =
      ⟨.faulted .reentered, m, { calls := (m.search key).calls.take (number + 1) }⟩ := by
  unfold lookup
  dsimp only
  rw [Reentry.cut_of_lt h]

end Lookup

end Map

/-- The fault that broke an operation off, if one did. -/
def Answer.fault? : Answer K V → Option Fault
  | .put (.faulted fault) => some fault
  | .faulted fault => some fault
  | _ => none

namespace Map

variable {m : Map ks V} {allocator : Allocator} {request : Request K V}

/-- A call that an operation would make after its last one changes nothing. -/
theorem respond_past
    (h : (m.respond { allocator } request).transcript.calls.size ≤ number) :
    m.respond { allocator, reentry := .atCall number } request =
      m.respond { allocator } request := by
  cases m.asks request with
  | put key value =>
    unfold respond
    dsimp only
    rw [put_past h]
  | len => rfl
  | lookup _ hrespond _ =>
    rw [hrespond] at h
    rw [hrespond, hrespond, lookup_past h]

/-- How an operation ends that the call of that number breaks off: the calls up to that one have
been made, and nothing has been let go of. -/
structure BrokenOff (m : Map ks V) (allocator : Allocator) (request : Request K V)
    (number : Nat) : Prop where
  fault_eq : (m.respond { allocator, reentry := .atCall number } request).answer.fault? =
    some .reentered
  calls_eq : (m.respond { allocator, reentry := .atCall number } request).transcript.calls =
    (m.respond { allocator } request).transcript.calls.take (number + 1)
  releases_eq :
    (m.respond { allocator, reentry := .atCall number } request).transcript.releases = #[]

/-- A call that looks into the map breaks its operation off. -/
theorem respond_brokenOff (hl : m.table.Linked)
    (h : number < (m.respond { allocator } request).transcript.calls.size) :
    m.BrokenOff allocator request number ∧
      m.Leaves allocator request number
        ((m.respond { allocator } request).transcript.calls.take (number + 1))
        (m.respond { allocator, reentry := .atCall number } request).map := by
  cases m.asks request with
  | put key value =>
    obtain ⟨left, events, hput, hleaves⟩ := exists_put_broken hl h
    have hbroken : m.respond { allocator, reentry := .atCall number } (.put key value) =
        ⟨.put (.faulted .reentered), left, {
          calls := (m.put { allocator } key value).transcript.calls.take (number + 1)
          events }⟩ := by
      unfold respond
      dsimp only
      rw [hput]
    refine ⟨⟨?_, ?_, ?_⟩, ?_⟩
    · exact congrArg (·.answer.fault?) hbroken
    · exact congrArg (·.transcript.calls) hbroken
    · exact congrArg (·.transcript.releases) hbroken
    · rwa [hbroken]
  | len => exact absurd h (Nat.not_lt_zero _)
  | lookup hput hrespond _ =>
    have hcalls := (congrArg (·.transcript.calls) (hrespond { allocator })).trans
      (m.lookup_calls _ _ _)
    rw [hcalls] at h
    have hbroken := (hrespond { allocator, reentry := .atCall number }).trans (lookup_of_lt h)
    refine ⟨⟨?_, ?_, ?_⟩, ?_⟩
    · exact congrArg (·.answer.fault?) hbroken
    · exact hcalls ▸ congrArg (·.transcript.calls) hbroken
    · exact congrArg (·.transcript.releases) hbroken
    · rw [hbroken]
      refine .asIs fun hmoving => ?_
      rw [hmoving.isPut] at hput
      cases hput

end Map

end Chaining
