import Chaining.Proofs.Map.Lookup
import Chaining.Proofs.Table.Steady

/-!
# Cursors on a map that changes

A cursor may be kept while its map changes. As long as the map does not grow, its
slots stay where they are (`Table.Steady`), and so does what the cursor has ahead of
it: a slot that was there before the change is ahead afterwards exactly if it was
(`Table.Steady.mem_places`). A key that stays in the map stays in one slot, which the
cursor passes once, whatever is removed, put or changed around it
(`Map.countP_walk`). Past the last bucket a cursor has nothing ahead and keeps
answering none.

`Map.walk` is a walk interleaved with requests to the map, and `Map.walk_interleaved`
says all this of it.
-/

namespace Chaining

open Table

universe u v

variable {K : Type u} {V : Type v} {ks : Keying K}

/-! ## Places ahead of a cursor -/

namespace Table

variable {t u : Table K V}

theorem mem_placesBehind {n : Nat} {p : Pos} :
    p ∈ t.placesBehind n ↔ ∃ b, n ≤ b ∧ b < t.bucketCount ∧ p ∈ t.chain b := by
  unfold placesBehind
  rw [List.mem_flatMap]
  constructor
  · rintro ⟨b, hb, hp⟩
    obtain ⟨hlow, hhigh⟩ := List.mem_range'_1.mp hb
    exact ⟨b, hlow, by omega, hp⟩
  · rintro ⟨b, hlow, hhigh, hp⟩
    exact ⟨b, List.mem_range'_1.mpr ⟨hlow, by omega⟩, hp⟩

theorem Linked.nodup_placesBehind (hl : t.Linked) (n : Nat) : (t.placesBehind n).Nodup :=
  hl.nodup_flatMap_chain List.nodup_range' fun _ hb => by
    have hb := List.mem_range'_1.mp hb
    omega

/-- Behind the first pair from a position on comes a slot of the same chain. -/
theorem Linked.mem_chain_of_firstFrom (hl : t.Linked) {b : Nat} (hb : b < t.bucketCount)
    {bound : Nat} {p : Pos} {kv : K × V} {j : Nat} (hp : p ∈ t.chain b)
    (h : t.firstFrom bound p = some (kv, some j)) : .extension j ∈ t.chain b := by
  induction bound generalizing p with
  | zero => cases h
  | succ bound ih =>
    unfold Table.firstFrom at h
    split at h
    next =>
      obtain ⟨_, hn⟩ := Prod.mk.inj (Option.some.inj h)
      exact (hl.extension_mem_chain hb hn).mpr hp
    next i _ hn => exact ih ((hl.extension_mem_chain hb hn).mpr hp) h
    next => cases h

end Table

namespace Cursor

variable {t u : Table K V} {c : Cursor}

/-- The slot that a cursor is before is on the chain of its bucket. -/
def OnTrack (t : Table K V) (c : Cursor) : Prop :=
  ∀ i, c.pending = some i →
    ∃ b, c.bucket = some b ∧ b < t.bucketCount ∧ .extension i ∈ t.chain b

theorem onTrack_start (t : Table K V) : start.OnTrack t :=
  fun _ h => by cases h

theorem onTrack_of_firstInBuckets (hl : t.Linked) {n b : Nat} {kv : K × V}
    (hn : b + n ≤ t.bucketCount) (h : t.firstInBuckets n b = some (kv, c)) : c.OnTrack t := by
  induction n generalizing b with
  | zero => cases h
  | succ n ih =>
    have hb : b < t.bucketCount := by omega
    unfold Table.firstInBuckets at h
    split at h
    next pair next hf =>
      cases h
      intro i hi
      dsimp only at hi
      subst hi
      exact ⟨b, rfl, hb, hl.mem_chain_of_firstFrom hb ((hl.head_mem_chain hb).mpr rfl) hf⟩
    next => exact ih (by omega) h

theorem onTrack_nextHead (hl : t.Linked) (c : Cursor) : (c.nextHead t).2.OnTrack t := by
  unfold nextHead
  split
  next pair c' hf =>
    by_cases hb : c.nextBucket ≤ t.bucketCount
    · exact onTrack_of_firstInBuckets hl (by omega) hf
    · rw [Nat.sub_eq_zero_of_le (Nat.le_of_not_le hb)] at hf
      cases hf
  next => exact fun i hi => by cases hi

/-- A step leaves the cursor on track. -/
theorem OnTrack.next (h : c.OnTrack t) (hl : t.Linked) : (c.next t).2.OnTrack t := by
  unfold Cursor.next
  split
  next => exact onTrack_nextHead hl c
  next i hi =>
    obtain ⟨b, hbucket, hb, hmem⟩ := h i hi
    split
    next pair next hf =>
      intro j hj
      dsimp only at hj
      subst hj
      exact ⟨b, hbucket, hb, hl.mem_chain_of_firstFrom hb hmem hf⟩
    next => exact onTrack_nextHead hl c

/-- A cursor on track has no slot ahead of it twice. -/
theorem OnTrack.nodup_places (h : c.OnTrack t) (hl : t.Linked) : (c.places t).Nodup := by
  unfold places
  cases hp : c.pending with
  | none => exact hl.nodup_placesBehind c.nextBucket
  | some i =>
    obtain ⟨b, hbucket, hb, hmem⟩ := h i hp
    obtain ⟨front, qs, hs, hqs⟩ := (hl.path_chain hb).exists_of_mem hmem
    have hnext : c.nextBucket = b + 1 := by rw [nextBucket, hbucket]
    -- what is ahead is the end of the positions from this bucket on
    have hall := hl.nodup_placesBehind b
    rw [placesBehind_of_lt hb, hs, List.append_assoc] at hall
    rw [hqs.placesFrom_eq hl, hnext]
    exact hall.of_append_right

/-- With no slot pending and no bucket left a cursor answers none and stays so. -/
theorem next_of_exhausted (hp : c.pending = none) (hb : t.bucketCount ≤ c.nextBucket) :
    c.next t = (none, ⟨some t.bucketCount, none⟩) := by
  unfold next nextHead
  rw [hp, Nat.sub_eq_zero_of_le hb]
  rfl

end Cursor

namespace Table.Steady

variable {t u : Table K V} {c : Cursor}

theorem onTrack (h : Steady ks t u) (hl : t.Linked) (hu : u.Linked) (hc : c.OnTrack t) :
    c.OnTrack u := by
  intro i hi
  obtain ⟨b, hbucket, hb, hmem⟩ := hc i hi
  obtain ⟨more, hmore, _⟩ := h.chain_eq hl hu hb
  refine ⟨b, hbucket, by rwa [h.bucketCount_eq], ?_⟩
  rw [hmore]
  exact List.mem_append_left _ hmem

/-- A slot that was there is ahead of a cursor exactly if it was ahead. -/
theorem mem_places (h : Steady ks t u) (hl : t.Linked) (hu : u.Linked) (hc : c.OnTrack t)
    {p : Pos} (hp : t.Has p) : p ∈ c.places u ↔ p ∈ c.places t := by
  have hold : ∀ {ps more : List Pos}, (∀ q ∈ more, ¬ t.Has q) → (p ∈ ps ++ more ↔ p ∈ ps) := by
    intro ps more hmore
    rw [List.mem_append]
    exact or_iff_left fun hm => hmore p hm hp
  have hfrom : p ∈ u.placesFrom c.pending ↔ p ∈ t.placesFrom c.pending := by
    cases hi : c.pending with
    | none => exact Iff.rfl
    | some i =>
      obtain ⟨b, _, hb, hmem⟩ := hc i hi
      obtain ⟨ps, hps, _⟩ := hl.exists_path ((hl.path_chain hb).has hmem)
      obtain ⟨more, hmore, hnew⟩ := h.path hps
      rw [hps.placesFrom_eq hl, hmore.placesFrom_eq hu]
      exact hold hnew
  have hbehind : p ∈ u.placesBehind c.nextBucket ↔ p ∈ t.placesBehind c.nextBucket := by
    rw [mem_placesBehind, mem_placesBehind, h.bucketCount_eq]
    refine exists_congr fun b => and_congr_right fun _ => and_congr_right fun hb => ?_
    obtain ⟨more, hmore, hnew⟩ := h.chain_eq hl hu hb
    rw [hmore]
    exact hold hnew
  unfold Cursor.places
  rw [List.mem_append, List.mem_append, hfrom, hbehind]

end Table.Steady

namespace Map

variable {m after : Map ks V} {cond : Conditions} {releases : List (Release K V)}

/-! ## Requests that do not grow the map -/

theorem Puts.steady {key : K} {value : V} {result : PutResult K V}
    (h : m.Puts cond key value result after releases) (hw : m.table.WellFormed ks)
    (hk : ks.Lawful) (hsame : after.bucketCount = m.bucketCount) :
    Steady ks m.table after.table := by
  have hself : Steady ks m.table m.table := (Emptied.refl m.table).steady hk
  cases h with
  | notGrown _ _ => exact hself
  | broken _ hg =>
    obtain ⟨n, rfl⟩ := grow_faulted hg
    exact (Emptied.takeFirst m.table n).steady hk
  | @placed base _ _ _ _ hp hplaces =>
    obtain rfl := hp.eq_of_bucketCount_eq hw (hplaces.bucketCount_eq.symm.trans hsame)
    cases hplaces with
    | stored hf _ => exact .store hk hw hf value
    | noSlot _ _ => exact hself
    | reentered _ => exact hself

/-- A request that leaves the number of buckets moves no pair. -/
theorem Step.steady {request : Request K V} {answer : Answer K V}
    (h : m.Step cond request answer after releases) (hw : m.table.WellFormed ks)
    (hk : ks.Lawful) (hsame : after.bucketCount = m.bucketCount) :
    Steady ks m.table after.table := by
  cases h with
  | put hp => exact hp.steady hw hk hsame
  | @modify _ f e _ => exact .mapValue hk m.table e.pos f
  | @remove _ e _ => exact ((Emptied.refl m.table).vacate e.pos).steady hk
  | @steal _ e _ => exact ((Emptied.refl m.table).vacate e.pos).steady hk
  | _ => exact (Emptied.refl m.table).steady hk

/-- What a key is found with is the pair of an equal key, wherever it is. -/
theorem getPair?_eq_some (hm : m.Reachable) (hk : ks.Lawful) {key : K} {p : Pos} {kv : K × V}
    (hp : m.table.pair? p = some kv) (heq : ks.equals kv.1 key = true) :
    m.getPair? key = some kv :=
  (getPair?_eq_some_iff hm hk).mpr ⟨hm.wellFormed.linked.mem_pairs hp, heq⟩

theorem contains_iff (hm : m.Reachable) (hk : ks.Lawful) {key : K} :
    m.contains key = true ↔
      ∃ p kv, m.table.pair? p = some kv ∧ ks.equals kv.1 key = true := by
  constructor
  · intro h
    obtain ⟨e, hs⟩ := Option.isSome_iff_exists.mp h
    rw [search_found, find] at hs
    obtain ⟨_, _, _, he, hek, _⟩ := findAlong_eq_some hs
    exact ⟨e.pos, e.pair, he, hek⟩
  · rintro ⟨p, kv, hp, heq⟩
    rw [contains_eq, getPair?_eq_some hm hk hp heq]
    rfl

end Map

/-! ## Walks interleaved with requests -/

/-- What is done in the course of a walk. -/
inductive Action (K : Type u) (V : Type v) where
  /-- Ask the cursor for the next pair. -/
  | next
  /-- Make a request to the map. -/
  | request (conditions : Conditions) (request : Request K V)

/-- An answer of the cursor, with the map at that moment. -/
structure Stop (ks : Keying K) (V : Type v) where
  map : Map ks V
  answer : Option (K × V)

/-- Whether the answer has a key equal to that one. -/
def Stop.yields (s : Stop ks V) (key : K) : Bool :=
  s.answer.any fun kv => ks.equals kv.1 key

namespace Map

/-- The answers of a cursor in the course of some actions. -/
def walk (m : Map ks V) (c : Cursor) : List (Action K V) → List (Stop ks V)
  | [] => []
  | .next :: rest => ⟨m, (c.next m.table).1⟩ :: m.walk (c.next m.table).2 rest
  | .request cond request :: rest => (m.respond cond request).map.walk c rest

/-- The map and the cursor after some actions. -/
def walked (m : Map ks V) (c : Cursor) : List (Action K V) → Map ks V × Cursor
  | [] => (m, c)
  | .next :: rest => m.walked (c.next m.table).2 rest
  | .request cond request :: rest => (m.respond cond request).map.walked c rest

/-- All maps that there are in the course of some actions. -/
def stages (m : Map ks V) : List (Action K V) → List (Map ks V)
  | [] => [m]
  | .next :: rest => m.stages rest
  | .request cond request :: rest => m :: (m.respond cond request).map.stages rest

variable {m : Map ks V} {c : Cursor} {key : K} {actions : List (Action K V)}

theorem mem_stages (m : Map ks V) (actions : List (Action K V)) : m ∈ m.stages actions := by
  induction actions with
  | nil => exact List.mem_singleton_self m
  | cons action rest ih =>
    cases action with
    | next => exact ih
    | request cond request => exact List.mem_cons_self

theorem stages_append_subset (m : Map ks V) (before behind : List (Action K V)) :
    m.stages before ⊆ m.stages (before ++ behind) := by
  induction before generalizing m with
  | nil =>
    intro m' hm'
    rw [List.mem_singleton.mp hm']
    exact mem_stages m behind
  | cons action rest ih =>
    cases action with
    | next => exact ih m
    | request cond request => exact List.cons_subset_cons _ (ih _)

/-- The map has the key in a slot that the cursor has not passed. -/
def Awaits (m : Map ks V) (c : Cursor) (key : K) : Prop :=
  ∃ p kv, m.table.pair? p = some kv ∧ ks.equals kv.1 key = true ∧ p ∈ c.places m.table

theorem awaits_start (hm : m.Reachable) (hk : ks.Lawful) (h : m.contains key = true) :
    m.Awaits .start key := by
  obtain ⟨p, kv, hp, heq⟩ := (contains_iff hm hk).mp h
  refine ⟨p, kv, hp, heq, ?_⟩
  rw [Cursor.places_start]
  exact hm.wellFormed.linked.mem_positions.mpr (has_of_pair? hp)

/-- Where the cursor answers none it has passed all keys. -/
theorem not_awaits_of_none (hm : m.Reachable) (h : (c.next m.table).1 = none) :
    ¬ m.Awaits c key := by
  rintro ⟨p, kv, hp, _, hmem⟩
  rw [(Cursor.vacant_of_next hm.wellFormed.linked h).1 p hmem] at hp
  cases hp

/-- A step of the cursor passes the key it answers with and no other. -/
theorem awaits_next (hm : m.Reachable) {kv : K × V} (h : (c.next m.table).1 = some kv) :
    m.Awaits c key ↔ ks.equals kv.1 key = true ∨ m.Awaits (c.next m.table).2 key := by
  obtain ⟨skipped, q, hs, hskipped, hq⟩ := Cursor.first_of_next hm.wellFormed.linked h
  constructor
  · rintro ⟨p, kv', hp, heq, hmem⟩
    rw [hs, List.mem_append, List.mem_cons] at hmem
    rcases hmem with hmem | rfl | hmem
    · rw [hskipped p hmem] at hp
      cases hp
    · rw [hq] at hp
      cases hp
      exact Or.inl heq
    · exact Or.inr ⟨p, kv', hp, heq, hmem⟩
  · rintro (heq | ⟨p, kv', hp, heq, hmem⟩)
    · exact ⟨q, kv, hq, heq, by rw [hs]; simp⟩
    · exact ⟨p, kv', hp, heq, by rw [hs]; simp [hmem]⟩

/-- A key that the cursor answers with is not ahead of it any more. -/
theorem not_awaits_of_yields (hm : m.Reachable) (hk : ks.Lawful) (hc : c.OnTrack m.table)
    {kv : K × V} (h : (c.next m.table).1 = some kv) (heq : ks.equals kv.1 key = true) :
    ¬ m.Awaits (c.next m.table).2 key := by
  have hw := hm.wellFormed
  have hnodup := hc.nodup_places hw.linked
  obtain ⟨skipped, q, hs, _, hq⟩ := Cursor.first_of_next hw.linked h
  rintro ⟨p, kv', hp, heq', hmem⟩
  -- equal keys are in one slot, and that has been passed
  obtain rfl := (hm.distinct hk.toPartialEquivalence).pos_unique hw hk hp hq
    (hk.trans heq' (hk.symm heq))
  rw [hs] at hnodup
  exact (List.nodup_cons.mp hnodup.of_append_right).1 hmem

/-- What is ahead of the cursor of a key that stays is not changed by a request. -/
theorem awaits_respond (hm : m.Reachable) (hk : ks.Lawful) (hc : c.OnTrack m.table)
    {cond : Conditions} {request : Request K V}
    (hsame : (m.respond cond request).map.bucketCount = m.bucketCount)
    (hbefore : m.contains key = true)
    (hafter : (m.respond cond request).map.contains key = true) :
    (m.respond cond request).map.Awaits c key ↔ m.Awaits c key := by
  have hw := hm.wellFormed
  have hm' := hm.responded cond request
  have hs := (m.respond_step cond request).steady hw hk hsame
  obtain ⟨p, old, hp, hold⟩ := (contains_iff hm hk).mp hbefore
  obtain ⟨q, new, hq, hnew⟩ := (contains_iff hm' hk).mp hafter
  obtain rfl := hs.pos_eq hk hw (hm.distinct hk.toPartialEquivalence) hp hq
    (hk.trans hold (hk.symm hnew))
  have hmem := hs.mem_places hw.linked hm'.wellFormed.linked hc (has_of_pair? hp)
  constructor
  · rintro ⟨r, x, hr, hx, hrmem⟩
    obtain rfl := (hm'.distinct hk.toPartialEquivalence).pos_unique hm'.wellFormed hk hr hq
      (hk.trans hx (hk.symm hnew))
    exact ⟨r, old, hp, hold, hmem.mp hrmem⟩
  · rintro ⟨r, x, hr, hx, hrmem⟩
    obtain rfl := (hm.distinct hk.toPartialEquivalence).pos_unique hw hk hr hp
      (hk.trans hx (hk.symm hold))
    exact ⟨r, new, hq, hnew, hmem.mpr hrmem⟩

/-! ## Runs -/

/-- Up to an answer of none a key that stays in the map is answered once if it was ahead
of the cursor, and never if not. -/
theorem countP_walk (hm : m.Reachable) (hk : ks.Lawful) (hc : c.OnTrack m.table)
    (hsame : ∀ m' ∈ m.stages actions, m'.bucketCount = m.bucketCount)
    (hstays : ∀ m' ∈ m.stages actions, m'.contains key = true)
    (hnone : ((m.walked c actions).2.next (m.walked c actions).1.table).1 = none) :
    (m.Awaits c key → (m.walk c actions).countP (·.yields key) = 1) ∧
      (¬ m.Awaits c key → (m.walk c actions).countP (·.yields key) = 0) := by
  induction actions generalizing m c with
  | nil => exact ⟨fun h => absurd h (not_awaits_of_none hm hnone), fun _ => rfl⟩
  | cons action rest ih =>
    cases action with
    | next =>
      obtain ⟨hone, hzero⟩ := ih hm (hc.next hm.wellFormed.linked) hsame hstays hnone
      unfold walk
      rw [List.countP_cons]
      cases ha : (c.next m.table).1 with
      | none =>
        have hahead : ¬ m.Awaits c key := not_awaits_of_none hm ha
        have hnext : ¬ m.Awaits (c.next m.table).2 key := by
          rintro ⟨p, kv, _, _, hmem⟩
          rw [(Cursor.vacant_of_next hm.wellFormed.linked ha).2, Cursor.places_exhausted] at hmem
          cases hmem
        exact ⟨fun h => absurd h hahead, fun _ => by rw [hzero hnext]; rfl⟩
      | some kv =>
        have hstep : m.Awaits c key ↔ _ := awaits_next hm ha
        cases heq : ks.equals kv.1 key with
        | true =>
          have hpassed := not_awaits_of_yields hm hk hc ha heq
          have hyields : Stop.yields ⟨m, some kv⟩ key = true := heq
          refine ⟨fun _ => ?_, fun h => absurd (hstep.mpr (Or.inl heq)) h⟩
          rw [hzero hpassed, hyields]
          rfl
        | false =>
          have hyields : Stop.yields ⟨m, some kv⟩ key = false := heq
          rw [heq] at hstep
          rw [hyields]
          refine ⟨fun h => ?_, fun h => ?_⟩
          · exact hone ((hstep.mp h).resolve_left Bool.false_ne_true)
          · exact hzero fun h' => h (hstep.mpr (Or.inr h'))
    | request cond request =>
      have hm' := hm.responded cond request
      have hmem := mem_stages (m.respond cond request).map rest
      have hcount := hsame _ (List.mem_cons_of_mem _ hmem)
      have hs := (m.respond_step cond request).steady hm.wellFormed hk hcount
      have hawaits : (m.respond cond request).map.Awaits c key ↔ m.Awaits c key :=
        awaits_respond hm hk hc hcount
          (hstays m List.mem_cons_self) (hstays _ (List.mem_cons_of_mem _ hmem))
      rw [← hawaits]
      refine ih hm' (hs.onTrack hm.wellFormed.linked hm'.wellFormed.linked hc) ?_ ?_ hnone
      · intro m' hmem'
        exact (hsame m' (List.mem_cons_of_mem _ hmem')).trans hcount.symm
      · exact fun m' hmem' => hstays m' (List.mem_cons_of_mem _ hmem')

/-- Each answer is a pair that is in the map at that moment. -/
theorem answer_of_mem_walk (hm : m.Reachable) {s : Stop ks V} (h : s ∈ m.walk c actions) :
    s.map.Reachable ∧ ∀ kv, s.answer = some kv → ∃ q, s.map.table.pair? q = some kv := by
  induction actions generalizing m c with
  | nil => cases h
  | cons action rest ih =>
    cases action with
    | request cond request => exact ih (hm.responded cond request) h
    | next =>
      rcases List.mem_cons.mp h with rfl | h
      · refine ⟨hm, fun kv hkv => ?_⟩
        obtain ⟨_, q, _, _, hq⟩ := Cursor.first_of_next hm.wellFormed.linked hkv
        exact ⟨q, hq⟩
      · exact ih hm h

theorem walk_of_exhausted (hp : c.pending = none) (hb : m.bucketCount ≤ c.nextBucket)
    (hsame : ∀ m' ∈ m.stages actions, m'.bucketCount = m.bucketCount) :
    ∀ s ∈ m.walk c actions, s.answer = none := by
  induction actions generalizing m c with
  | nil => exact fun s hs => by cases hs
  | cons action rest ih =>
    cases action with
    | next =>
      have hnext : c.next m.table = (none, ⟨some m.bucketCount, none⟩) :=
        Cursor.next_of_exhausted hp hb
      unfold walk
      rw [hnext]
      intro s hs
      rcases List.mem_cons.mp hs with rfl | hs
      · rfl
      · exact ih rfl (Nat.le_succ _) hsame s hs
    | request cond request =>
      have hcount := hsame _ (List.mem_cons_of_mem _ (mem_stages _ rest))
      refine ih hp (hcount ▸ hb) fun m' hm' => ?_
      exact (hsame m' (List.mem_cons_of_mem _ hm')).trans hcount.symm

/-- After an answer of none come no others. -/
theorem pairwise_walk (hm : m.Reachable)
    (hsame : ∀ m' ∈ m.stages actions, m'.bucketCount = m.bucketCount) :
    (m.walk c actions).Pairwise fun s s' => s.answer = none → s'.answer = none := by
  induction actions generalizing m c with
  | nil => exact List.Pairwise.nil
  | cons action rest ih =>
    cases action with
    | next =>
      refine List.pairwise_cons.mpr ⟨fun s hs ha => ?_, ih hm hsame⟩
      have hnext := (Cursor.vacant_of_next hm.wellFormed.linked ha).2
      have hrest : ∀ m' ∈ m.stages rest, m'.bucketCount = m.bucketCount := hsame
      rw [hnext] at hs
      exact walk_of_exhausted rfl (Nat.le_succ _) hrest s hs
    | request cond request =>
      have hcount := hsame _ (List.mem_cons_of_mem _ (mem_stages _ rest))
      refine ih (hm.responded cond request) fun m' hm' => ?_
      exact (hsame m' (List.mem_cons_of_mem _ hm')).trans hcount.symm

/-- A walk from the start, interleaved with requests that leave the number of buckets.
Each answer is what is stored at that moment under every key equal to its own. Where
the walk has come to an answer of none, each key that was in the map all the time has
been answered exactly once; and after it all answers are none. -/
theorem walk_interleaved (hk : ks.Lawful) (hm : m.Reachable) (actions : List (Action K V))
    (hsame : ∀ m' ∈ m.stages actions, m'.bucketCount = m.bucketCount) :
    (∀ s ∈ m.walk .start actions, ∀ kv, s.answer = some kv →
        ∀ key, ks.equals kv.1 key = true → s.map.getPair? key = some kv) ∧
      (∀ before behind, actions = before ++ .next :: behind →
        ((m.walked .start before).2.next (m.walked .start before).1.table).1 = none →
          ∀ key, (∀ m' ∈ m.stages before, m'.contains key = true) →
            (m.walk .start before).countP (·.yields key) = 1) ∧
      (m.walk .start actions).Pairwise fun s s' => s.answer = none → s'.answer = none := by
  refine ⟨fun s hs kv hkv key heq => ?_, ?_, pairwise_walk hm hsame⟩
  · obtain ⟨hreach, hpair⟩ := answer_of_mem_walk hm hs
    obtain ⟨q, hq⟩ := hpair kv hkv
    exact getPair?_eq_some hreach hk hq heq
  · rintro before behind rfl hnone key hstays
    have hprefix : ∀ m' ∈ m.stages before, m'.bucketCount = m.bucketCount :=
      fun m' hm' => hsame m' (stages_append_subset m before _ hm')
    have hone := countP_walk hm hk (Cursor.onTrack_start m.table) hprefix hstays hnone
    exact hone.1 (awaits_start hm hk (hstays m (mem_stages m before)))

/-- Ten buckets, three numbers in one of them and a fourth in another. -/
def strolled : Map (Keying.word : Keying UInt64) Nat :=
  (ofSizing Keying.word (Sizing.standard.withInitial 10)).after
    [({}, .put 0 1), ({}, .put 10 2), ({}, .put 20 3), ({}, .put 3 4)]

/-- A walk in the course of which a number is removed, one is put into its slot, one is
replaced and one stolen from ahead of the cursor. -/
def strolling : List (Action UInt64 Nat) :=
  [.next, .request {} (.remove 0), .request {} (.put 30 5), .request {} (.put 20 6), .next,
    .request {} (.steal 3), .request {} (.put 13 7), .next, .next]

/-- Twenty is answered once, with the value put meanwhile, and thirty, which came in
behind the cursor, is not answered. -/
theorem walk_interleaved_strolling :
    (strolled.walk .start strolling).map Stop.answer =
        [some (0, 1), some (10, 2), some (20, 6), some (13, 7)] ∧
      (strolled.walk .start strolling).countP (·.yields 20) = 1 := by
  refine ⟨by decide, ?_⟩
  have hm : strolled.Reachable := .after (.ofSizing _ _) _
  have hwalk := walk_interleaved (Keying.lawful_word UInt64) hm
    (strolling ++ .next :: [.request {} (.put 40 8), .next]) (by decide)
  exact hwalk.2.1 strolling _ rfl (by decide) 20 (by decide)

end Map

end Chaining
