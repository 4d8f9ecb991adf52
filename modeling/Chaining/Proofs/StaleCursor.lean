import Chaining.Proofs.Listing
import Chaining.Proofs.LiveCursor
import Chaining.Proofs.Load

/-!
# Cursors kept from elsewhere

A cursor is two numbers, and whatever they are, there is a walk from them over any map: the
map may have grown since or be another one, and the cursor may be a copy or past the end.
`Reachable.resumes` says which walk. From the pending slot it goes on to the end of the
chain that this slot is on now, be it the chain of a bucket before, at or behind the one
the cursor is in. A slot that the table does not have is dropped. Then all buckets come
that are behind the cursor's own. So a slot can be come to twice, but not more often.

`Cursor.next` goes along chains with a bound, and counts buckets without one. What it
stands for is a loop that looks at one slot at a time, with a bucket count of 64 bits that
stays at its largest value instead of going over: `Cursor.glance` is what a turn of the loop
does, and `Cursor.Advances` that the loop has ended. It ends with what `Cursor.next` answers
(`Cursor.advances_next`), for chains end, and no table has more than 2^64 - 1 buckets.
-/

namespace Chaining

open Table

universe u v

/-! ## How walks end -/

namespace Walk

variable {σ : Type u} {α : Type v} {next : σ → Option α × σ} {Ahead : σ → List α → Prop}
  (hstep : ∀ s xs, Ahead s xs → (next s).1 = xs.head? ∧ Ahead (next s).2 xs.tail)
  {last : σ} (hlast : ∀ s, Ahead s [] → (next s).2 = last)

include hstep hlast

/-- The question behind the last thing leads to the last state, and all further ones stay
there. -/
theorem take_snd {s : σ} {xs : List α} (h : Ahead s xs) {n : Nat} (hn : xs.length < n) :
    (take next n s).2 = last := by
  obtain ⟨n, rfl⟩ : ∃ k, n = k + 1 := ⟨n - 1, by omega⟩
  have hahead := ahead_take hstep h n
  rw [List.drop_of_length_le (Nat.le_of_lt_succ hn)] at hahead
  rw [take_succ]
  exact hlast _ hahead

theorem drain_snd {s : σ} {xs : List α} (h : Ahead s xs) {bound : Nat}
    (hb : xs.length < bound) : (drain next bound s).2 = last := by
  have hgo : ∀ (given : Array α) (bound : Nat) (s : σ), Ahead s xs → xs.length < bound →
      (drainAfter next given bound s).2 = last := by
    clear h hb
    -- each question takes the head off the list, and the bound leaves one for the empty list
    induction xs with
    | nil =>
      intro given bound s h hb
      obtain ⟨bound, rfl⟩ : ∃ k, bound = k + 1 := ⟨bound - 1, by simp at hb; omega⟩
      have hanswer := (hstep s [] h).1
      have hstate := hlast s h
      unfold drainAfter
      split
      next s' hn => rwa [hn] at hstate
      next a s' hn =>
        rw [hn] at hanswer
        cases hanswer
    | cons x xs ih =>
      intro given bound s h hb
      obtain ⟨bound, rfl⟩ : ∃ k, bound = k + 1 := ⟨bound - 1, by simp at hb; omega⟩
      obtain ⟨hanswer, htail⟩ := hstep s (x :: xs) h
      unfold drainAfter
      split
      next s' hn =>
        rw [hn] at hanswer
        cases hanswer
      next a s' hn =>
        rw [hn] at htail
        exact ih (given.push a) bound s' htail (by simpa using hb)
  exact hgo #[] bound s h hb

end Walk

variable {K : Type u} {V : Type v} {ks : Keying K} {t : Table K V}

/-! ## The loop behind a step -/

namespace Cursor

/-- What a turn of the loop comes to. -/
inductive Glance (K : Type u) (V : Type v) where
  /-- There was no pair; the loop goes on. -/
  | passed (c : Cursor)
  | found (kv : K × V) (c : Cursor)
  /-- There was no bucket left. -/
  | ended (c : Cursor)

/-- The bucket behind the cursor's, by a count of 64 bits that stays at its largest value. -/
def saturatedBucket (c : Cursor) : Nat :=
  min c.nextBucket (UInt64.size - 1)

/-- A look at one slot, which the table need not have. -/
def glanceAt (t : Table K V) (bucket : Option Nat) (p : Pos) : Glance K V :=
  match t.slot? p with
  | none => .passed ⟨bucket, none⟩
  | some s =>
    match s.pair with
    | none => .passed ⟨bucket, s.next⟩
    | some kv => .found kv ⟨bucket, s.next⟩

/-- One turn of the loop: a look at the pending slot, or else at the next head. -/
def glance (c : Cursor) (t : Table K V) : Glance K V :=
  match c.pending with
  | some i => glanceAt t c.bucket (.extension i)
  | none =>
    if t.bucketCount ≤ c.saturatedBucket then .ended ⟨some t.bucketCount, none⟩
    else glanceAt t (some c.saturatedBucket) (.head c.saturatedBucket)

/-- The loop ends with that answer and leaves that cursor. -/
inductive Advances (t : Table K V) : Cursor → Option (K × V) → Cursor → Prop where
  | ended {c c' : Cursor} : c.glance t = .ended c' → Advances t c none c'
  | found {c c' : Cursor} {kv : K × V} : c.glance t = .found kv c' → Advances t c (some kv) c'
  | passed {c c' left : Cursor} {answer : Option (K × V)} : c.glance t = .passed c' →
      Advances t c' answer left → Advances t c answer left

variable {c : Cursor} {bucket : Option Nat}

theorem glanceAt_eq {p : Pos} (hp : t.Has p) :
    glanceAt t bucket p =
      match t.pair? p with
      | none => .passed ⟨bucket, t.next? p⟩
      | some kv => .found kv ⟨bucket, t.next? p⟩ := by
  obtain ⟨s, hs⟩ := Option.isSome_iff_exists.mp hp
  unfold glanceAt pair? next?
  rw [hs]
  rfl

/-- A loop that has come to a position goes along the chain from there, up to its first
pair, or past its end. -/
theorem advances_firstFrom {p : Pos} {ps : List Pos} (h : t.Path p ps) {bound : Nat}
    (hb : ps.length ≤ bound) (hc : c.glance t = glanceAt t bucket p) :
    match t.firstFrom bound p with
    | some (kv, next) => Advances t c (some kv) ⟨bucket, next⟩
    | none => ∀ answer left, Advances t ⟨bucket, none⟩ answer left →
      Advances t c answer left := by
  -- along the walk, of which a turn of the loop sees one slot
  induction h generalizing bound c with
  | @last p hp hn =>
    obtain ⟨bound, rfl⟩ : ∃ n, bound = n + 1 := ⟨bound - 1, by simp at hb; omega⟩
    rw [glanceAt_eq hp, hn] at hc
    unfold Table.firstFrom
    rw [hn]
    cases hpair : t.pair? p with
    | none =>
      rw [hpair] at hc
      exact fun _ _ => .passed hc
    | some kv =>
      rw [hpair] at hc
      exact .found hc
  | @step p i ps hn hr ih =>
    obtain ⟨bound, rfl⟩ : ∃ n, bound = n + 1 := ⟨bound - 1, by simp at hb; omega⟩
    have hrest := @ih ⟨bucket, some i⟩ bound (by simpa using hb) rfl
    rw [glanceAt_eq (has_of_next? hn), hn] at hc
    unfold Table.firstFrom
    rw [hn]
    cases hpair : t.pair? p with
    | none =>
      rw [hpair] at hc
      dsimp only
      cases hf : t.firstFrom bound (.extension i) with
      | none =>
        rw [hf] at hrest
        exact fun answer left h => .passed hc (hrest answer left h)
      | some found =>
        rw [hf] at hrest
        exact .passed hc hrest
    | some kv =>
      rw [hpair] at hc
      exact .found hc

theorem glance_of_le (hp : c.pending = none) (hlt : t.bucketCount < UInt64.size)
    (hb : t.bucketCount ≤ c.nextBucket) : c.glance t = .ended ⟨some t.bucketCount, none⟩ := by
  have hsat : t.bucketCount ≤ c.saturatedBucket := by
    unfold saturatedBucket
    omega
  unfold glance
  rw [hp]
  exact if_pos hsat

theorem glance_of_lt (hp : c.pending = none) (hlt : t.bucketCount < UInt64.size)
    (hb : c.nextBucket < t.bucketCount) :
    c.glance t = glanceAt t (some c.nextBucket) (.head c.nextBucket) := by
  -- a bucket that there is has a number below the largest
  have hsat : c.saturatedBucket = c.nextBucket := by
    unfold saturatedBucket
    omega
  unfold glance
  rw [hp, hsat]
  exact if_neg (Nat.not_le.mpr hb)

/-- With nothing pending the loop goes from bucket to bucket. -/
theorem advances_firstInBuckets (hl : t.Linked) (hlt : t.bucketCount < UInt64.size)
    (hp : c.pending = none) {n : Nat} (hn : c.nextBucket + n = t.bucketCount) :
    match t.firstInBuckets n c.nextBucket with
    | some (kv, c') => Advances t c (some kv) c'
    | none => Advances t c none ⟨some t.bucketCount, none⟩ := by
  induction n generalizing c with
  | zero => exact .ended (glance_of_le hp hlt (by omega))
  | succ n ih =>
    have hb : c.nextBucket < t.bucketCount := by omega
    have hchain := advances_firstFrom (hl.path_chain hb) (length_chainFrom_le t _ _)
      (glance_of_lt hp hlt hb)
    have hnext : nextBucket ⟨some c.nextBucket, none⟩ = c.nextBucket + 1 := rfl
    have hrest := @ih ⟨some c.nextBucket, none⟩ rfl (by omega)
    rw [hnext] at hrest
    unfold Table.firstInBuckets
    cases hf : t.firstFrom (t.arena.size + 1) (.head c.nextBucket) with
    | some found =>
      rw [hf] at hchain
      exact hchain
    | none =>
      rw [hf] at hchain
      dsimp only at hchain ⊢
      cases hi : t.firstInBuckets n (c.nextBucket + 1) with
      | none => exact hchain _ _ (by rwa [hi] at hrest)
      | some found => exact hchain _ _ (by rwa [hi] at hrest)

theorem advances_nextHead (hl : t.Linked) (hlt : t.bucketCount < UInt64.size)
    (hp : c.pending = none) : Advances t c (c.nextHead t).1 (c.nextHead t).2 := by
  unfold nextHead
  by_cases hb : c.nextBucket ≤ t.bucketCount
  · have hbuckets := advances_firstInBuckets hl hlt hp
      (n := t.bucketCount - c.nextBucket) (by omega)
    cases hf : t.firstInBuckets (t.bucketCount - c.nextBucket) c.nextBucket with
    | none => rwa [hf] at hbuckets
    | some found => rwa [hf] at hbuckets
  · rw [Nat.sub_eq_zero_of_le (Nat.le_of_not_le hb)]
    exact .ended (glance_of_le hp hlt (Nat.le_of_not_le hb))

/-- The loop ends, and with what a step answers. -/
theorem advances_next (hl : t.Linked) (hlt : t.bucketCount < UInt64.size) (c : Cursor) :
    Advances t c (c.next t).1 (c.next t).2 := by
  unfold next
  cases hp : c.pending with
  | none => exact advances_nextHead hl hlt hp
  | some i =>
    have hlook : c.glance t = glanceAt t c.bucket (.extension i) := by
      unfold glance
      rw [hp]
    have hhead : Advances t ⟨c.bucket, none⟩ (c.nextHead t).1 (c.nextHead t).2 :=
      advances_nextHead hl hlt rfl
    dsimp only
    by_cases hi : i < t.arena.size
    · obtain ⟨ps, hps, hlen⟩ := hl.exists_path (has_extension.mpr hi)
      have hchain := advances_firstFrom hps hlen hlook
      cases hf : t.firstFrom (t.arena.size + 1) (.extension i) with
      | none =>
        rw [hf] at hchain
        exact hchain _ _ hhead
      | some found =>
        rw [hf] at hchain
        exact hchain
    · -- the missing slot is dropped, and with it what was pending
      have hs : t.slot? (.extension i) = none := by simpa [slot?] using hi
      have hf : t.firstFrom (t.arena.size + 1) (.extension i) = none := by
        simp [firstFrom, pair?, next?, hs]
      rw [hf]
      refine .passed ?_ hhead
      rw [hlook, glanceAt, hs]

end Cursor

/-! ## What is pending -/

namespace Table

/-- What is left of a chain for a walk with that slot pending. -/
inductive Pending (t : Table K V) : Option Nat → List Pos → Prop where
  | nothing : Pending t none []
  /-- A slot that the table does not have. -/
  | missing {i : Nat} : t.arena.size ≤ i → Pending t (some i) []
  /-- From the slot on, the chain that it is on. -/
  | along {i b : Nat} {front ps : List Pos} : b < t.bucketCount → t.chain b = front ++ ps →
      t.Path (.extension i) ps → Pending t (some i) ps

theorem Linked.exists_pending (hl : t.Linked) (pending : Option Nat) :
    ∃ ps, t.Pending pending ps := by
  cases pending with
  | none => exact ⟨[], .nothing⟩
  | some i =>
    by_cases hi : i < t.arena.size
    · obtain ⟨b, hb, hmem⟩ := hl.exists_chain (has_extension.mpr hi)
      obtain ⟨front, ps, hs, hps⟩ := (hl.path_chain hb).exists_of_mem hmem
      exact ⟨ps, .along hb hs hps⟩
    · exact ⟨[], .missing (Nat.le_of_not_lt hi)⟩

namespace Pending

variable {pending : Option Nat} {ps : List Pos}

theorem pairsFrom_eq (h : t.Pending pending ps) (hl : t.Linked) :
    t.pairsFrom pending = ps.filterMap t.pair? := by
  cases h with
  | nothing => rfl
  | @missing i hi =>
    have hs : t.slot? (.extension i) = none := by simpa [slot?] using hi
    simp [pairsFrom, chainFrom, pair?, next?, hs]
  | along _ _ hps => rw [t.pairsFrom_eq, hps.placesFrom_eq hl]

theorem nodup (h : t.Pending pending ps) (hl : t.Linked) : ps.Nodup := by
  cases h with
  | nothing => exact List.nodup_nil
  | missing _ => exact List.nodup_nil
  | along _ _ hps => exact hps.nodup hl

/-- They are extension slots of one chain. -/
theorem exists_sublist_tail (h : t.Pending pending ps) (hpos : 0 < t.bucketCount) :
    ∃ b, b < t.bucketCount ∧ ps.Sublist (t.chain b).tail := by
  cases h with
  | nothing => exact ⟨0, hpos, List.nil_sublist _⟩
  | missing _ => exact ⟨0, hpos, List.nil_sublist _⟩
  | @along i b front ps hb hs hps =>
    refine ⟨b, hb, ?_⟩
    have hhead : t.chain b = .head b :: (t.chain b).tail := rfl
    cases front with
    | nil =>
      -- a walk from an extension slot does not start with a head
      rw [List.nil_append] at hs
      rw [hs] at hhead
      cases hps <;> cases hhead
    | cons p front =>
      rw [hs]
      exact List.sublist_append_right front ps

end Pending

end Table

namespace Map

variable {m : Map ks V}

/-- What a walk from a cursor comes to, with those slots of a chain pending: first the pairs
there, then those of the buckets behind the cursor's. -/
def resumed (m : Map ks V) (c : Cursor) (ps : List Pos) : List (K × V) :=
  ps.filterMap m.table.pair? ++ m.table.pairsBehind c.nextBucket

/-- The walk over the map from a cursor, with those slots of a chain pending. -/
structure Resumes (m : Map ks V) (c : Cursor) (ps : List Pos) : Prop where
  pending : m.table.Pending c.pending ps
  /-- Each question is answered after looks at finitely many slots. -/
  advances : c.Advances m.table (c.next m.table).1 (c.next m.table).2
  lists : Walk.Lists (fun c => Cursor.next c m.table) c (m.resumed c ps)
  /-- The first answer of none leaves the cursor past the last bucket, for good. -/
  exhausted : ∀ n, (m.resumed c ps).length < n →
    (Walk.take (fun c => Cursor.next c m.table) n c).2 = ⟨some m.bucketCount, none⟩
  drained : (c.drain m.table).1.toList = m.resumed c ps
  drained_exhausted : (c.drain m.table).2 = ⟨some m.bucketCount, none⟩
  /-- No slot is come to more often than twice. -/
  count_le : ∀ p, (ps ++ m.table.placesBehind c.nextBucket).count p ≤ 2
  /-- There are no more answers than pairs in the map, and in the extension slots of one
  chain. -/
  length_le : ∃ b, b < m.bucketCount ∧
    (m.resumed c ps).length ≤ m.len + ((m.table.chain b).tail.filterMap m.table.pair?).length

section Resumed

variable {c : Cursor} {ps : List Pos}

theorem ahead_eq_resumed (hl : m.table.Linked) (hps : m.table.Pending c.pending ps) :
    c.ahead m.table = m.resumed c ps := by
  rw [Cursor.ahead, hps.pairsFrom_eq hl]
  rfl

theorem length_resumed_le (hw : m.table.WellFormed ks) (hps : m.table.Pending c.pending ps) :
    ∃ b, b < m.bucketCount ∧ (m.resumed c ps).length ≤
      m.len + ((m.table.chain b).tail.filterMap m.table.pair?).length := by
  obtain ⟨b, hb, hsub⟩ := hps.exists_sublist_tail hw.bucketCount_pos
  have hchain := (hsub.filterMap m.table.pair?).length_le
  have hbehind := m.table.length_pairsBehind_le c.nextBucket
  have hpairs : m.len = m.table.pairs.length := hw.len_eq
  refine ⟨b, hb, ?_⟩
  rw [resumed, List.length_append]
  omega

/-- The bound of a drain leaves a question for the answer of none. -/
theorem length_resumed_lt (hw : m.table.WellFormed ks) (hps : m.table.Pending c.pending ps) :
    (m.resumed c ps).length < Cursor.stepBound m.table := by
  obtain ⟨b, _, hlen⟩ := length_resumed_le hw hps
  have hchain : (m.table.chain b).length ≤ m.table.arena.size + 1 := length_chainFrom_le _ _ _
  have htail : ((m.table.chain b).tail.filterMap m.table.pair?).length ≤
      (m.table.chain b).tail.length := List.length_filterMap_le _ _
  have hpairs : m.len ≤ m.table.bucketCount + m.table.arena.size := by
    have hlen : m.len = m.table.pairs.length := hw.len_eq
    rw [hlen, ← hw.linked.length_positions]
    exact List.length_filterMap_le _ _
  rw [List.length_tail] at htail
  unfold Cursor.stepBound
  omega

end Resumed

/-- From any cursor there is a walk over any map that there can be. -/
theorem Reachable.resumes (hm : m.Reachable) (c : Cursor) : ∃ ps, m.Resumes c ps := by
  have hw := hm.wellFormed
  have hl := hw.linked
  obtain ⟨ps, hps⟩ := hl.exists_pending c.pending
  have hahead := ahead_eq_resumed hl hps
  have hstep := Cursor.next_of_ahead hl
  have hlast : ∀ c : Cursor, c.ahead m.table = [] →
      (c.next m.table).2 = ⟨some m.bucketCount, none⟩ := by
    intro c h
    have hnone : (c.next m.table).1 = none := (c.next_of_ahead hl [] h).1
    exact (c.vacant_of_next hl hnone).2
  exact ⟨ps, {
    pending := hps
    advances := c.advances_next hl hm.loaded.bucketCount_lt
    lists := Walk.lists hstep hahead
    exhausted := fun n hn => Walk.take_snd hstep hlast hahead hn
    drained := (c.drain_toList hl).trans hahead
    drained_exhausted := Walk.drain_snd hstep hlast hahead (length_resumed_lt hw hps)
    count_le := by
      intro p
      have hpending := List.nodup_iff_count_le_one.mp (hps.nodup hl) p
      have hbehind := List.nodup_iff_count_le_one.mp (hl.nodup_placesBehind c.nextBucket) p
      rw [List.count_append]
      omega
    length_le := length_resumed_le hw hps }⟩

/-- One chain of three in five buckets. -/
def crossed : Map (Keying.word (K := UInt64)) Nat :=
  (ofSizing Keying.word (Sizing.standard.withInitial 5)).after
    [({}, .put 1 0), ({}, .put 6 1), ({}, .put 11 2)]

/-- A cursor that is in the bucket before, with the end of that chain pending, comes to the
last pair twice. -/
theorem Reachable.resumes_crossed :
    (∃ ps, crossed.Resumes ⟨some 0, some 1⟩ ps) ∧
      (Cursor.drain ⟨some 0, some 1⟩ crossed.table).1.toList =
        [(11, 2), (1, 0), (6, 1), (11, 2)] := by
  have hm : crossed.Reachable := .after (.ofSizing _ _) _
  exact ⟨hm.resumes ⟨some 0, some 1⟩, by decide⟩

end Map

end Chaining
