import Chaining.Cursor
import Chaining.Map
import Chaining.Proofs.Table.WellFormed

/-!
# Traversals list the pairs of a table

What a cursor still has ahead of it are positions, `Cursor.places`: the rest of the
chain it is on and the buckets behind. Each step passes over vacant ones up to the
first pair, answers with it and leaves the positions behind it (`Cursor.next_places`);
this holds of every cursor, also of one whose extension slot the table does not have.
So to walk on until there is no answer lists the pairs ahead (`Cursor.drain_toList`),
and from the start that is `Table.pairs`.
-/

namespace Chaining

universe u v

/-- A walk whose answers come off a list, one with each question, lists it. -/
theorem Walk.drain_toList {σ : Type u} {α : Type v} {next : σ → Option α × σ}
    (ahead : σ → List α)
    (hnone : ∀ s s', next s = (none, s') → ahead s = [])
    (hsome : ∀ s s' a, next s = (some a, s') → ahead s = a :: ahead s')
    {bound : Nat} {s : σ} (hb : (ahead s).length ≤ bound) :
    (Walk.drain next bound s).1.toList = ahead s := by
  have hgo : ∀ (given : Array α) (bound : Nat) (s : σ), (ahead s).length ≤ bound →
      (Walk.drainAfter next given bound s).1.toList = given.toList ++ ahead s := by
    intro given bound
    induction bound generalizing given with
    | zero =>
      intro s hb
      rw [List.eq_nil_of_length_eq_zero (Nat.le_zero.mp hb), List.append_nil]
      rfl
    | succ bound ih =>
      intro s hb
      unfold Walk.drainAfter
      split
      next s' h => rw [hnone s s' h, List.append_nil]
      next a s' h =>
        have hs := hsome s s' a h
        rw [hs] at hb ⊢
        rw [ih (given.push a) s' (Nat.le_of_succ_le_succ hb)]
        simp
  exact (hgo #[] bound s hb).trans (List.nil_append _)

namespace Table

variable {K : Type u} {V : Type v} {t : Table K V}

/-- The pairs from an extension slot on, along its chain. -/
def pairsFrom (t : Table K V) : Option Nat → List (K × V)
  | none => []
  | some i => (t.chainFrom (t.arena.size + 1) (.extension i)).filterMap t.pair?

theorem length_pairsBehind_le (t : Table K V) (b : Nat) :
    (t.pairsBehind b).length ≤ t.pairs.length := by
  by_cases hb : b ≤ t.bucketCount
  · induction b with
    | zero => exact Nat.le_of_eq (congrArg List.length t.pairsBehind_zero)
    | succ b ih =>
      have ih := ih (Nat.le_of_succ_le hb)
      rw [pairsBehind_of_lt hb, List.length_append] at ih
      omega
  · rw [pairsBehind_of_le (Nat.le_of_not_le hb)]
    exact Nat.zero_le _

/-- The positions from an extension slot on, along its chain. -/
def placesFrom (t : Table K V) : Option Nat → List Pos
  | none => []
  | some i => t.chainFrom (t.arena.size + 1) (.extension i)

/-- The positions of the buckets from one on. -/
def placesBehind (t : Table K V) (b : Nat) : List Pos :=
  (List.range' b (t.bucketCount - b)).flatMap t.chain

theorem pairsFrom_eq (t : Table K V) (next : Option Nat) :
    t.pairsFrom next = (t.placesFrom next).filterMap t.pair? := by
  cases next <;> rfl

theorem pairsBehind_eq (t : Table K V) (b : Nat) :
    t.pairsBehind b = (t.placesBehind b).filterMap t.pair? := by
  unfold placesBehind
  rw [List.filterMap_flatMap]
  rfl

theorem placesBehind_of_lt {b : Nat} (hb : b < t.bucketCount) :
    t.placesBehind b = t.chain b ++ t.placesBehind (b + 1) := by
  unfold placesBehind
  obtain ⟨n, hn⟩ : ∃ n, t.bucketCount - b = n + 1 := ⟨t.bucketCount - b - 1, by omega⟩
  have hn' : t.bucketCount - (b + 1) = n := by omega
  rw [hn, hn', List.range'_succ, List.flatMap_cons]

theorem placesBehind_of_le {b : Nat} (hb : t.bucketCount ≤ b) : t.placesBehind b = [] := by
  unfold placesBehind
  rw [Nat.sub_eq_zero_of_le hb]
  rfl

theorem placesBehind_zero (t : Table K V) : t.placesBehind 0 = t.positions := by
  unfold positions
  rw [List.range_eq_range']
  rfl

/-- A walk is the one that `chainFrom` takes with the bound of a chain. -/
theorem Path.placesFrom_eq (hl : t.Linked) {i : Nat} {ps : List Pos}
    (h : t.Path (.extension i) ps) : t.placesFrom (some i) = ps := by
  obtain ⟨qs, hqs, hlen⟩ := hl.exists_path (h.has (h.mem_iff.mpr (Or.inl rfl)))
  show t.chainFrom (t.arena.size + 1) (.extension i) = _
  rw [hqs.chainFrom_eq hlen, hqs.eq_of_path h]

/-- Along some positions the first pair is that one, and those are the positions behind
it. -/
def First (t : Table K V) (ps : List Pos) (kv : K × V) (rest : List Pos) : Prop :=
  ∃ skipped q, ps = skipped ++ q :: rest ∧ (∀ p ∈ skipped, t.pair? p = none) ∧
    t.pair? q = some kv

theorem First.cons {ps rest : List Pos} {kv : K × V} (h : t.First ps kv rest) {p : Pos}
    (hp : t.pair? p = none) : t.First (p :: ps) kv rest := by
  obtain ⟨skipped, q, rfl, hskipped, hq⟩ := h
  exact ⟨p :: skipped, q, rfl, List.forall_mem_cons.mpr ⟨hp, hskipped⟩, hq⟩

theorem First.append {ps rest : List Pos} {kv : K × V} (h : t.First ps kv rest)
    (qs : List Pos) : t.First (ps ++ qs) kv (rest ++ qs) := by
  obtain ⟨skipped, q, rfl, hskipped, hq⟩ := h
  exact ⟨skipped, q, by simp, hskipped, hq⟩

theorem First.append_left {ps rest : List Pos} {kv : K × V} (h : t.First ps kv rest)
    {qs : List Pos} (hqs : ∀ p ∈ qs, t.pair? p = none) : t.First (qs ++ ps) kv rest := by
  induction qs with
  | nil => exact h
  | cons q qs ih =>
    obtain ⟨hq, hqs⟩ := List.forall_mem_cons.mp hqs
    exact (ih hqs).cons hq

theorem First.filterMap_eq {ps rest : List Pos} {kv : K × V} (h : t.First ps kv rest) :
    ps.filterMap t.pair? = kv :: rest.filterMap t.pair? := by
  obtain ⟨skipped, q, rfl, hskipped, hq⟩ := h
  rw [List.filterMap_append, List.filterMap_eq_nil_iff.mpr hskipped, List.filterMap_cons, hq]
  rfl

/-- The first pair from a position on is the first of the walk from there. -/
theorem Path.firstFrom (hl : t.Linked) {p : Pos} {ps : List Pos} (h : t.Path p ps)
    {bound : Nat} (hb : ps.length ≤ bound) :
    match t.firstFrom bound p with
    | none => ∀ q ∈ ps, t.pair? q = none
    | some (kv, next) => t.First ps kv (t.placesFrom next) := by
  induction h generalizing bound with
  | @last p _ hn =>
    obtain ⟨bound, rfl⟩ : ∃ n, bound = n + 1 := ⟨bound - 1, by simp at hb; omega⟩
    unfold Table.firstFrom
    rw [hn]
    cases hp : t.pair? p with
    | none => simpa using hp
    | some kv => exact ⟨[], p, rfl, by simp, hp⟩
  | @step p i ps hn hr ih =>
    obtain ⟨bound, rfl⟩ : ∃ n, bound = n + 1 := ⟨bound - 1, by simp at hb; omega⟩
    have hrest := @ih bound (by simpa using hb)
    unfold Table.firstFrom
    rw [hn]
    cases hp : t.pair? p with
    | none =>
      dsimp only
      cases hf : t.firstFrom bound (.extension i) with
      | none =>
        rw [hf] at hrest
        exact List.forall_mem_cons.mpr ⟨hp, hrest⟩
      | some found =>
        rw [hf] at hrest
        exact hrest.cons hp
    | some kv => exact ⟨[], p, by rw [hr.placesFrom_eq hl]; rfl, by simp, hp⟩

theorem Path.firstFrom_congr {p : Pos} {ps : List Pos} (h : t.Path p ps) {bound bound' : Nat}
    (hb : ps.length ≤ bound) (hb' : ps.length ≤ bound') :
    t.firstFrom bound p = t.firstFrom bound' p := by
  induction h generalizing bound bound' with
  | @last p _ hn =>
    obtain ⟨n, rfl⟩ : ∃ n, bound = n + 1 := ⟨bound - 1, by simp at hb; omega⟩
    obtain ⟨n', rfl⟩ : ∃ n, bound' = n + 1 := ⟨bound' - 1, by simp at hb'; omega⟩
    unfold Table.firstFrom
    rw [hn]
    cases t.pair? p <;> rfl
  | @step p i ps hn _ ih =>
    obtain ⟨n, rfl⟩ : ∃ n, bound = n + 1 := ⟨bound - 1, by simp at hb; omega⟩
    obtain ⟨n', rfl⟩ : ∃ n, bound' = n + 1 := ⟨bound' - 1, by simp at hb'; omega⟩
    unfold Table.firstFrom
    rw [hn]
    cases t.pair? p with
    | none => exact ih (by simpa using hb) (by simpa using hb')
    | some kv => rfl

theorem exists_next_of_firstFrom {bound : Nat} {p : Pos} {kv : K × V} {next : Option Nat}
    (h : t.firstFrom bound p = some (kv, next)) :
    ∃ q, t.pair? q = some kv ∧ t.next? q = next := by
  induction bound generalizing p with
  | zero => cases h
  | succ bound ih =>
    unfold firstFrom at h
    split at h
    next pair _ hp =>
      cases h
      exact ⟨p, hp, rfl⟩
    next => exact ih h
    next => cases h

theorem exists_next_of_firstInBuckets {n b : Nat} {kv : K × V} {c : Cursor}
    (h : t.firstInBuckets n b = some (kv, c)) :
    ∃ q, t.pair? q = some kv ∧ t.next? q = c.pending := by
  induction n generalizing b with
  | zero => cases h
  | succ n ih =>
    unfold firstInBuckets at h
    split at h
    next hf =>
      cases h
      exact exists_next_of_firstFrom hf
    next => exact ih h

theorem Linked.firstFrom_head (hl : t.Linked) {b : Nat} (hb : b < t.bucketCount) :
    match t.firstFrom (t.arena.size + 1) (.head b) with
    | none => ∀ p ∈ t.chain b, t.pair? p = none
    | some (kv, next) => t.First (t.chain b) kv (t.placesFrom next) :=
  (hl.path_chain hb).firstFrom hl (length_chainFrom_le t _ _)

/-- The first pair from an extension slot on, which the table need not have. -/
theorem Linked.firstFrom_extension (hl : t.Linked) (i : Nat) :
    match t.firstFrom (t.arena.size + 1) (.extension i) with
    | none => ∀ p ∈ t.placesFrom (some i), t.pair? p = none
    | some (kv, next) => t.First (t.placesFrom (some i)) kv (t.placesFrom next) := by
  by_cases hi : i < t.arena.size
  · obtain ⟨ps, hps, hlen⟩ := hl.exists_path (has_extension.mpr hi)
    rw [hps.placesFrom_eq hl]
    exact hps.firstFrom hl hlen
  · -- a missing slot holds nothing and links nowhere
    have hs : t.slot? (.extension i) = none := by simpa [slot?] using hi
    have hp : t.pair? (.extension i) = none := by rw [pair?, hs, Option.bind_none]
    have hn : t.next? (.extension i) = none := by rw [next?, hs, Option.bind_none]
    unfold firstFrom placesFrom
    dsimp only
    unfold chainFrom
    rw [hp, hn]
    simpa using hp

/-- The first pair of some buckets in a row, up to the last one. -/
theorem Linked.firstInBuckets (hl : t.Linked) (n b : Nat) (hn : b + n = t.bucketCount) :
    match t.firstInBuckets n b with
    | none => ∀ p ∈ t.placesBehind b, t.pair? p = none
    | some (kv, c) =>
      t.First (t.placesBehind b) kv (t.placesFrom c.pending ++ t.placesBehind c.nextBucket) := by
  induction n generalizing b with
  | zero =>
    show ∀ p ∈ t.placesBehind b, t.pair? p = none
    rw [placesBehind_of_le (by omega)]
    simp
  | succ n ih =>
    have hb : b < t.bucketCount := by omega
    have hfirst := hl.firstFrom_head hb
    have hrest := ih (b + 1) (by omega)
    unfold Table.firstInBuckets
    rw [placesBehind_of_lt hb]
    cases hf : t.firstFrom (t.arena.size + 1) (.head b) with
    | some found =>
      rw [hf] at hfirst
      exact hfirst.append _
    | none =>
      rw [hf] at hfirst
      dsimp only at hfirst ⊢
      cases hi : t.firstInBuckets n (b + 1) with
      | none =>
        rw [hi] at hrest
        exact List.forall_mem_append.mpr ⟨hfirst, hrest⟩
      | some found =>
        rw [hi] at hrest
        exact hrest.append_left hfirst

end Table

namespace Cursor

variable {K : Type u} {V : Type v} {t : Table K V}

/-- The pairs that a cursor has not passed. -/
def ahead (t : Table K V) (c : Cursor) : List (K × V) :=
  t.pairsFrom c.pending ++ t.pairsBehind c.nextBucket

theorem ahead_start (t : Table K V) : start.ahead t = t.pairs :=
  t.pairsBehind_zero

/-- The positions that a cursor has not passed. -/
def places (t : Table K V) (c : Cursor) : List Pos :=
  t.placesFrom c.pending ++ t.placesBehind c.nextBucket

theorem places_start (t : Table K V) : start.places t = t.positions :=
  t.placesBehind_zero

theorem ahead_eq (t : Table K V) (c : Cursor) :
    c.ahead t = (c.places t).filterMap t.pair? := by
  rw [ahead, places, List.filterMap_append, Table.pairsFrom_eq, Table.pairsBehind_eq]

/-- A cursor past the last bucket, with no slot pending, has passed everything. -/
theorem places_exhausted (t : Table K V) : places t ⟨some t.bucketCount, none⟩ = [] :=
  Table.placesBehind_of_le (Nat.le_succ _)

theorem nextHead_places (hl : t.Linked) (c : Cursor) :
    match c.nextHead t with
    | (none, c') => (∀ p ∈ t.placesBehind c.nextBucket, t.pair? p = none) ∧
      c' = ⟨some t.bucketCount, none⟩
    | (some kv, c') => t.First (t.placesBehind c.nextBucket) kv (c'.places t) := by
  unfold nextHead
  by_cases hb : c.nextBucket ≤ t.bucketCount
  · have hfirst := hl.firstInBuckets (t.bucketCount - c.nextBucket) c.nextBucket (by omega)
    cases hf : t.firstInBuckets (t.bucketCount - c.nextBucket) c.nextBucket with
    | none =>
      rw [hf] at hfirst
      exact ⟨hfirst, rfl⟩
    | some found => rwa [hf] at hfirst
  · rw [Nat.sub_eq_zero_of_le (Nat.le_of_not_le hb)]
    refine ⟨fun p hp => ?_, rfl⟩
    rw [Table.placesBehind_of_le (Nat.le_of_not_le hb)] at hp
    cases hp

/-- A step answers with the first pair on the positions ahead and leaves those behind
it; if they are all vacant, it leaves the cursor past the last bucket. -/
theorem next_places (hl : t.Linked) (c : Cursor) :
    match c.next t with
    | (none, c') => (∀ p ∈ c.places t, t.pair? p = none) ∧ c' = ⟨some t.bucketCount, none⟩
    | (some kv, c') => t.First (c.places t) kv (c'.places t) := by
  have hhead := nextHead_places hl c
  unfold next places
  cases hp : c.pending with
  | none => exact hhead
  | some i =>
    have hfirst := hl.firstFrom_extension i
    dsimp only
    cases hf : t.firstFrom (t.arena.size + 1) (.extension i) with
    | some found =>
      rw [hf] at hfirst
      exact hfirst.append _
    | none =>
      rw [hf] at hfirst
      dsimp only at hfirst ⊢
      cases hh : c.nextHead t with
      | mk answer c' =>
        rw [hh] at hhead
        cases answer with
        | none => exact ⟨List.forall_mem_append.mpr ⟨hfirst, hhead.1⟩, hhead.2⟩
        | some kv => exact hhead.append_left hfirst

theorem vacant_of_next (hl : t.Linked) {c : Cursor} (h : (c.next t).1 = none) :
    (∀ p ∈ c.places t, t.pair? p = none) ∧ (c.next t).2 = ⟨some t.bucketCount, none⟩ := by
  have hplaces := next_places hl c
  cases hn : c.next t with
  | mk answer c' =>
    rw [hn] at h hplaces
    obtain rfl : answer = none := h
    exact hplaces

theorem first_of_next (hl : t.Linked) {c : Cursor} {kv : K × V} (h : (c.next t).1 = some kv) :
    t.First (c.places t) kv ((c.next t).2.places t) := by
  have hplaces := next_places hl c
  cases hn : c.next t with
  | mk answer c' =>
    rw [hn] at h hplaces
    obtain rfl : answer = some kv := h
    exact hplaces

/-- A step answers with the first of the pairs ahead and leaves the others. -/
theorem next_ahead (hl : t.Linked) (c : Cursor) :
    match c.next t with
    | (none, _) => c.ahead t = []
    | (some kv, c') => c.ahead t = kv :: c'.ahead t := by
  have hplaces := next_places hl c
  rw [ahead_eq]
  cases hn : c.next t with
  | mk answer c' =>
    rw [hn] at hplaces
    cases answer with
    | none => exact List.filterMap_eq_nil_iff.mpr hplaces.1
    | some kv =>
      show _ = kv :: c'.ahead t
      rw [ahead_eq]
      exact hplaces.filterMap_eq

/-- Behind a pair the cursor is before the slot that the pair's slot links to. -/
theorem exists_next_of_next {c c' : Cursor} {kv : K × V} (h : c.next t = (some kv, c')) :
    ∃ q, t.pair? q = some kv ∧ t.next? q = c'.pending := by
  have hhead : ∀ c' kv, c.nextHead t = (some kv, c') →
      ∃ q, t.pair? q = some kv ∧ t.next? q = c'.pending := by
    intro c' kv h
    unfold nextHead at h
    split at h
    next hf =>
      cases h
      exact Table.exists_next_of_firstInBuckets hf
    next => cases h
  unfold next at h
  split at h
  next => exact hhead c' kv h
  next =>
    split at h
    next hf =>
      cases h
      exact Table.exists_next_of_firstFrom hf
    next => exact hhead c' kv h

theorem length_ahead_le (hl : t.Linked) (c : Cursor) : (c.ahead t).length ≤ stepBound t := by
  have hfrom : (t.pairsFrom c.pending).length ≤ t.arena.size + 1 := by
    cases c.pending with
    | none => exact Nat.zero_le _
    | some i =>
      exact Nat.le_trans (List.length_filterMap_le _ _) (Table.length_chainFrom_le t _ _)
  have hbehind : (t.pairsBehind c.nextBucket).length ≤ t.bucketCount + t.arena.size := by
    rw [← hl.length_positions]
    exact Nat.le_trans (t.length_pairsBehind_le _) (List.length_filterMap_le _ _)
  unfold ahead stepBound
  rw [List.length_append]
  omega

/-- To walk on until there is no answer lists what is ahead. -/
theorem drain_toList (hl : t.Linked) (c : Cursor) : (c.drain t).1.toList = c.ahead t := by
  refine Walk.drain_toList (ahead t) (fun s s' h => ?_) (fun s s' kv h => ?_)
    (length_ahead_le hl c)
  · simpa [h] using next_ahead hl s
  · simpa [h] using next_ahead hl s

end Cursor

namespace Traversal

variable {K : Type u} {V : Type v} {t : Table K V}

/-- The pairs of a traversal are those of its cursor. -/
theorem drain_toList (hl : t.Linked) (it : Traversal) :
    (it.drain t).1.toList = it.cursor.ahead t := by
  refine Walk.drain_toList (fun it : Traversal => it.cursor.ahead t) (fun s s' h => ?_)
    (fun s s' kv h => ?_) (Cursor.length_ahead_le hl it.cursor)
  · have hstep := Cursor.next_ahead hl s.cursor
    unfold next at h
    cases hc : s.cursor.next t with
    | mk answer cursor =>
      rw [hc] at h hstep
      cases answer with
      | none => exact hstep
      | some kv => cases h
  · have hstep := Cursor.next_ahead hl s.cursor
    unfold next at h
    cases hc : s.cursor.next t with
    | mk answer cursor =>
      rw [hc] at h hstep
      cases answer with
      | none => cases h
      | some kv' =>
        cases h
        exact hstep

end Traversal

namespace Map

variable {K : Type u} {ks : Keying K} {V : Type v}

/-- The pairs that a traversal of the map answers with, from its start on. -/
def traverse (m : Map ks V) : List (K × V) :=
  ((Traversal.ofTable m.table).drain m.table).1.toList

theorem traverse_eq_pairs {m : Map ks V} (hl : m.table.Linked) : m.traverse = m.pairs :=
  ((Traversal.ofTable m.table).drain_toList hl).trans (Cursor.ahead_start m.table)

end Map

end Chaining
