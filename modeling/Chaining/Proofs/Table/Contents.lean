import Mathlib.Data.List.Perm.Basic
import Chaining.Proofs.Table.Links
import Chaining.Table.Walk

/-!
# Contents: one change touches one place of one bucket

`Table.pairsIn` is what a bucket holds, along its chain, and the pairs of the
table are those of its buckets in order (`pairs_eq_flatMap`). All that an
operation does to them is an `Exchange`: in one bucket, between the pairs
`before` and those `after`, one pair may go and one may come. Storing a pair,
making a slot vacant and changing a value are exchanges (`Linked.exchange`,
`Linked.exchange_append`), and whoever knows the exchange need not know the
operation: it says what happens to the order of traversal (`Exchange.pairs`) and
to the pairs as a multiset (`Exchange.perm`).
-/

namespace Chaining.Table

universe u v

variable {K : Type u} {V : Type v} {t u : Table K V}

/-- The pairs of a bucket, along its chain. -/
def pairsIn (t : Table K V) (b : Nat) : List (K × V) :=
  (t.chain b).filterMap t.pair?

/-- The pairs of a table are those of its buckets, one after the other. -/
theorem pairs_eq_flatMap (t : Table K V) :
    t.pairs = (List.range t.bucketCount).flatMap t.pairsIn := by
  unfold pairs positions
  rw [List.filterMap_flatMap]
  rfl

theorem mem_pairs {kv : K × V} :
    kv ∈ t.pairs ↔ ∃ b, b < t.bucketCount ∧ kv ∈ t.pairsIn b := by
  rw [pairs_eq_flatMap, List.mem_flatMap]
  simp

theorem pairsIn_congr (ha : u.arena.size = t.arena.size) (hn : ∀ p, u.next? p = t.next? p)
    (hp : ∀ p, u.pair? p = t.pair? p) (b : Nat) : u.pairsIn b = t.pairsIn b := by
  unfold pairsIn
  rw [chain_congr ha hn, funext hp]

theorem pairs_congr (hb : u.bucketCount = t.bucketCount)
    (hp : ∀ b, u.pairsIn b = t.pairsIn b) : u.pairs = t.pairs := by
  rw [pairs_eq_flatMap, pairs_eq_flatMap, hb, funext hp]

@[simp] theorem pair?_ofBuckets (n : Nat) (p : Pos) :
    (ofBuckets n : Table K V).pair? p = none := by
  cases p with
  | head b => simp [ofBuckets, pair?, slot?, Array.getElem?_replicate, Slot.vacant]
  | extension i => simp [ofBuckets, pair?, slot?]

@[simp] theorem pairs_ofBuckets (n : Nat) : (ofBuckets n : Table K V).pairs = [] := by
  unfold pairs
  rw [List.filterMap_eq_nil_iff]
  intro p _
  exact pair?_ofBuckets n p

@[simp] theorem pairsIn_ofBuckets (n b : Nat) : (ofBuckets n : Table K V).pairsIn b = [] := by
  unfold pairsIn
  rw [List.filterMap_eq_nil_iff]
  intro p _
  exact pair?_ofBuckets n p

/-- The pairs of the buckets up to one. -/
def pairsBefore (t : Table K V) (b : Nat) : List (K × V) :=
  (List.range b).flatMap t.pairsIn

/-- The pairs of the buckets from one on. -/
def pairsBehind (t : Table K V) (b : Nat) : List (K × V) :=
  (List.range' b (t.bucketCount - b)).flatMap t.pairsIn

theorem pairsBehind_zero (t : Table K V) : t.pairsBehind 0 = t.pairs := by
  rw [pairs_eq_flatMap, List.range_eq_range']
  rfl

theorem pairsBehind_of_lt {b : Nat} (hb : b < t.bucketCount) :
    t.pairsBehind b = t.pairsIn b ++ t.pairsBehind (b + 1) := by
  unfold pairsBehind
  obtain ⟨n, hn⟩ : ∃ n, t.bucketCount - b = n + 1 := ⟨t.bucketCount - b - 1, by omega⟩
  have hn' : t.bucketCount - (b + 1) = n := by omega
  rw [hn, hn', List.range'_succ, List.flatMap_cons]

theorem pairsBehind_of_le {b : Nat} (hb : t.bucketCount ≤ b) : t.pairsBehind b = [] := by
  unfold pairsBehind
  rw [Nat.sub_eq_zero_of_le hb]
  rfl

theorem pairs_eq_append {b : Nat} (hb : b < t.bucketCount) :
    t.pairs = t.pairsBefore b ++ t.pairsIn b ++ t.pairsBehind (b + 1) := by
  have hrange : List.range t.bucketCount =
      List.range b ++ List.range' b (t.bucketCount - b) := by
    have happend := List.range'_append_1 (s := 0) (m := b) (n := t.bucketCount - b)
    rw [Nat.zero_add, Nat.add_sub_cancel' (Nat.le_of_lt hb)] at happend
    rw [List.range_eq_range', List.range_eq_range', happend]
  rw [List.append_assoc, ← pairsBehind_of_lt hb, pairs_eq_flatMap, hrange, List.flatMap_append]
  rfl

theorem filterMap_range {α : Type u} {β : Type v} (xs : Array α) (f : α → Option β) :
    (List.range xs.size).filterMap (fun i => xs[i]?.bind f) = xs.toList.filterMap f := by
  have hslots : (List.range xs.size).map (fun i => xs[i]?) = xs.toList.map some := by
    refine List.ext_getElem (by simp) fun i hi _ => ?_
    simp at hi
    simp [hi]
  calc (List.range xs.size).filterMap (fun i => xs[i]?.bind f)
      _ = ((List.range xs.size).map fun i => xs[i]?).filterMap (·.bind f) := by
        rw [List.filterMap_map]
        rfl
      _ = xs.toList.filterMap f := by
        rw [hslots, List.filterMap_map]
        rfl

/-- The pairs are those in heads and those in extension slots. -/
theorem Linked.perm_pairs (hl : t.Linked) :
    t.pairs.Perm ((t.heads.toList ++ t.arena.toList).filterMap Slot.pair) := by
  have hslots : t.slots.filterMap t.pair? =
      (t.heads.toList ++ t.arena.toList).filterMap Slot.pair := by
    unfold slots
    rw [List.filterMap_append, List.filterMap_append, List.filterMap_map, List.filterMap_map,
      ← filterMap_range t.heads, ← filterMap_range t.arena]
    rfl
  rw [← hslots]
  exact hl.perm_slots.filterMap _

/-! ## Exchanges -/

/-- Between two tables one place of one bucket changes: `old` goes from between
`before` and `after`, and `new` comes there. -/
structure Exchange (t u : Table K V) (b : Nat) (before : List (K × V)) (old new : Option (K × V))
    (after : List (K × V)) : Prop where
  bucket_lt : b < t.bucketCount
  bucketCount_eq : u.bucketCount = t.bucketCount
  /-- The other buckets hold what they held. -/
  others : ∀ c, c < t.bucketCount → c ≠ b → u.pairsIn c = t.pairsIn c
  pairsIn_old : t.pairsIn b = before ++ old.toList ++ after
  pairsIn_new : u.pairsIn b = before ++ new.toList ++ after

namespace Exchange

variable {b : Nat} {before after : List (K × V)} {old new : Option (K × V)}

/-- What an exchange does to the order of traversal. -/
theorem pairs (h : Exchange t u b before old new after) :
    t.pairs = t.pairsBefore b ++ before ++ old.toList ++ (after ++ t.pairsBehind (b + 1)) ∧
      u.pairs = t.pairsBefore b ++ before ++ new.toList ++ (after ++ t.pairsBehind (b + 1)) := by
  have hb := h.bucket_lt
  have hb' : b < u.bucketCount := h.bucketCount_eq ▸ hb
  have hbefore : u.pairsBefore b = t.pairsBefore b :=
    List.flatMap_congr fun c hc => by
      have hc := List.mem_range.mp hc
      exact h.others c (Nat.lt_trans hc hb) (Nat.ne_of_lt hc)
  have hbehind : u.pairsBehind (b + 1) = t.pairsBehind (b + 1) := by
    unfold pairsBehind
    rw [h.bucketCount_eq]
    refine List.flatMap_congr fun c hc => ?_
    obtain ⟨hlow, hhigh⟩ := List.mem_range'_1.mp hc
    exact h.others c (by omega) (by omega)
  constructor
  · rw [pairs_eq_append hb, h.pairsIn_old]
    simp only [List.append_assoc]
  · rw [pairs_eq_append hb', h.pairsIn_new, hbefore, hbehind]
    simp only [List.append_assoc]

/-- What goes and what stays are what was there and what comes. -/
theorem perm (h : Exchange t u b before old new after) :
    (old.toList ++ u.pairs).Perm (new.toList ++ t.pairs) := by
  obtain ⟨ht, hu⟩ := h.pairs
  rw [ht, hu]
  -- only the place between what is before and what is behind differs
  generalize t.pairsBefore b ++ before = xs
  generalize after ++ t.pairsBehind (b + 1) = ys
  calc old.toList ++ (xs ++ new.toList ++ ys)
      _ = old.toList ++ xs ++ (new.toList ++ ys) := by simp only [List.append_assoc]
      _ |>.Perm (new.toList ++ ys ++ (old.toList ++ xs)) := List.perm_append_comm
      _ = new.toList ++ (ys ++ (old.toList ++ xs)) := List.append_assoc ..
      _ |>.Perm (new.toList ++ (xs ++ old.toList ++ ys)) :=
        .append_left _ (List.perm_append_comm.trans (.append_right _ List.perm_append_comm))

theorem length_pairs (h : Exchange t u b before old new after) :
    old.toList.length + u.pairs.length = new.toList.length + t.pairs.length := by
  simpa using h.perm.length_eq

end Exchange

/-! ## The operations as exchanges -/

section Operations

variable {b : Nat} {p : Pos} {front back : List Pos}

/-- The tables have the same slots and links, and what they hold differs at that position
if anywhere. -/
structure DiffersAt (t u : Table K V) (p : Pos) : Prop where
  bucketCount_eq : u.bucketCount = t.bucketCount
  size_arena_eq : u.arena.size = t.arena.size
  next?_eq : ∀ q, u.next? q = t.next? q
  pair?_eq : ∀ q, q ≠ p → u.pair? q = t.pair? q

theorem DiffersAt.chain_eq (h : DiffersAt t u p) (b : Nat) : u.chain b = t.chain b :=
  chain_congr h.size_arena_eq h.next?_eq b

theorem DiffersAt.linked (h : DiffersAt t u p) (hl : t.Linked) : u.Linked :=
  hl.congr h.size_arena_eq h.next?_eq

/-- Tables that differ at one position of one chain. -/
theorem Linked.exchange (hl : t.Linked) (hb : b < t.bucketCount)
    (hs : t.chain b = front ++ p :: back) (h : DiffersAt t u p) :
    Exchange t u b (front.filterMap t.pair?) (t.pair? p) (u.pair? p)
      (back.filterMap t.pair?) := by
  -- the position comes once on its chain and on no other
  have hnodup : (front ++ p :: back).Nodup := hs ▸ (hl.path_chain hb).nodup hl
  have hnot := (List.nodup_cons.mp (List.nodup_middle.mp hnodup)).1
  have hsame : ∀ qs : List Pos, p ∉ qs → qs.filterMap u.pair? = qs.filterMap t.pair? := by
    intro qs hqs
    refine List.filterMap_congr fun q hq => h.pair?_eq q ?_
    intro hqp
    exact hqs (hqp ▸ hq)
  have hmiddle : ∀ w : Table K V, (front ++ p :: back).filterMap w.pair? =
      front.filterMap w.pair? ++ (w.pair? p).toList ++ back.filterMap w.pair? := by
    intro w
    rw [List.filterMap_append, List.filterMap_cons, List.append_assoc]
    cases w.pair? p <;> rfl
  refine ⟨hb, h.bucketCount_eq, fun c hcb hne => ?_, ?_, ?_⟩
  · unfold pairsIn
    rw [h.chain_eq]
    refine hsame _ fun hpc => hne ?_
    exact hl.chain_unique hcb hb hpc (by rw [hs]; simp)
  · unfold pairsIn
    rw [hs, hmiddle]
  · unfold pairsIn
    rw [h.chain_eq, hs, hmiddle, hsame front fun h => hnot (List.mem_append_left _ h),
      hsame back fun h => hnot (List.mem_append_right _ h)]

theorem pair?_setPair_self (hp : t.Has p) (pair : Option (K × V)) :
    (t.setPair p pair).pair? p = pair := by
  obtain ⟨s, hs⟩ := Option.isSome_iff_exists.mp hp
  rw [pair?_setPair, if_pos rfl, hs]
  rfl

theorem differsAt_setPair (t : Table K V) (p : Pos) (pair : Option (K × V)) :
    DiffersAt t (t.setPair p pair) p where
  bucketCount_eq := bucketCount_setPair t p pair
  size_arena_eq := size_arena_setPair t p pair
  next?_eq q := next?_setPair t p q pair
  pair?_eq q hq := by rw [pair?_setPair, if_neg (Ne.symm hq)]

theorem Linked.exchange_setPair (hl : t.Linked) (hb : b < t.bucketCount)
    (hs : t.chain b = front ++ p :: back) (pair : Option (K × V)) :
    Exchange t (t.setPair p pair) b (front.filterMap t.pair?) (t.pair? p) pair
      (back.filterMap t.pair?) := by
  have hmem : p ∈ t.chain b := by rw [hs]; simp
  have hp := pair?_setPair_self ((hl.path_chain hb).has hmem) pair
  have h := hl.exchange hb hs (differsAt_setPair t p pair)
  rwa [hp] at h

theorem differsAt_fill (t : Table K V) (p : Pos) (pair : K × V) :
    DiffersAt t (t.fill p pair) p where
  bucketCount_eq := bucketCount_fill t p pair
  size_arena_eq := size_arena_fill t p pair
  next?_eq q := next?_fill t p q pair
  pair?_eq q hq := by rw [pair?_fill, pair?_setPair, if_neg (Ne.symm hq)]

theorem Linked.exchange_fill (hl : t.Linked) (hb : b < t.bucketCount)
    (hs : t.chain b = front ++ p :: back) (hp : t.pair? p = none) (pair : K × V) :
    Exchange t (t.fill p pair) b (front.filterMap t.pair?) none (some pair)
      (back.filterMap t.pair?) := by
  have hmem : p ∈ t.chain b := by rw [hs]; simp
  have hnew : (t.fill p pair).pair? p = some pair := by
    rw [pair?_fill]
    exact pair?_setPair_self ((hl.path_chain hb).has hmem) (some pair)
  have h := hl.exchange hb hs (differsAt_fill t p pair)
  rwa [hp, hnew] at h

/-- A slot made vacant holds nothing; all others hold what they held. -/
theorem pair?_vacate (t : Table K V) (p q : Pos) :
    (t.vacate p).pair? q = if p = q then none else t.pair? q := by
  unfold vacate
  split
  next hn =>
    split
    next hq => rw [← hq, hn]
    next => rfl
  next =>
    show (t.setPair p none).pair? q = _
    rw [pair?_setPair]
    split
    next => cases t.slot? q <;> rfl
    next => rfl

theorem differsAt_vacate (t : Table K V) (p : Pos) : DiffersAt t (t.vacate p) p where
  bucketCount_eq := bucketCount_vacate t p
  size_arena_eq := size_arena_vacate t p
  next?_eq := next?_vacate t p
  pair?_eq q hq := by rw [pair?_vacate, if_neg (Ne.symm hq)]

theorem Linked.exchange_vacate (hl : t.Linked) (hb : b < t.bucketCount)
    (hs : t.chain b = front ++ p :: back) :
    Exchange t (t.vacate p) b (front.filterMap t.pair?) (t.pair? p) none
      (back.filterMap t.pair?) := by
  have h := hl.exchange hb hs (differsAt_vacate t p)
  rwa [pair?_vacate, if_pos rfl] at h

theorem pair?_mapValue (t : Table K V) (p q : Pos) (f : V → V) :
    (t.mapValue p f).pair? q =
      if p = q then (t.pair? q).map fun kv => (kv.1, f kv.2) else t.pair? q := by
  unfold pair?
  rw [slot?_mapValue]
  split
  next => cases t.slot? q <;> rfl
  next => rfl

theorem differsAt_mapValue (t : Table K V) (p : Pos) (f : V → V) :
    DiffersAt t (t.mapValue p f) p where
  bucketCount_eq := bucketCount_mapValue t p f
  size_arena_eq := size_arena_mapValue t p f
  next?_eq q := next?_mapValue t p q f
  pair?_eq q hq := by rw [pair?_mapValue, if_neg (Ne.symm hq)]

/-- Another value in the place of one. -/
theorem Linked.exchange_mapValue (hl : t.Linked) (hb : b < t.bucketCount)
    (hs : t.chain b = front ++ p :: back) (f : V → V) :
    Exchange t (t.mapValue p f) b (front.filterMap t.pair?) (t.pair? p)
      ((t.pair? p).map fun kv => (kv.1, f kv.2)) (back.filterMap t.pair?) := by
  have h := hl.exchange hb hs (differsAt_mapValue t p f)
  rwa [pair?_mapValue, if_pos rfl] at h

theorem Linked.exchange_append (hl : t.Linked) (hb : b < t.bucketCount)
    (hs : t.chain b = front ++ [p]) (pair : K × V) :
    Exchange t (t.append p pair) b (t.pairsIn b) none (some pair) [] := by
  have hpath := hl.path_chain hb
  have hmem : p ∈ t.chain b := by rw [hs]; simp
  have hlast : t.Has p := hpath.has hmem
  have hend : t.next? p = none := (hs ▸ hpath).next?_eq_none
  -- the new slot is on no chain of the old table
  have hold : ∀ c, c < t.bucketCount →
      (t.chain c).filterMap (t.append p pair).pair? = t.pairsIn c := by
    intro c hc
    refine List.filterMap_congr fun q hq => ?_
    rw [pair?_append, if_neg]
    rintro rfl
    simpa using (hl.path_chain hc).has hq
  refine ⟨hb, bucketCount_append t p pair, fun c hc hne => ?_, by simp, ?_⟩
  · rw [pairsIn, hl.chain_append hlast hend hc, if_neg, hold c hc]
    intro hpc
    exact hne (hl.chain_unique hc hb hpc hmem)
  · rw [pairsIn, hl.chain_append hlast hend hb, if_pos hmem, List.filterMap_append, hold b hb]
    simp [pair?_append]

end Operations

end Chaining.Table
