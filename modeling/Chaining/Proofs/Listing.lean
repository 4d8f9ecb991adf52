import Chaining.Proofs.Ownership
import Chaining.Proofs.Sweep

/-!
# All walks over a map list the same

A map is gone over in several ways: by a cursor, by a traversal that counts, for keys or
values only, by a sweep that changes values, and by the draining of its table when it is
given up. They are walks of their own, yet each lists `Map.pairs`, in that order
(`Map.Reachable.listed`).

For a walk that is asked question by question this means three things, `Walk.Counted`:
the answers are the members of the list and then none, however often one goes on asking;
the walk knows before each question how many answers are to come; and it never counts
down from zero. All three follow from what one question does to the list of those ahead:
it takes off its head (`Walk.lists`, `Walk.counted`).
-/

namespace Chaining

universe u v w

namespace Walk

variable {σ : Type u} {α : Type v} {next : σ → Option α × σ}

/-- One more question is asked at the end. -/
theorem take_succ (next : σ → Option α × σ) (n : Nat) (s : σ) :
    take next (n + 1) s =
      ((take next n s).1.push (next (take next n s).2).1, (next (take next n s).2).2) := by
  have hgo : ∀ (given : Array (Option α)) (s : σ), takeAfter next given (n + 1) s =
      ((takeAfter next given n s).1.push (next (takeAfter next given n s).2).1,
        (next (takeAfter next given n s).2).2) := by
    induction n with
    | zero =>
      intro given s
      rfl
    | succ n ih =>
      intro given s
      exact ih (given.push (next s).1) (next s).2
  exact hgo #[] s

/-- The answers are the members of the list, one after the other, and then none. -/
def Lists (next : σ → Option α × σ) (s : σ) (xs : List α) : Prop :=
  ∀ n, (take next n s).1.toList = (List.range n).map fun i => xs[i]?

/-- The walk lists these and knows how many are to come. -/
structure Counted (next : σ → Option α × σ) (remaining : σ → Nat) (s : σ) (xs : List α) :
    Prop where
  lists : Lists next s xs
  remaining_eq : ∀ n, remaining (take next n s).2 = xs.length - n
  /-- As long as there is an answer, the count is not zero. -/
  remaining_pos : ∀ n, (next (take next n s).2).1.isSome → 0 < remaining (take next n s).2

section Ahead

variable {Ahead : σ → List α → Prop}
  (hstep : ∀ s xs, Ahead s xs → (next s).1 = xs.head? ∧ Ahead (next s).2 xs.tail)

include hstep

theorem ahead_take {s : σ} {xs : List α} (h : Ahead s xs) (n : Nat) :
    Ahead (take next n s).2 (xs.drop n) := by
  induction n with
  | zero => exact h
  | succ n ih =>
    rw [take_succ, ← List.tail_drop]
    exact (hstep _ _ ih).2

/-- If each question takes the head off what is ahead, the walk lists what is ahead. -/
theorem lists {s : σ} {xs : List α} (h : Ahead s xs) : Lists next s xs := by
  intro n
  induction n with
  | zero => rfl
  | succ n ih =>
    have hanswer := (hstep _ _ (ahead_take hstep h n)).1
    rw [List.head?_drop] at hanswer
    rw [take_succ, Array.toList_push, ih, hanswer, List.range_succ, List.map_append]
    rfl

theorem counted {remaining : σ → Nat} (hcount : ∀ s xs, Ahead s xs → remaining s = xs.length)
    {s : σ} {xs : List α} (h : Ahead s xs) : Counted next remaining s xs where
  lists := lists hstep h
  remaining_eq := by
    intro n
    rw [hcount _ _ (ahead_take hstep h n), List.length_drop]
  remaining_pos := by
    intro n hsome
    have hahead := ahead_take hstep h n
    rw [(hstep _ _ hahead).1] at hsome
    rw [hcount _ _ hahead]
    exact List.length_pos_iff.mpr (List.isSome_head?.mp hsome)

/-- What is made of each answer is listed and counted just so. -/
theorem counted_map {remaining : σ → Nat} (hcount : ∀ s xs, Ahead s xs → remaining s = xs.length)
    {s : σ} {xs : List α} (h : Ahead s xs) {β : Type w} (f : α → β) :
    Counted (fun s => ((next s).1.map f, (next s).2)) remaining s (xs.map f) := by
  have hmapped : ∀ s ys, (∃ xs, Ahead s xs ∧ ys = xs.map f) →
      (next s).1.map f = ys.head? ∧ ∃ xs, Ahead (next s).2 xs ∧ ys.tail = xs.map f := by
    rintro s ys ⟨xs, hs, rfl⟩
    obtain ⟨hanswer, htail⟩ := hstep s xs hs
    rw [hanswer]
    exact ⟨List.head?_map.symm, xs.tail, htail, List.map_tail.symm⟩
  refine counted hmapped ?_ ⟨xs, h, rfl⟩
  rintro s ys ⟨xs, hs, rfl⟩
  rw [hcount s xs hs, List.length_map]

end Ahead

end Walk

namespace Cursor

variable {K : Type u} {V : Type v} {t : Table K V}

/-- A step takes the head off what is ahead; behind the last pair there is nothing. -/
theorem next_ahead_tail (hl : t.Linked) (c : Cursor) :
    (c.next t).1 = (c.ahead t).head? ∧ (c.next t).2.ahead t = (c.ahead t).tail := by
  have hahead := next_ahead hl c
  cases hn : c.next t with
  | mk answer c' =>
    rw [hn] at hahead
    cases answer with
    | some kv =>
      rw [show c.ahead t = kv :: c'.ahead t from hahead]
      exact ⟨rfl, rfl⟩
    | none =>
      have hvacant := vacant_of_next hl (congrArg Prod.fst hn)
      rw [hn] at hvacant
      obtain rfl : c' = ⟨some t.bucketCount, none⟩ := hvacant.2
      have hpast : ahead t ⟨some t.bucketCount, none⟩ = [] := by
        rw [ahead_eq, places_exhausted]
        rfl
      rw [show c.ahead t = [] from hahead]
      exact ⟨rfl, hpast⟩

theorem next_of_ahead (hl : t.Linked) (c : Cursor) (xs : List (K × V)) (h : c.ahead t = xs) :
    (c.next t).1 = xs.head? ∧ (c.next t).2.ahead t = xs.tail :=
  h ▸ c.next_ahead_tail hl

end Cursor

namespace Traversal

variable {K : Type u} {V : Type v} {t : Table K V}

/-- The pairs that a traversal has ahead, and it counts them. -/
def Ahead (t : Table K V) (it : Traversal) (xs : List (K × V)) : Prop :=
  it.cursor.ahead t = xs ∧ it.remaining = xs.length

theorem ahead_ofTable {ks : Keying K} (hw : t.WellFormed ks) : (ofTable t).Ahead t t.pairs :=
  ⟨Cursor.ahead_start t, hw.len_eq⟩

theorem Ahead.next (hl : t.Linked) {it : Traversal} {xs : List (K × V)} (h : it.Ahead t xs) :
    (it.next t).1 = xs.head? ∧ (it.next t).2.Ahead t xs.tail := by
  obtain ⟨rfl, hcount⟩ := h
  obtain ⟨hanswer, hahead⟩ := it.cursor.next_ahead_tail hl
  unfold Traversal.next
  cases hn : it.cursor.next t with
  | mk answer cursor =>
    rw [hn] at hanswer hahead
    cases answer with
    | none =>
      have hnil : it.cursor.ahead t = [] := List.head?_eq_none_iff.mp hanswer.symm
      exact ⟨hanswer, hahead, by rw [hcount, hnil]; rfl⟩
    | some kv => exact ⟨hanswer, hahead, by rw [List.length_tail, ← hcount]⟩

end Traversal

namespace Sweep

variable {K : Type u} {V : Type v}

/-- One visit after the other, each with a change of its own: the first with that numbered
zero. -/
def visitEach (fs : Nat → V → V) :
    Nat × Sweep × Table K V → Option (K × V) × (Nat × Sweep × Table K V)
  | (n, s) =>
    let (answer, s) := visit (fs n) s
    (answer, (n + 1, s))

/-- The pairs that the coming visits have ahead, as they will be changed. -/
def Ahead (fs : Nat → V → V) : Nat × Sweep × Table K V → List (K × V) → Prop
  | (n, s, t), xs =>
    ∃ kvs, s.Faces t kvs ∧ xs = kvs.mapIdx fun i kv => (kv.1, fs (n + i) kv.2)

theorem visitEach_ahead (fs : Nat → V → V) (s : Nat × Sweep × Table K V) (xs : List (K × V))
    (h : Ahead fs s xs) :
    (visitEach fs s).1 = xs.head? ∧ Ahead fs (visitEach fs s).2 xs.tail := by
  obtain ⟨n, s, t⟩ := s
  obtain ⟨kvs, hfaces, rfl⟩ := h
  unfold visitEach
  dsimp only
  cases kvs with
  | nil =>
    rw [hfaces.visit_nil]
    exact ⟨rfl, [], hfaces, rfl⟩
  | cons kv kvs =>
    obtain ⟨p, s', hvisit, hfaces', _⟩ := hfaces.visit_cons (fs n)
    rw [hvisit, List.mapIdx_cons]
    refine ⟨rfl, kvs, hfaces', ?_⟩
    show List.mapIdx _ kvs = _
    congr 1
    funext i kv
    rw [Nat.add_assoc, Nat.add_comm 1 i]

theorem remaining_of_ahead (fs : Nat → V → V) (s : Nat × Sweep × Table K V)
    (xs : List (K × V)) (h : Ahead fs s xs) : s.2.1.remaining = xs.length := by
  obtain ⟨kvs, hfaces, rfl⟩ := h
  rw [hfaces.remaining_eq, List.length_mapIdx]

end Sweep

namespace Map

variable {K : Type u} {V : Type v} {ks : Keying K} {m : Map ks V}

/-- All walks over a map list its pairs, bucket by bucket and along the chains. -/
structure Listed (m : Map ks V) : Prop where
  length_eq : m.pairs.length = m.len
  /-- A traversal is what all loops over a map go by that do not change it. -/
  traversal : Walk.Counted (fun it => Traversal.next it m.table) Traversal.remaining
    (.ofTable m.table) m.pairs
  keys : Walk.Counted (fun it => Traversal.nextKey it m.table) Traversal.remaining
    (.ofTable m.table) (m.pairs.map Prod.fst)
  values : Walk.Counted (fun it => Traversal.nextValue it m.table) Traversal.remaining
    (.ofTable m.table) (m.pairs.map Prod.snd)
  /-- Whatever is done to the values on the way, each pair is come to as it was. -/
  sweep : ∀ fs : Nat → V → V, Walk.Counted (Sweep.visitEach fs) (fun s => s.2.1.remaining)
    (0, .ofTable m.table, m.table) (m.pairs.mapIdx fun i kv => (kv.1, fs i kv.2))
  cursor : Walk.Lists (fun c => Cursor.next c m.table) .start m.pairs
  /-- To drain a cursor is to ask it until there is no answer. -/
  drained : (Cursor.start.drain m.table).1.toList = m.pairs
  /-- When the map is given up, its pairs are let go of in that order. -/
  released : m.releases.toList = m.pairs.map fun kv => .pair kv.1 kv.2
  emptied : m.table.drain.2.len = 0

theorem Reachable.listed (hm : m.Reachable) : m.Listed := by
  have hw := hm.wellFormed
  have hl := hw.linked
  have hstep : ∀ it xs, Traversal.Ahead m.table it xs →
      (it.next m.table).1 = xs.head? ∧ (it.next m.table).2.Ahead m.table xs.tail :=
    fun _ _ h => Traversal.Ahead.next hl h
  have hcount : ∀ it xs, Traversal.Ahead m.table it xs → it.remaining = xs.length :=
    fun _ _ h => h.2
  have hstart := Traversal.ahead_ofTable hw
  exact {
    length_eq := hw.len_eq.symm
    traversal := Walk.counted hstep hcount hstart
    keys := Walk.counted_map hstep hcount hstart Prod.fst
    values := Walk.counted_map hstep hcount hstart Prod.snd
    sweep := by
      intro fs
      refine Walk.counted (Sweep.visitEach_ahead fs) (Sweep.remaining_of_ahead fs)
        ⟨m.pairs, Sweep.faces_ofTable hw, ?_⟩
      simp only [Nat.zero_add]
    cursor := Walk.lists (Cursor.next_of_ahead hl) (Cursor.ahead_start _)
    drained := (Cursor.drain_toList hl .start).trans (Cursor.ahead_start _)
    released := by rw [releases_toList hl, traverse_eq_pairs hl]
    emptied := hw.len_drain }

/-- Ten buckets with vacant heads among them: a chain whose head is vacant, and its third
slot of four, and one whose last slot is. -/
def perforated : Map (Keying.word : Keying UInt64) Nat :=
  (ofSizing Keying.word (Sizing.standard.withInitial 10)).after
    [({}, .put 3 1), ({}, .put 13 2), ({}, .put 23 3), ({}, .put 33 4), ({}, .put 7 5),
      ({}, .put 17 6), ({}, .remove 3), ({}, .remove 23), ({}, .remove 17)]

/-- All walks come to the three pairs that are left. -/
theorem Reachable.listed_perforated :
    perforated.Listed ∧ perforated.pairs = [(13, 2), (33, 4), (7, 5)] ∧
      perforated.tombstones = 2 :=
  ⟨Reachable.listed (.after (.ofSizing _ _) _), by decide, by decide⟩

end Map

end Chaining
