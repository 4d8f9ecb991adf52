import Chaining.Proofs.Listing

/-!
# A sweep writes where it reads

After some visits of a sweep, each of which changes a value in place, the pairs visited stand
where they stood with their values changed, and those still ahead are as they were: `Wrote`. One
visit takes the first pair ahead, and changes that one (`Wrote.visit`), so it holds after any
number of visits (`wrote_visits`). A change of a value touches neither keys nor links, so the two
tables are alike in all else (`Table.SameKeys`).

A sweep asks for the mark of each extension slot it comes to. Since no slot is on two chains or
on one twice, the mark is still there, whatever has happened to the map (`OnCourse.lookups`).
-/

namespace Chaining

universe u v

variable {K : Type u} {V : Type v}

namespace Table

variable {t u : Table K V}

/-- The tables have the same slots and links and the same keys in them; only values may
differ. -/
structure SameKeys (t u : Table K V) : Prop where
  bucketCount_eq : u.bucketCount = t.bucketCount
  size_arena_eq : u.arena.size = t.arena.size
  len_eq : u.len = t.len
  next?_eq : ∀ p, u.next? p = t.next? p
  key_eq : ∀ p, (u.pair? p).map Prod.fst = (t.pair? p).map Prod.fst

namespace SameKeys

theorem refl (t : Table K V) : SameKeys t t where
  bucketCount_eq := rfl
  size_arena_eq := rfl
  len_eq := rfl
  next?_eq _ := rfl
  key_eq _ := rfl

theorem mapValue (h : SameKeys t u) (p : Pos) (f : V → V) : SameKeys t (u.mapValue p f) where
  bucketCount_eq := (bucketCount_mapValue u p f).trans h.bucketCount_eq
  size_arena_eq := (size_arena_mapValue u p f).trans h.size_arena_eq
  len_eq := (len_mapValue u p f).trans h.len_eq
  next?_eq q := (next?_mapValue u p q f).trans (h.next?_eq q)
  key_eq q := by
    rw [← h.key_eq q, pair?_mapValue]
    split
    next => rw [Option.map_map]; rfl
    next => rfl

end SameKeys

/-- The extension slots that hold a pair, by their place in the arena. -/
theorem occupiedExtensions_eq (t : Table K V) : t.occupiedExtensions =
    (List.range t.arena.size).countP fun i => (t.pair? (.extension i)).isSome := by
  have hslots : (List.range t.arena.size).filterMap (fun i => t.pair? (.extension i)) =
      t.arena.toList.filterMap Slot.pair := filterMap_range t.arena Slot.pair
  have hlength := congrArg List.length hslots
  rw [List.length_filterMap_eq_countP, List.length_filterMap_eq_countP] at hlength
  rw [occupiedExtensions, ← Array.countP_toList]
  exact hlength.symm

theorem SameKeys.tombstones_eq (h : SameKeys t u) : u.tombstones = t.tombstones := by
  have hsome : ∀ p, (u.pair? p).isSome = (t.pair? p).isSome := by
    intro p
    rw [← Option.isSome_map (f := Prod.fst), h.key_eq, Option.isSome_map]
  have hoccupied : u.occupiedExtensions = t.occupiedExtensions := by
    rw [occupiedExtensions_eq, occupiedExtensions_eq, h.size_arena_eq]
    simp only [hsome]
  have ht := t.tombstones_add_occupiedExtensions
  have hu := u.tombstones_add_occupiedExtensions
  have hsize := h.size_arena_eq
  omega

end Table

namespace Sweep

variable {t : Table K V} {s : Sweep} {f : V → V} {n : Nat}

/-! ## Marks that are asked for -/

/-- The extension slots whose marks are asked for on the way to the next pair, and whether each
has its mark. -/
def lookupsWithin (t : Table K V) : (bound : Nat) → Sweep → List (Nat × Bool)
  | 0, _ => []
  | bound + 1, s =>
    let asked := s.pending.toList.map fun i => (i, s.ahead.getD i false)
    match s.step t with
    | none => asked
    | some (p, s) =>
      match t.pair? p with
      | none => asked ++ lookupsWithin t bound s
      | some _ => asked

/-- The marks that the next visit asks for. -/
def lookups (s : Sweep) (t : Table K V) : List (Nat × Bool) :=
  if s.remaining = 0 then [] else lookupsWithin t (t.bucketCount + t.arena.size + 1) s

/-- A sweep on its course finds the mark of the slot that is pending. -/
theorem OnCourse.marked_pending (h : s.OnCourse t) {lookup : Nat × Bool}
    (hmem : lookup ∈ s.pending.toList.map fun i => (i, s.ahead.getD i false)) :
    lookup.2 = true := by
  obtain ⟨i, hi, rfl⟩ := List.mem_map.mp hmem
  rw [Option.mem_toList] at hi
  have hplace : .extension i ∈ s.places t := by
    rw [places, hi]
    exact List.mem_append_left _ List.mem_cons_self
  show s.ahead.getD i false = true
  rw [Array.getD_eq_getD_getElem?, h.marked i hplace]
  rfl

theorem OnCourse.lookupsWithin (hl : t.Linked) {bound : Nat} (h : s.OnCourse t)
    {lookup : Nat × Bool} (hmem : lookup ∈ lookupsWithin t bound s) : lookup.2 = true := by
  induction bound generalizing s with
  | zero => cases hmem
  | succ bound ih =>
    have hstep := h.step hl
    unfold Sweep.lookupsWithin at hmem
    dsimp only at hmem
    cases hn : s.step t with
    | none =>
      rw [hn] at hmem
      exact h.marked_pending hmem
    | some taken =>
      obtain ⟨p, s'⟩ := taken
      rw [hn] at hmem hstep
      cases hp : t.pair? p with
      | some _ =>
        simp only [hp] at hmem
        exact h.marked_pending hmem
      | none =>
        simp only [hp] at hmem
        rcases List.mem_append.mp hmem with hmem | hmem
        · exact h.marked_pending hmem
        · exact ih hstep.2.1 hmem

/-- Every mark that a visit asks for is there. -/
theorem OnCourse.lookups (hl : t.Linked) (h : s.OnCourse t) :
    ∀ lookup ∈ s.lookups t, lookup.2 = true := by
  intro lookup hmem
  unfold Sweep.lookups at hmem
  by_cases hremaining : s.remaining = 0
  · rw [if_pos hremaining] at hmem
    cases hmem
  · rw [if_neg hremaining] at hmem
    exact h.lookupsWithin hl hmem

/-! ## Values that are written -/

/-- The sweep of a table, and the table, after `n` visits that change values by `f`. -/
def visits (f : V → V) (t : Table K V) (n : Nat) : Sweep × Table K V :=
  (Walk.take (visit f) n (ofTable t, t)).2

theorem visits_succ (f : V → V) (t : Table K V) (n : Nat) :
    visits f t (n + 1) = (visit f (visits f t n)).2 := by
  unfold visits
  rw [Walk.take_succ]

/-- Where a sweep of a table is after `n` visits, and what it has written. -/
structure Wrote (f : V → V) (t : Table K V) (n : Nat) (s : Sweep × Table K V) : Prop where
  faces : s.1.Faces s.2 (t.pairs.drop n)
  pairs_eq : s.2.pairs = (t.pairs.take n).map (fun kv => (kv.1, f kv.2)) ++ t.pairs.drop n
  sameKeys : t.SameKeys s.2

theorem wrote_ofTable {ks : Keying K} (hw : t.WellFormed ks) (f : V → V) :
    Wrote f t 0 (ofTable t, t) where
  faces := faces_ofTable hw
  pairs_eq := rfl
  sameKeys := .refl t

/-- One visit more writes one value more, if there is a pair ahead. -/
theorem Wrote.visit {s : Sweep × Table K V} (h : Wrote f t n s) :
    Wrote f t (n + 1) (visit f s).2 := by
  obtain ⟨s, u⟩ := s
  have hfaces := h.faces
  have hpairs := h.pairs_eq
  have hdrop : t.pairs.drop (n + 1) = (t.pairs.drop n).tail := List.tail_drop.symm
  have htake : t.pairs.take (n + 1) = t.pairs.take n ++ (t.pairs.drop n).take 1 := List.take_add
  cases hahead : t.pairs.drop n with
  | nil =>
    rw [hahead] at hfaces hpairs hdrop htake
    rw [hfaces.visit_nil]
    refine ⟨hdrop ▸ hfaces, ?_, h.sameKeys⟩
    rw [hdrop, htake]
    exact hpairs.trans (by simp)
  | cons kv xs =>
    rw [hahead] at hfaces hpairs hdrop htake
    obtain ⟨p, s', hvisit, hfaces', hwrites⟩ := hfaces.visit_cons f
    rw [hvisit]
    refine ⟨hdrop ▸ hfaces', ?_, h.sameKeys.mapValue p f⟩
    rw [hdrop, htake]
    exact (hwrites _ hpairs).trans (by simp)

theorem wrote_visits {ks : Keying K} (hw : t.WellFormed ks) (f : V → V) (n : Nat) :
    Wrote f t n (visits f t n) := by
  induction n with
  | zero => exact wrote_ofTable hw f
  | succ n ih =>
    rw [visits_succ]
    exact ih.visit

end Sweep

namespace Map

variable {ks : Keying K} {m : Map ks V}

/-- The map after `n` visits of a sweep of it that change values by `f`. -/
def swept (m : Map ks V) (f : V → V) (n : Nat) : Map ks V :=
  { m with table := (Sweep.visits f m.table n).2 }

/-- What `n` visits that change values by `f` do to a map. -/
structure Swept (m : Map ks V) (f : V → V) (n : Nat) : Prop where
  traverse_eq : (m.swept f n).traverse =
    (m.traverse.take n).map (fun kv => (kv.1, f kv.2)) ++ m.traverse.drop n
  keys_eq : (m.swept f n).traverse.map Prod.fst = m.traverse.map Prod.fst
  len_eq : (m.swept f n).len = m.len
  bucketCount_eq : (m.swept f n).bucketCount = m.bucketCount
  watermark_eq : (m.swept f n).watermark = m.watermark
  tombstones_eq : (m.swept f n).tombstones = m.tombstones
  /-- No slot has come or gone, and each has its key and its link. -/
  sameKeys : m.table.SameKeys (m.swept f n).table
  /-- Each of the visits, and one more, finds the mark of each extension slot that it comes
  to. -/
  lookups : ∀ k ≤ n, ∀ lookup ∈ (Sweep.visits f m.table k).1.lookups (m.swept f k).table,
    lookup.2 = true

/-- A sweep that has changed values has changed those of the first pairs, one for each visit,
and nothing else. -/
theorem Reachable.sweep_writes (hm : m.Reachable) (f : V → V) (n : Nat) : m.Swept f n := by
  have hw := hm.wellFormed
  have hwrote := Sweep.wrote_visits hw f n
  have hsame := hwrote.sameKeys
  have htraverse : (m.swept f n).traverse =
      (m.traverse.take n).map (fun kv => (kv.1, f kv.2)) ++ m.traverse.drop n := by
    rw [traverse_eq_pairs hw.linked, traverse_eq_pairs (m := m.swept f n) hwrote.faces.linked]
    exact hwrote.pairs_eq
  have hkeys : (m.swept f n).traverse.map Prod.fst = m.traverse.map Prod.fst := by
    rw [htraverse, List.map_append, List.map_map]
    show (m.traverse.take n).map Prod.fst ++ (m.traverse.drop n).map Prod.fst = _
    rw [← List.map_append, List.take_append_drop]
  exact {
    traverse_eq := htraverse
    keys_eq := hkeys
    len_eq := hsame.len_eq
    bucketCount_eq := hsame.bucketCount_eq
    watermark_eq := rfl
    tombstones_eq := hsame.tombstones_eq
    sameKeys := hsame
    lookups := by
      intro k _
      have hfaces := (Sweep.wrote_visits hw f k).faces
      exact hfaces.onCourse.lookups hfaces.linked }

/-- Of the three pairs in a map with vacant slots on its chains, two visits change two values.
The second of them comes to a vacant slot first and finds the marks of both. -/
theorem Reachable.sweep_writes_perforated :
    perforated.Swept (· * 10) 2 ∧
      perforated.traverse = [(13, 2), (33, 4), (7, 5)] ∧
      (perforated.swept (· * 10) 2).traverse = [(13, 20), (33, 40), (7, 5)] ∧
      (Sweep.visits (· * 10) perforated.table 1).1.lookups
        (perforated.swept (· * 10) 1).table = [(1, true), (2, true)] := by
  have hm : perforated.Reachable := .after (.ofSizing _ _) _
  have h := hm.sweep_writes (· * 10) 2
  refine ⟨h, by decide, ?_, by decide⟩
  rw [h.traverse_eq]
  decide

end Map

end Chaining
