import Chaining.Proofs.Map.Run
import Chaining.Proofs.Map.Upkeep
import Chaining.Proofs.Traversal

/-!
# Reachable maps and what holds of their tables

A map is `Reachable` if it comes from a new one by requests and by sweeps that
change values, under any conditions: reservations may be refused, and faults may
break off operations, growth among them. Nothing is asked of the keying.

`Table.Sound` spells out what holds of the table then (`Reachable.sound`). The
links are in order; each extension slot is on one chain, once; pairs are in the
buckets of their hashes; both counts are right; and every walk along a chain
meets only slots that there are and comes to an end before its bound.

All of it follows from `Table.WellFormed`, which every step keeps.
-/

namespace Chaining

universe u v

variable {K : Type u} {V : Type v} {ks : Keying K}

namespace Table

variable {t : Table K V}

/-- The number of heads that hold a pair. -/
def occupiedHeads (t : Table K V) : Nat :=
  t.heads.countP fun s => s.pair.isSome

/-- The number of extension slots that hold a pair. -/
def occupiedExtensions (t : Table K V) : Nat :=
  t.arena.countP fun s => s.pair.isSome

theorem Linked.length_pairs (hl : t.Linked) :
    t.pairs.length = t.occupiedHeads + t.occupiedExtensions := by
  rw [hl.perm_pairs.length_eq, List.length_filterMap_eq_countP, List.countP_append,
    Array.countP_toList, Array.countP_toList]
  rfl

theorem tombstones_add_occupiedExtensions (t : Table K V) :
    t.tombstones + t.occupiedExtensions = t.arena.size := by
  have hsplit : t.arena.size = t.arena.countP (fun s => s.pair.isSome) +
      t.arena.countP (fun s => ¬ s.pair.isSome) := Array.size_eq_countP_add_countP
  simp only [Bool.not_eq_true, Option.isSome_eq_false_iff, Bool.decide_eq_true] at hsplit
  unfold tombstones occupiedExtensions
  omega

/-- The invariant of tables in full. -/
structure Sound (ks : Keying K) (t : Table K V) : Prop where
  bucketCount_pos : 1 ≤ t.bucketCount
  /-- A link leads to an extension slot there is. -/
  link_lt : ∀ p i, t.next? p = some i → i < t.arena.size
  /-- It was created later than any extension slot that links to it. -/
  link_later : ∀ i j, t.next? (.extension i) = some j → i < j
  /-- Every extension slot is on the chain of exactly one bucket. -/
  on_one_chain : ∀ i, i < t.arena.size →
    ∃! b, b < t.bucketCount ∧ .extension i ∈ t.chain b
  /-- No chain passes a slot twice. -/
  nodup_chain : ∀ b, b < t.bucketCount → (t.chain b).Nodup
  /-- A key is on the chain of its hash. -/
  placed : ∀ b, b < t.bucketCount → ∀ p ∈ t.chain b, ∀ kv, t.pair? p = some kv →
    (ks.hash kv.1).toNat % t.bucketCount = b
  len_eq : t.len = t.occupiedHeads + t.occupiedExtensions
  tombstones_eq : t.tombstones = t.arena.size - t.occupiedExtensions
  /-- A chain is the whole walk from its head: no slot on it is missing, and the
  last one links no further. -/
  chain_path : ∀ b, b < t.bucketCount → t.Path (.head b) (t.chain b)
  /-- The chains together, which is what is drained, pass each slot there is once. -/
  chains_cover : t.positions.Perm t.slots
  /-- A walk from any slot ends, and passes only slots there are. -/
  walk_ends : ∀ p, t.Has p → ∃ ps, t.Path p ps ∧ ps.length ≤ t.arena.size + 1
  /-- No walk of a cursor is cut short by its bound. -/
  cursor_walk : ∀ p bound, t.Has p → t.arena.size + 1 ≤ bound →
    t.firstFrom bound p = t.firstFrom (t.arena.size + 1) p
  /-- A cursor is left before an extension slot there is, if before one at all. -/
  cursor_pending : ∀ (c c' : Cursor) kv i, c.next t = (some kv, c') → c'.pending = some i →
    i < t.arena.size

theorem sound_of_wellFormed (hw : t.WellFormed ks) : t.Sound ks where
  bucketCount_pos := hw.bucketCount_pos
  link_lt _ _ h := hw.linked.lt_size h
  link_later _ _ h := hw.linked.later h
  on_one_chain := by
    intro i hi
    obtain ⟨b, hb, hmem⟩ := hw.linked.exists_chain (has_extension.mpr hi)
    refine ⟨b, ⟨hb, hmem⟩, ?_⟩
    intro c hc
    exact hw.linked.chain_unique hc.1 hb hc.2 hmem
  nodup_chain _ hb := (hw.linked.path_chain hb).nodup hw.linked
  placed := by
    intro b hb p hp kv hkv
    exact hw.placed b hb kv (List.mem_filterMap.mpr ⟨p, hp, hkv⟩)
  len_eq := hw.len_eq.trans hw.linked.length_pairs
  tombstones_eq := by
    have hsplit := t.tombstones_add_occupiedExtensions
    omega
  chain_path _ hb := hw.linked.path_chain hb
  chains_cover := hw.linked.perm_slots
  walk_ends _ hp := hw.linked.exists_path hp
  cursor_walk := by
    intro p bound hp hb
    obtain ⟨ps, hps, hlen⟩ := hw.linked.exists_path hp
    exact hps.firstFrom_congr (Nat.le_trans hlen hb) hlen
  cursor_pending := by
    intro c c' kv i hnext hi
    obtain ⟨q, _, hq⟩ := Cursor.exists_next_of_next hnext
    exact hw.linked.lt_size (hq.trans hi)

end Table

namespace Map

/-- The maps that there can be. -/
inductive Reachable : Map ks V → Prop where
  /-- A new map of any sizing. -/
  | created {allocator : Allocator} {sizing : Sizing} {m : Map ks V} :
      create ks allocator sizing = .ok m → Reachable m
  /-- What a request leaves, however it ends. -/
  | responded {m : Map ks V} (c : Conditions) (request : Request K V) :
      Reachable m → Reachable (m.respond c request).map
  /-- What a step of a sweep leaves. -/
  | visited {m : Map ks V} (s : Sweep) (f : V → V) :
      Reachable m → Reachable { m with table := (Sweep.visit f (s, m.table)).2.2 }

namespace Reachable

theorem ofSizing (ks : Keying K) (sizing : Sizing) : (ofSizing ks sizing : Map ks V).Reachable :=
  .created (show create ks .generous sizing = .ok _ from rfl)

theorem empty (ks : Keying K) : (empty ks : Map ks V).Reachable :=
  .ofSizing ks .standard

theorem after {m : Map ks V} (h : m.Reachable) (run : List (Conditions × Request K V)) :
    (m.after run).Reachable :=
  after_of_respond (fun _ c request hm => hm.responded c request) h run

theorem wellFormed {m : Map ks V} (h : m.Reachable) : m.table.WellFormed ks := by
  induction h with
  | created h =>
    rw [eq_ofSizing_of_create h]
    exact wellFormed_ofSizing ks _
  | @responded m c request _ ih => exact (m.respond_step c request).wellFormed ih
  | visited s f _ ih => exact wellFormed_visit ih f s

/-- The watermark of a map that there can be is that of its buckets. -/
theorem gauged {m : Map ks V} (h : m.Reachable) : m.Gauged := by
  induction h with
  | created h =>
    rw [eq_ofSizing_of_create h]
    exact gauged_ofSizing ks _
  | @responded m c request _ ih => exact (m.respond_step c request).gauged ih
  | @visited m s f _ ih => exact ih.of_same rfl (bucketCount_visit f s m.table)

/-- Where the comparison is symmetric and transitive, no map that there can be has two
pairs with equal keys in one bucket. -/
theorem distinct {m : Map ks V} (h : m.Reachable) (hk : ks.PartialEquivalence) :
    m.table.Distinct ks := by
  induction h with
  | created h =>
    rw [eq_ofSizing_of_create h]
    exact Table.distinct_ofBuckets ks _
  | @responded m c request hm ih => exact (m.respond_step c request).distinct hm.wellFormed hk ih
  | visited s f hm ih => exact distinct_visit ih hk hm.wellFormed.linked f s

/-- What holds of the table of every map that there can be. -/
theorem sound {m : Map ks V} (h : m.Reachable) : m.table.Sound ks :=
  Table.sound_of_wellFormed h.wellFormed

end Reachable

end Map

/-- Numbers that all hash alike, and each of which is found equal to all larger
ones. -/
def Keying.atMost : Keying UInt64 where
  hash _ := 0
  equals stored given := stored ≤ given

/-- A map that cannot grow: its chain has a smaller number before a larger one. -/
def Map.ascending : Map Keying.atMost Nat :=
  (ofSizing Keying.atMost (Sizing.standard.withInitial 5)).after
    [({}, .put 9 9), ({}, .put 5 5), ({}, .remove 9), ({}, .put 3 3), ({}, .put 1 1)]

/-- A growth that stops at the second of three pairs leaves the third in a sound
table. -/
theorem Map.Reachable.sound_ascending :
    (ascending.respond {} (.put 0 0)).answer = .put (.faulted .duplicateKey) ∧
      (ascending.respond {} (.put 0 0)).map.pairs = [(1, 1)] ∧
      (ascending.respond {} (.put 0 0)).map.table.Sound Keying.atMost :=
  ⟨rfl, rfl, Reachable.sound (.responded _ _ (.after (.ofSizing _ _) _))⟩

end Chaining
