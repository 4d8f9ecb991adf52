import Chaining.Proofs.Map.Reachable
import Chaining.Proofs.Table.Dense
import Chaining.Proofs.Table.Survey

/-!
# The survey provides for the move

A survey and a move go over the same pairs in different orders and by different means: the one
visits the slots as they were created and sets marks, the other follows the chains and looks
for a place in the new table. Yet they agree key by key. In a table without gaps every pair is
in an extension slot but one for each bucket that holds any, which is in the head
(`Dense.size_arena_add_card`). So the table that some pairs have been moved into has as many
extension slots as a survey of these pairs counts (`Moves.size_arena_eq`).

What a survey has counted it does not take back, and its count is the same in any order. So a
move never needs a slot more than were counted, and when all pairs are moved it has needed just
these (`Map.Reachable.provides`). That asks nothing of the keying, nor of the number of buckets
but that there be one.
-/

namespace Chaining

universe u v

variable {K : Type u} {V : Type v}

namespace Table

variable {ks : Keying K} {t u : Table K V} {buckets : Nat} {ps : List (K × V)}

/-! ## Surveys in other orders, and of fewer keys -/

theorem survey_perm (ks : Keying K) (hpos : 0 < buckets) {keys keys' : List K}
    (h : keys.Perm keys') : (survey ks buckets keys).2 = (survey ks buckets keys').2 := by
  have hcount := survey_add_card ks hpos keys
  have hcount' := survey_add_card ks hpos keys'
  rw [bucketsHit_perm h, h.length_eq] at hcount
  omega

theorem survey_le_append (ks : Keying K) (buckets : Nat) (keys more : List K) :
    (survey ks buckets keys).2 ≤ (survey ks buckets (keys ++ more)).2 := by
  unfold survey
  rw [List.foldl_append]
  generalize keys.foldl (surveyKey ks buckets) (Marks.clear buckets, 0) = s
  induction more generalizing s with
  | nil => exact Nat.le_refl _
  | cons key more ih =>
    refine Nat.le_trans ?_ (ih (surveyKey ks buckets s key))
    unfold surveyKey
    dsimp only
    split
    next => exact Nat.le_succ _
    next => exact Nat.le_refl _

/-! ## Extension slots of tables without gaps -/

/-- The heads that hold a pair, by bucket. -/
theorem occupiedHeads_eq (t : Table K V) : t.occupiedHeads =
    ((List.range t.bucketCount).filter fun b => (t.pair? (.head b)).isSome).length := by
  have hheads : (List.range t.bucketCount).filterMap (fun b => t.pair? (.head b)) =
      t.heads.toList.filterMap Slot.pair := filterMap_range t.heads Slot.pair
  have hlength := congrArg List.length hheads
  rw [List.length_filterMap_eq_countP, List.length_filterMap_eq_countP] at hlength
  rw [occupiedHeads, ← Array.countP_toList, ← List.countP_eq_length_filter]
  exact hlength.symm

theorem Dense.isSome_head_iff (hd : t.Dense) (hl : t.Linked) {b : Nat} (hb : b < t.bucketCount) :
    (t.pair? (.head b)).isSome ↔ t.pairsIn b ≠ [] := by
  have hmem : .head b ∈ t.chain b := (hl.head_mem_chain hb).mpr rfl
  constructor
  · intro hsome
    obtain ⟨kv, hkv⟩ := Option.isSome_iff_exists.mp hsome
    exact List.ne_nil_of_mem (List.mem_filterMap.mpr ⟨_, hmem, hkv⟩)
  · intro hne
    by_contra hnone
    rw [Bool.not_eq_true, Option.isSome_eq_false_iff, Option.isNone_iff_eq_none] at hnone
    -- the chain of a vacant head has no other slot
    obtain ⟨_, hchain⟩ := hd.eq_head_of_vacant hl hb hmem hnone
    refine hne ?_
    rw [pairsIn, hchain, List.filterMap_cons, hnone]
    rfl

/-- A bucket is hit by a key of the table if its head holds a pair. -/
theorem Dense.mem_bucketsHit (hd : t.Dense) (hw : t.WellFormed ks) {b : Nat} :
    b ∈ bucketsHit ks t.bucketCount (t.pairs.map Prod.fst) ↔
      b < t.bucketCount ∧ (t.pair? (.head b)).isSome := by
  unfold bucketsHit
  rw [List.mem_toFinset, List.map_map, List.mem_map]
  constructor
  · rintro ⟨kv, hkv, rfl⟩
    have hb := hw.bucketOf_lt (ks.hash kv.1)
    refine ⟨hb, (hd.isSome_head_iff hw.linked hb).mpr ?_⟩
    exact List.ne_nil_of_mem (hw.mem_pairsIn hkv)
  · rintro ⟨hb, hsome⟩
    obtain ⟨kv, hkv⟩ := List.exists_mem_of_ne_nil _ ((hd.isSome_head_iff hw.linked hb).mp hsome)
    exact ⟨kv, mem_pairs.mpr ⟨b, hb, hkv⟩, hw.placed b hb kv hkv⟩

/-- All pairs but one for each bucket that they hit are in extension slots, and there are no
other extension slots. -/
theorem Dense.size_arena_add_card (hd : t.Dense) (hw : t.WellFormed ks) :
    t.arena.size + (bucketsHit ks t.bucketCount (t.pairs.map Prod.fst)).card = t.len := by
  have hhit : bucketsHit ks t.bucketCount (t.pairs.map Prod.fst) =
      ((List.range t.bucketCount).filter fun b => (t.pair? (.head b)).isSome).toFinset := by
    ext b
    rw [hd.mem_bucketsHit hw]
    simp
  have hcard : (bucketsHit ks t.bucketCount (t.pairs.map Prod.fst)).card = t.occupiedHeads := by
    rw [hhit, List.toFinset_card_of_nodup (List.nodup_range.filter _), occupiedHeads_eq]
  have hlen := hw.len_eq.trans hw.linked.length_pairs
  have hextensions := t.tombstones_add_occupiedExtensions
  have hnone := hd.tombstones_eq
  omega

/-- Pairs moved into a new table have taken as many extension slots as a survey of them
counts. -/
theorem Moves.size_arena_eq (h : Moves ks (ofBuckets buckets) ps u) (hpos : 0 < buckets) :
    u.arena.size = (survey ks buckets (ps.map Prod.fst)).2 := by
  have hnew := wellFormed_ofBuckets (V := V) ks hpos
  have hw := h.wellFormed hnew
  have hperm := h.perm hnew
  rw [pairs_ofBuckets, List.append_nil] at hperm
  have hslots := (h.dense hnew (dense_ofBuckets buckets)).size_arena_add_card hw
  rw [h.bucketCount_eq, bucketCount_ofBuckets, bucketsHit_perm (hperm.map Prod.fst), hw.len_eq,
    hperm.length_eq] at hslots
  have hcount := survey_add_card ks hpos (ps.map Prod.fst)
  rw [List.length_map] at hcount
  omega

/-! ## What is provided -/

/-- A survey of the table for so many buckets counts exactly the extension slots that a move of
its pairs into these takes. -/
structure Provides (ks : Keying K) (t : Table K V) (buckets : Nat) : Prop where
  /-- It counts the pairs less the remainders that their hashes have. -/
  overflow_add_card : t.overflow ks buckets +
    ((t.pairs.map fun kv => (ks.hash kv.1).toNat % buckets).toFinset).card = t.pairs.length
  /-- So it does in whichever order it comes to the keys. -/
  survey_eq : ∀ keys, keys.Perm (t.pairs.map Prod.fst) →
    (survey ks buckets keys).2 = t.overflow ks buckets
  /-- The word in which a mark is looked up and set is one that there is, at each key and
  whatever keys have come before. -/
  wordOf_lt : ∀ seen key,
    Marks.wordOf ((ks.hash key).toNat % buckets) < (survey ks buckets seen).1.words.size
  /-- As long as none is displaced, the pairs moved so far have taken no more slots. -/
  size_arena_le : ∀ ps u, ps <+: t.drain.1.toList → Moves ks (ofBuckets buckets) ps u →
    u.arena.size ≤ t.overflow ks buckets
  /-- All of them together have taken just as many. -/
  size_arena_eq : ∀ u, Moves ks (ofBuckets buckets) t.drain.1.toList u →
    u.arena.size = t.overflow ks buckets
  /-- So has a migration that finishes, whatever calls it has made. -/
  migrated : ∀ reentry taken calls u calls',
    migrate ks reentry (ofBuckets buckets) taken calls t.drain.1.toList = .finished u calls' →
      u.arena.size = t.overflow ks buckets

theorem provides_of_linked (hl : t.Linked) (ks : Keying K) (hpos : 0 < buckets) :
    t.Provides ks buckets := by
  have hperm := hl.perm_keysBySlot
  have hsurvey : ∀ keys, keys.Perm (t.pairs.map Prod.fst) →
      (survey ks buckets keys).2 = t.overflow ks buckets :=
    fun keys hkeys => survey_perm ks hpos (hkeys.trans hperm.symm)
  have hmoved : ∀ u, Moves ks (ofBuckets buckets) t.drain.1.toList u →
      u.arena.size = t.overflow ks buckets := by
    intro u h
    rw [h.size_arena_eq hpos, hl.drain_toList]
    exact hsurvey _ (List.Perm.refl _)
  exact {
    overflow_add_card := by
      have hcount := survey_add_card ks hpos (t.pairs.map Prod.fst)
      rw [hsurvey _ (List.Perm.refl _), bucketsHit, List.map_map, List.length_map] at hcount
      exact hcount
    survey_eq := hsurvey
    wordOf_lt := wordOf_lt_size_survey ks hpos
    size_arena_le := by
      rintro ps u ⟨rest, hrest⟩ h
      have hle := survey_le_append ks buckets (ps.map Prod.fst) (rest.map Prod.fst)
      rw [← List.map_append, hrest, hl.drain_toList, hsurvey _ (List.Perm.refl _)] at hle
      exact h.size_arena_eq hpos ▸ hle
    size_arena_eq := hmoved
    migrated := fun _ _ _ u _ h => hmoved u (moves_of_migrate h) }

end Table

namespace Map

open Table

variable {ks : Keying K} {m : Map ks V}

/-- What is reserved for a move of the pairs of a map that there can be, by whichever keying
and into however many buckets, is what it takes. -/
theorem Reachable.provides (hm : m.Reachable) (other : Keying K) {buckets : Nat}
    (hpos : 0 < buckets) : m.table.Provides other buckets :=
  provides_of_linked hm.wellFormed.linked other hpos

/-- Ten buckets with keys about the end of the first word of marks, one chain with a vacant
slot. -/
def straddling : Map (Keying.word : Keying UInt64) Nat :=
  (ofSizing Keying.word (Sizing.standard.withInitial 10)).after
    [({}, .put 0 1), ({}, .put 64 2), ({}, .put 130 3), ({}, .put 60 4), ({}, .put 129 5),
      ({}, .put 63 6), ({}, .remove 60)]

/-- In sixty-five buckets, marked in two words, the five keys that are left fall into three:
the first of the first word, its last, and the one of the second. -/
theorem Reachable.provides_straddling :
    straddling.table.overflow Keying.word 65 = 2 ∧
      ∃ u calls, migrate Keying.word .never (ofBuckets 65) 0 #[] straddling.table.drain.1.toList =
        .finished u calls ∧ u.arena.size = 2 := by
  have hm : straddling.Reachable := .after (.ofSizing _ _) _
  have h : straddling.table.Provides Keying.word 65 := hm.provides Keying.word (by decide)
  have hoverflow : straddling.table.overflow Keying.word 65 = 2 := by decide
  refine ⟨hoverflow, _, _, rfl, ?_⟩
  rw [h.migrated .never 0 #[] _ _ rfl, hoverflow]

end Map

end Chaining
