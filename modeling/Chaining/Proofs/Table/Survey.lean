import Mathlib.Data.Finset.Card
import Mathlib.Data.Nat.Bitwise
import Chaining.Proofs.Table.WellFormed
import Chaining.Table.Migration

/-!
# The survey counts what collides

Before a table grows it is surveyed: each key marks the head that it will find in the new
table, or is counted if that head has its mark. A mark is one bit of a word, and to set it
leaves the marks of all other buckets, in the same word or not (`Marks.has_set`). So after
any keys the marks are the buckets that they hit, and whatever has not set a mark has been
counted (`Surveyed`, kept by each key in `Surveyed.cons`). The count is the number of keys
less that of the buckets which they hit (`survey_add_card`), whichever order the slots are
visited in, and each key finds its word among those there are (`wordOf_lt_size_survey`).
-/

namespace Chaining

/-! ## Marks -/

namespace Marks

theorem toNat_bitOf (bucket : Nat) : (bitOf bucket).toNat = 2 ^ (bucket % 64) := by
  have hlt : 2 ^ (bucket % 64) < 2 ^ 64 :=
    Nat.pow_lt_pow_right (by decide) (Nat.mod_lt _ (by decide))
  have hshift : (UInt64.ofNat (bucket % 64)).toNat % 64 = bucket % 64 := by
    rw [UInt64.toNat_ofNat']
    omega
  unfold bitOf
  rw [UInt64.toNat_shiftLeft, hshift, UInt64.toNat_one, Nat.one_shiftLeft, Nat.mod_eq_of_lt hlt]

theorem has_eq_testBit (m : Marks) (bucket : Nat) :
    m.has bucket = (m.words.getD (wordOf bucket) 0).toNat.testBit (bucket % 64) := by
  unfold has
  rw [Bool.eq_iff_iff, bne_iff_ne, Ne, ← UInt64.toNat_inj, UInt64.toNat_and, toNat_bitOf,
    Nat.and_two_pow]
  cases (m.words.getD (wordOf bucket) 0).toNat.testBit (bucket % 64) <;> simp

@[simp] theorem has_clear (buckets bucket : Nat) : (clear buckets).has bucket = false := by
  have hword : (clear buckets).words.getD (wordOf bucket) 0 = 0 := by
    rw [clear, Array.getD_eq_getD_getElem?, Array.getElem?_replicate]
    split <;> rfl
  rw [has_eq_testBit, hword, UInt64.toNat_zero, Nat.zero_testBit]

@[simp] theorem size_clear (buckets : Nat) : (clear buckets).words.size = (buckets + 63) / 64 :=
  Array.size_replicate

@[simp] theorem size_set (m : Marks) (bucket : Nat) : (m.set bucket).words.size = m.words.size :=
  Array.size_modify

/-- There is a word for each bucket. -/
theorem wordOf_lt {bucket buckets : Nat} (h : bucket < buckets) :
    wordOf bucket < (buckets + 63) / 64 := by
  unfold wordOf
  omega

/-- To mark one bucket marks no other. -/
theorem has_set {m : Marks} {bucket : Nat} (h : wordOf bucket < m.words.size) (other : Nat) :
    (m.set bucket).has other = (decide (bucket = other) || m.has other) := by
  have hget : (m.set bucket).words.getD (wordOf other) 0 =
      if wordOf bucket = wordOf other then m.words.getD (wordOf other) 0 ||| bitOf bucket
      else m.words.getD (wordOf other) 0 := by
    unfold set
    simp only [Array.getD_eq_getD_getElem?, Array.getElem?_modify]
    split
    next hword =>
      rw [Array.getElem?_eq_getElem (hword ▸ h)]
      rfl
    next => rfl
  rw [has_eq_testBit, has_eq_testBit, hget]
  split
  next hword =>
    -- marks in one word differ by their bits
    have hbit : bucket % 64 = other % 64 ↔ bucket = other := by
      unfold wordOf at hword
      omega
    rw [UInt64.toNat_or, Nat.testBit_or, toNat_bitOf, Nat.testBit_two_pow, Bool.or_comm]
    simp only [hbit]
  next hword =>
    have hne : bucket ≠ other := fun h => hword (congrArg wordOf h)
    rw [decide_eq_false hne, Bool.false_or]

end Marks

/-! ## The survey -/

namespace Table

universe u v

variable {K : Type u} {V : Type v} {ks : Keying K} {t : Table K V} {buckets : Nat} {keys : List K}

/-- The buckets, among so many, that some keys fall into. -/
def bucketsHit (ks : Keying K) (buckets : Nat) (keys : List K) : Finset Nat :=
  (keys.map fun key => (ks.hash key).toNat % buckets).toFinset

theorem bucketsHit_cons (ks : Keying K) (buckets : Nat) (key : K) (keys : List K) :
    bucketsHit ks buckets (key :: keys) =
      insert ((ks.hash key).toNat % buckets) (bucketsHit ks buckets keys) :=
  List.toFinset_cons

theorem bucketsHit_perm {keys' : List K} (h : keys.Perm keys') :
    bucketsHit ks buckets keys = bucketsHit ks buckets keys' :=
  List.toFinset_eq_of_perm _ _ (h.map _)

/-- Where a survey stands after some keys, the latest first. -/
structure Surveyed (ks : Keying K) (buckets : Nat) (keys : List K) (s : Marks × Nat) : Prop where
  /-- There is a bit for every bucket. -/
  size_eq : s.1.words.size = (buckets + 63) / 64
  marked : ∀ b, b < buckets → (s.1.has b = true ↔ b ∈ bucketsHit ks buckets keys)
  count : s.2 + (bucketsHit ks buckets keys).card = keys.length

theorem surveyed_nil (ks : Keying K) (buckets : Nat) :
    Surveyed ks buckets [] (Marks.clear buckets, 0) where
  size_eq := Marks.size_clear buckets
  marked b _ := by
    rw [Marks.has_clear]
    simp [bucketsHit]
  count := rfl

/-- A key whose bucket has its mark is counted; another one sets the mark. -/
theorem Surveyed.cons {s : Marks × Nat} (h : Surveyed ks buckets keys s)
    (hpos : 0 < buckets) (key : K) :
    Surveyed ks buckets (key :: keys) (surveyKey ks buckets s key) := by
  have hbucket : (ks.hash key).toNat % buckets < buckets := Nat.mod_lt _ hpos
  have hmarked := h.marked _ hbucket
  have hcount := h.count
  unfold surveyKey
  dsimp only
  split
  next htaken =>
    -- the bucket has been hit before, so the buckets stay as they are
    have hsame : bucketsHit ks buckets (key :: keys) = bucketsHit ks buckets keys := by
      rw [bucketsHit_cons, Finset.insert_eq_of_mem (hmarked.mp htaken)]
    refine ⟨h.size_eq, ?_, ?_⟩
    · rw [hsame]
      exact h.marked
    · rw [hsame, List.length_cons]
      omega
  next hfree =>
    have hnew : (ks.hash key).toNat % buckets ∉ bucketsHit ks buckets keys :=
      fun hmem => hfree (hmarked.mpr hmem)
    refine ⟨?_, ?_, ?_⟩
    · rw [Marks.size_set]
      exact h.size_eq
    · intro b hb
      have hword := h.size_eq ▸ Marks.wordOf_lt hbucket
      rw [bucketsHit_cons, Finset.mem_insert, Marks.has_set hword, Bool.or_eq_true,
        decide_eq_true_iff, h.marked b hb]
      exact or_congr_left eq_comm
    · rw [bucketsHit_cons, Finset.card_insert_of_notMem hnew, List.length_cons]
      omega

theorem Surveyed.foldl {s : Marks × Nat} (h : Surveyed ks buckets keys s)
    (hpos : 0 < buckets) (more : List K) :
    Surveyed ks buckets (more.reverse ++ keys) (more.foldl (surveyKey ks buckets) s) := by
  induction more generalizing keys s with
  | nil => exact h
  | cons key more ih =>
    rw [List.foldl_cons, List.reverse_cons, List.append_assoc]
    exact ih (h.cons hpos key)

theorem surveyed_survey (ks : Keying K) (hpos : 0 < buckets) (keys : List K) :
    Surveyed ks buckets keys.reverse (survey ks buckets keys) := by
  have hsurvey := (surveyed_nil ks buckets).foldl hpos keys
  rwa [List.append_nil] at hsurvey

/-- All keys but one for each bucket that they hit are counted. -/
theorem survey_add_card (ks : Keying K) (hpos : 0 < buckets) (keys : List K) :
    (survey ks buckets keys).2 + (bucketsHit ks buckets keys).card = keys.length := by
  have hcount := (surveyed_survey ks hpos keys).count
  rwa [bucketsHit_perm keys.reverse_perm, List.length_reverse] at hcount

/-- Wherever a survey has come to, a key finds the word of its mark. -/
theorem wordOf_lt_size_survey (ks : Keying K) (hpos : 0 < buckets) (seen : List K) (key : K) :
    Marks.wordOf ((ks.hash key).toNat % buckets) < (survey ks buckets seen).1.words.size := by
  rw [(surveyed_survey ks hpos seen).size_eq]
  exact Marks.wordOf_lt (Nat.mod_lt _ hpos)

/-- The keys slot by slot are those of the pairs. -/
theorem Linked.perm_keysBySlot (hl : t.Linked) : t.keysBySlot.Perm (t.pairs.map Prod.fst) := by
  have hkeys : t.keysBySlot =
      ((t.heads.toList ++ t.arena.toList).filterMap Slot.pair).map Prod.fst := by
    rw [List.map_filterMap]
    rfl
  rw [hkeys]
  exact (hl.perm_pairs.map Prod.fst).symm

/-- All pairs but one for each bucket that they hit will find their head taken. -/
theorem WellFormed.overflow_add_card (hw : t.WellFormed ks) (hpos : 0 < buckets) :
    t.overflow ks buckets + (bucketsHit ks buckets (t.pairs.map Prod.fst)).card = t.len := by
  have hperm := hw.linked.perm_keysBySlot
  have hcount := survey_add_card ks hpos t.keysBySlot
  rwa [bucketsHit_perm hperm, hperm.length_eq, List.length_map, ← hw.len_eq] at hcount

/-- No more pairs collide than there are. -/
theorem WellFormed.overflow_le (hw : t.WellFormed ks) (hpos : 0 < buckets) :
    t.overflow ks buckets ≤ t.len :=
  Nat.le.intro (hw.overflow_add_card hpos)

end Table

end Chaining
