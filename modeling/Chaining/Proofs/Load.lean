import Chaining.Proofs.Growth
import Chaining.Proofs.Map.Room

/-!
# Load: no map is fuller than its watermark

A put that finds the pairs at the watermark grows the map before it looks for a place, so
what it goes on with is below the watermark (`Prepared.len_lt`) and takes one more pair.
No other request adds a pair. So the pairs of a map that there can be never pass its
watermark (`Reachable.loaded`), whatever the keying does and whatever is refused: a growth
that is not carried out leaves no room for the pair, and one that a fault breaks off
leaves fewer pairs in as many buckets.

A map keeps its watermark beside its table and computes it when it is made and when it has
grown. Nothing else changes either the watermark or the number of buckets, so the one is
always that of the other (`Step.gauged`).

With the watermark the count of pairs stays below 2^64, as does all that is computed on
the way (`Reachable.load_bounded`).
-/

namespace Chaining

open Table

universe u v

variable {K : Type u} {V : Type v} {ks : Keying K}

/-! ## Watermarks -/

/-- Nothing on the way to the watermark is larger than the bucket count. -/
theorem watermark_terms_le (buckets : Nat) :
    buckets / 10 * 7 ≤ buckets ∧ buckets % 10 * 7 ≤ 63 ∧ watermark buckets ≤ buckets := by
  rw [watermark_eq]
  omega

/-- With four times the buckets there is room for two pairs more than the watermark, be
it zero. -/
theorem succ_watermark_lt {buckets : Nat} (h : 0 < buckets) :
    watermark buckets + 1 < watermark (buckets * growthFactor) := by
  rw [watermark_eq, watermark_eq, growthFactor]
  omega

/-! ## Counts of pairs -/

namespace Table

theorem Moves.len_eq {t u : Table K V} {ps : List (K × V)} (h : Moves ks t ps u) :
    u.len = t.len + ps.length := by
  induction h with
  | nil t => rfl
  | @cons t u key value place ps _ hnone _ _ ih =>
    have hstore := len_store t place (key, value)
    rw [hnone, Option.toList_none, List.length_nil] at hstore
    rw [ih, List.length_cons]
    omega

/-- A pair taken out is counted off, and there was one to count. -/
theorem WellFormed.len_vacate {t : Table K V} (hw : t.WellFormed ks) {p : Pos} {kv : K × V}
    (hp : t.pair? p = some kv) : (t.vacate p).len + 1 = t.len := by
  have hpos := List.length_pos_of_mem (hw.linked.mem_pairs hp)
  have hlen := hw.len_eq
  rw [len_vacate_of_some t hp]
  omega

theorem len_vacate_le (t : Table K V) (p : Pos) : (t.vacate p).len ≤ t.len := by
  unfold vacate
  split
  next => exact Nat.le_refl _
  next => exact Nat.sub_le _ _

end Table

namespace Map

variable {m base after : Map ks V} {c : Conditions} {key : K} {value : V}
  {result : PutResult K V} {releases : List (Release K V)} {reservations : Nat}

/-! ## The invariant -/

/-- The watermark is that of the buckets, whose number has 64 bits, and the pairs have not
passed it. -/
structure Loaded (m : Map ks V) : Prop extends m.Gauged where
  bucketCount_lt : m.bucketCount < UInt64.size
  len_le : m.len ≤ m.watermark

theorem loaded_ofSizing (ks : Keying K) (sizing : Sizing) :
    (ofSizing ks sizing : Map ks V).Loaded where
  toGauged := gauged_ofSizing ks sizing
  bucketCount_lt := by
    have hcount : (ofSizing ks sizing : Map ks V).bucketCount = sizing.initial.toNat :=
      bucketCount_ofBuckets _
    rw [hcount]
    exact sizing.initial.toNat_lt
  len_le := Nat.zero_le _

/-- The same watermark, as many buckets and no more pairs. -/
theorem Loaded.of_len_le (hl : m.Loaded) (hmark : after.watermark = m.watermark)
    (hcount : after.bucketCount = m.bucketCount) (hlen : after.len ≤ m.len) : after.Loaded where
  toGauged := hl.toGauged.of_same hmark hcount
  bucketCount_lt := hcount ▸ hl.bucketCount_lt
  len_le := by
    rw [hmark]
    exact Nat.le_trans hlen hl.len_le

theorem Prepared.bucketCount_lt (h : m.Prepared c base reservations) (hl : m.Loaded) :
    base.bucketCount < UInt64.size := by
  cases h with
  | asIs _ => exact hl.bucketCount_lt
  | grown _ hg =>
    cases Grows.of_grow hg with
    | @moved buckets table _ _ hb _ hmove =>
      have hcount : table.bucketCount = buckets :=
        (moves_of_migrate hmove).bucketCount_eq.trans (bucketCount_ofBuckets buckets)
      show table.bucketCount < UInt64.size
      rw [hcount]
      exact (Sizing.grown_eq_some_iff.mp hb).2.1

/-- A grown map has room for one pair more than the put that has grown it brings. -/
theorem Spreads.succ_len_lt (h : m.Spreads base) (hg : base.Gauged) (hw : m.table.WellFormed ks)
    (hl : m.Loaded) : base.len + 1 < base.watermark := by
  have hroom := succ_watermark_lt hw.bucketCount_pos
  have hlen := hl.len_le
  rw [hl.watermark_eq] at hlen
  rw [h.len_eq, hg.watermark_eq, h.bucketCount_eq]
  exact Nat.lt_of_le_of_lt (Nat.succ_le_succ hlen) hroom

/-- A put that has come to look for a place finds the pairs below the watermark. -/
theorem Prepared.len_lt (h : m.Prepared c base reservations) (hw : m.table.WellFormed ks)
    (hl : m.Loaded) : base.len < base.watermark := by
  cases h with
  | asIs hlt => exact hlt
  | grown _ hg =>
    exact Nat.lt_of_succ_lt ((grow_grown_spreads hg hw).succ_len_lt (grow_grown_gauged hg) hw hl)

theorem Places.len_le (h : m.Places c reservations key value result after releases) :
    after.len ≤ m.len + 1 := by
  cases h with
  | @stored place _ _ =>
    have hstore := len_store m.table place (key, value)
    exact Nat.le.intro hstore
  | noSlot _ _ => exact Nat.le_succ _
  | reentered _ => exact Nat.le_succ _

theorem Puts.loaded (h : m.Puts c key value result after releases)
    (hw : m.table.WellFormed ks) (hl : m.Loaded) : after.Loaded := by
  cases h with
  | notGrown _ _ => exact hl
  | broken _ hg =>
    obtain ⟨n, rfl⟩ := grow_faulted hg
    exact hl.of_len_le rfl (Emptied.takeFirst m.table n).bucketCount_eq
      (Nat.le.intro (hw.len_takeFirst n))
  | @placed base _ _ _ _ hp hplaces =>
    have hcount := hplaces.bucketCount_eq
    refine ⟨(hp.gauged hl.toGauged).of_same hplaces.watermark_eq hcount,
      hcount ▸ hp.bucketCount_lt hl, ?_⟩
    rw [hplaces.watermark_eq]
    exact Nat.le_trans hplaces.len_le (hp.len_lt hw hl)

/-- Whatever a request comes to, it leaves the pairs at the watermark or below. -/
theorem Step.loaded {request : Request K V} {answer : Answer K V}
    (h : m.Step c request answer after releases) (hw : m.table.WellFormed ks)
    (hl : m.Loaded) : after.Loaded := by
  cases h with
  | put hp => exact hp.loaded hw hl
  | @modify _ f e _ =>
    exact hl.of_len_le rfl (bucketCount_mapValue m.table e.pos f)
      (Nat.le_of_eq (len_mapValue m.table e.pos f))
  | @remove _ e _ =>
    exact hl.of_len_le rfl (bucketCount_vacate m.table e.pos) (len_vacate_le m.table e.pos)
  | @steal _ e _ =>
    exact hl.of_len_le rfl (bucketCount_vacate m.table e.pos) (len_vacate_le m.table e.pos)
  | _ => exact hl

theorem Reachable.loaded (hm : m.Reachable) : m.Loaded := by
  induction hm with
  | created h =>
    rw [eq_ofSizing_of_create h]
    exact loaded_ofSizing ks _
  | @responded m c request hm ih => exact (m.respond_step c request).loaded hm.wellFormed ih
  | @visited m s f _ ih =>
    exact ih.of_len_le rfl (bucketCount_visit f s m.table) (Nat.le_of_eq (len_visit f s m.table))

/-! ## What the watermark bounds -/

/-- What a put does to the counts. -/
structure PutBounded (m : Map ks V) (c : Conditions) (after : Map ks V) : Prop where
  /-- It grows the map once, or not at all. -/
  bucketCount_eq :
    after.bucketCount = m.bucketCount ∨ after.bucketCount = m.bucketCount * growthFactor
  /-- It does so if it finds the pairs at the watermark, and the growth is carried out. -/
  grows_iff : after.bucketCount ≠ m.bucketCount ↔
    m.len = m.watermark ∧ ∃ base calls reservations, m.grow c = .grown base calls reservations
  /-- Then the pairs are below the new watermark, before the put brings its own and
  afterwards. -/
  len_lt : after.bucketCount ≠ m.bucketCount →
    m.len < after.watermark ∧ after.len < after.watermark
  len_le : after.len ≤ m.len + 1

/-- A put that leaves the buckets as they are. -/
theorem PutBounded.of_same (hcount : after.bucketCount = m.bucketCount)
    (hlen : after.len ≤ m.len + 1)
    (hnot : m.watermark ≤ m.len → ∀ base calls reservations,
      m.grow c ≠ .grown base calls reservations) : m.PutBounded c after where
  bucketCount_eq := Or.inl hcount
  grows_iff := by
    refine iff_of_false (absurd hcount) ?_
    rintro ⟨hfull, base, calls, reservations, hg⟩
    exact hnot (Nat.le_of_eq hfull.symm) base calls reservations hg
  len_lt h := absurd hcount h
  len_le := hlen

/-- A put that goes on in the grown map. -/
theorem PutBounded.of_grown {calls : Array (Call K)} (hw : m.table.WellFormed ks)
    (hl : m.Loaded) (hfull : m.watermark ≤ m.len) (hg : m.grow c = .grown base calls reservations)
    (hmark : after.watermark = base.watermark) (hcount : after.bucketCount = base.bucketCount)
    (hlen : after.len ≤ base.len + 1) : m.PutBounded c after := by
  have hspreads := grow_grown_spreads hg hw
  have hgrown : after.bucketCount = m.bucketCount * growthFactor :=
    hcount.trans hspreads.bucketCount_eq
  have hne : after.bucketCount ≠ m.bucketCount := by
    rw [hcount]
    exact Nat.ne_of_gt (grow_grown_bucketCount_lt hg hw)
  have hroom := hspreads.succ_len_lt (grow_grown_gauged hg) hw hl
  have hbase := hspreads.len_eq
  exact {
    bucketCount_eq := Or.inr hgrown
    grows_iff := iff_of_true hne ⟨Nat.le_antisymm hl.len_le hfull, _, _, _, hg⟩
    len_lt := fun _ => ⟨by omega, by omega⟩
    len_le := by omega }

theorem Puts.bounded (h : m.Puts c key value result after releases)
    (hw : m.table.WellFormed ks) (hl : m.Loaded) : m.PutBounded c after := by
  cases h with
  | notGrown _ hg =>
    refine .of_same rfl (Nat.le_succ _) fun _ base calls reservations hgrown => ?_
    rw [hg] at hgrown
    cases hgrown
  | broken _ hg =>
    have hnot : ∀ base calls reservations, m.grow c ≠ .grown base calls reservations := by
      intro base calls reservations hgrown
      rw [hg] at hgrown
      cases hgrown
    obtain ⟨n, rfl⟩ := grow_faulted hg
    exact .of_same (Emptied.takeFirst m.table n).bucketCount_eq
      (Nat.le_succ_of_le (Nat.le.intro (hw.len_takeFirst n))) fun _ => hnot
  | placed hp hplaces =>
    have hcount := hplaces.bucketCount_eq
    have hlen := hplaces.len_le
    cases hp with
    | asIs hlt => exact .of_same hcount hlen fun hfull => absurd hlt (Nat.not_lt.mpr hfull)
    | grown hfull hg => exact .of_grown hw hl hfull hg hplaces.watermark_eq hcount hlen

/-- What the watermark bounds in a map, and that nothing counted leaves 64 bits. -/
structure LoadBounded (m : Map ks V) : Prop where
  bucketCount_pos : 1 ≤ m.bucketCount
  bucketCount_lt : m.bucketCount < UInt64.size
  watermark_eq : m.watermark = 7 * m.bucketCount / 10
  /-- The two products and the sum that it is computed by. -/
  watermark_lt : m.bucketCount / 10 * 7 < UInt64.size ∧ m.bucketCount % 10 * 7 < UInt64.size ∧
    m.bucketCount / 10 * 7 + m.bucketCount % 10 * 7 / 10 < UInt64.size
  len_le : m.len ≤ m.watermark
  put : ∀ c key value, m.PutBounded c (m.put c key value).map
  /-- There is room to count one more pair. -/
  succ_len_lt : m.len + 1 < UInt64.size
  /-- The table that the map grows to counts the pairs moved so far. -/
  len_moves : ∀ buckets ps table, ps <+: m.pairs → Moves ks (ofBuckets buckets) ps table →
    table.len = ps.length ∧ table.len ≤ m.len
  /-- A pair taken out is counted off, and there was one to count. -/
  len_vacate : ∀ p kv, m.table.pair? p = some kv → (m.vacateAt p).len + 1 = m.len
  /-- So it is with the pairs taken out one by one, be it to move them or to let go of
  them. -/
  len_takeFirst : ∀ n, (m.table.takeFirst n).2.len + min n m.len = m.len
  /-- Each hash has a bucket in this table, and in the one that it grows to. -/
  bucketOf_lt : ∀ hash, m.table.bucketOf hash < m.bucketCount
  grown_pos : ∀ buckets, m.sizing.grown m.bucketCount = some buckets → 1 ≤ buckets

/-- No map that there can be is fuller than its watermark. -/
theorem Reachable.load_bounded (hm : m.Reachable) : m.LoadBounded where
  bucketCount_pos := hm.wellFormed.bucketCount_pos
  bucketCount_lt := hm.loaded.bucketCount_lt
  watermark_eq := hm.gauged.watermark_eq_div
  watermark_lt := by
    have hlt := hm.loaded.bucketCount_lt
    have hterms := watermark_terms_le m.bucketCount
    have hsum : Chaining.watermark m.bucketCount =
      m.bucketCount / 10 * 7 + m.bucketCount % 10 * 7 / 10 := rfl
    have hsize : 63 < UInt64.size := by decide
    omega
  len_le := hm.loaded.len_le
  put c key value := (m.put_puts c key value).bounded hm.wellFormed hm.loaded
  succ_len_lt := by
    have hlt := hm.loaded.bucketCount_lt
    have hlen := hm.loaded.len_le
    have hmark := hm.gauged.watermark_eq_div
    have hsize : UInt64.size = 2 ^ 64 := rfl
    omega
  len_moves buckets ps table hps hmoves := by
    have hlen : table.len = 0 + ps.length := hmoves.len_eq
    have hle := hps.length_le
    have hpairs : m.len = m.pairs.length := hm.wellFormed.len_eq
    omega
  len_vacate _ _ hp := hm.wellFormed.len_vacate hp
  len_takeFirst := hm.wellFormed.len_takeFirst
  bucketOf_lt := hm.wellFormed.bucketOf_lt
  grown_pos _ hb := Map.grown_pos hb hm.wellFormed.bucketCount_pos

/-- Two pairs in four buckets, grown from the one bucket to which zero is raised. -/
def brimful : Map (Keying.word (K := UInt64)) Nat :=
  (ofSizing Keying.word (Sizing.standard.withInitial 0)).after [({}, .put 0 10), ({}, .put 1 11)]

/-- The pairs are at the watermark, and a replacement grows the map all the same. -/
theorem Reachable.load_bounded_brimful :
    brimful.len = brimful.watermark ∧ (brimful.put {} 1 12).map.bucketCount = 16 ∧
      brimful.len < (brimful.put {} 1 12).map.watermark ∧ brimful.watermark = 7 * 4 / 10 := by
  have hm : brimful.Reachable := .after (.ofSizing _ _) _
  have hgrown : (brimful.put {} 1 12).map.bucketCount = 16 := by decide
  have hcount : brimful.bucketCount = 4 := by decide
  have hput := hm.load_bounded.put {} 1 12
  have hne : (brimful.put {} 1 12).map.bucketCount ≠ brimful.bucketCount := by
    rw [hgrown, hcount]
    decide
  refine ⟨(hput.grows_iff.mp hne).1, hgrown, (hput.len_lt hne).1, ?_⟩
  rw [hm.load_bounded.watermark_eq, hcount]

end Map

end Chaining
