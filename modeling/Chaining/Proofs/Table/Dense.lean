import Chaining.Proofs.Table.Migration

/-!
# Tables without gaps

In a table from which no pair has been taken out, a slot is vacant only if it is
the head of an empty bucket: `Dense`. A new table is dense, and to store a pair
keeps it so. The first vacant slot of a chain is then its end as much as a new slot
behind it is, so that a pair for which none gives way comes last in its bucket
(`Dense.exchange_store`).

Moves into a new table therefore list in each bucket the pairs that fall into it,
in the order in which they were moved (`Moves.pairsIn_eq`).
-/

namespace Chaining.Table

universe u v

variable {K : Type u} {V : Type v} {ks : Keying K} {t u : Table K V}

/-- Every slot that a link leads to, or that links on itself, holds a pair. -/
structure Dense (t : Table K V) : Prop where
  extension : ∀ i, i < t.arena.size → (t.pair? (.extension i)).isSome
  head : ∀ b i, t.next? (.head b) = some i → (t.pair? (.head b)).isSome

theorem dense_ofBuckets (n : Nat) : (ofBuckets n : Table K V).Dense where
  extension _ hi := absurd hi (Nat.not_lt_zero _)
  head _ _ hn := absurd ((linked_ofBuckets n).lt_size hn) (Nat.not_lt_zero _)

/-- A slot that holds a pair holds one after any pair is stored. -/
theorem isSome_pair?_store {q : Pos} (hq : (t.pair? q).isSome) (place : Placement K V)
    (pair : K × V) : ((t.store place pair).pair? q).isSome := by
  obtain ⟨kv, hkv⟩ := Option.isSome_iff_exists.mp hq
  have hset : ∀ p, ((t.setPair p (some pair)).pair? q).isSome := by
    intro p
    by_cases hp : p = q
    · rw [hp, pair?_setPair_self (has_of_pair? hkv)]
      rfl
    · rwa [pair?_setPair, if_neg hp]
  cases place with
  | replace p old => exact hset p
  | reuse p =>
    rw [store, pair?_fill]
    exact hset p
  | append last =>
    rw [store, pair?_append]
    split
    next => rfl
    next => exact hq

namespace Dense

variable {key : K} {b : Nat} {place : Placement K V}

theorem store (hd : t.Dense) (hl : t.Linked) (hb : b < t.bucketCount)
    (hf : Fits ks t key (t.chain b) place) (pair : K × V) : (t.store place pair).Dense := by
  have hkept : ∀ q, (t.pair? q).isSome → ((t.store place pair).pair? q).isSome :=
    fun q hq => isSome_pair?_store hq place pair
  cases hf with
  | @replace p old _ _ _ _ _ _ =>
    refine ⟨fun i hi => hkept _ (hd.extension i ?_), fun c i hn => hkept _ (hd.head c i ?_)⟩
    · rwa [Table.store, size_arena_setPair] at hi
    · rwa [Table.store, next?_setPair] at hn
  | @reuse p _ _ _ _ _ _ =>
    refine ⟨fun i hi => hkept _ (hd.extension i ?_), fun c i hn => hkept _ (hd.head c i ?_)⟩
    · rwa [Table.store, size_arena_fill] at hi
    · rwa [Table.store, next?_fill] at hn
  | @append last front hs hfull _ =>
    have hmem : last ∈ t.chain b := by rw [hs]; simp
    have hlast := (hl.path_chain hb).has hmem
    constructor
    · intro i hi
      rw [Table.store, size_arena_append] at hi
      rcases Nat.lt_succ_iff_lt_or_eq.mp hi with hi | rfl
      · exact hkept _ (hd.extension i hi)
      · rw [Table.store, pair?_append, if_pos rfl]
        rfl
    · -- a head that links on only now is the end of a chain without a vacant slot
      intro c i hn
      rw [Table.store, next?_append hlast] at hn
      split at hn
      next hc => exact hkept _ (hc ▸ Option.isSome_iff_ne_none.mpr (hfull last hmem))
      next => exact hkept _ (hd.head c i hn)

/-- A vacant slot is the head of an empty bucket. -/
theorem eq_head_of_vacant (hd : t.Dense) (hl : t.Linked) (hb : b < t.bucketCount) {p : Pos}
    (hp : p ∈ t.chain b) (hv : t.pair? p = none) : p = .head b ∧ t.chain b = [.head b] := by
  cases p with
  | extension i =>
    have hi := has_extension.mp ((hl.path_chain hb).has hp)
    have hsome := hd.extension i hi
    rw [hv] at hsome
    cases hsome
  | head c =>
    obtain rfl := (hl.head_mem_chain hb).mp hp
    refine ⟨rfl, ?_⟩
    cases hn : t.next? (.head c) with
    | none => rw [chain, chainFrom, hn]
    | some i =>
      have hsome := hd.head c i hn
      rw [hv] at hsome
      cases hsome

/-- A pair for which none gives way comes behind all others of its bucket. -/
theorem exchange_store (hd : t.Dense) (hl : t.Linked) (hb : b < t.bucketCount)
    (hf : Fits ks t key (t.chain b) place) (hp : place.displaced = none) (pair : K × V) :
    Exchange t (t.store place pair) b (t.pairsIn b) none (some pair) [] := by
  cases hf with
  | replace _ _ _ _ => cases hp
  | @reuse p front back hs hv _ _ =>
    have hmem : p ∈ t.chain b := by rw [hs]; simp
    obtain ⟨rfl, hchain⟩ := hd.eq_head_of_vacant hl hb hmem hv
    have hin : t.pairsIn b = [] := by simp [pairsIn, hchain, hv]
    have hfront : [Pos.head b] = [] ++ Pos.head b :: [] := rfl
    rw [hin]
    exact hl.exchange_fill hb (hchain.trans hfront) hv pair
  | append hs _ _ => exact hl.exchange_append hb hs pair

theorem tombstones_eq (hd : t.Dense) : t.tombstones = 0 := by
  unfold tombstones
  rw [Array.countP_eq_zero]
  intro s hs
  obtain ⟨i, hi, rfl⟩ := Array.mem_iff_getElem.mp hs
  have hsome := hd.extension i hi
  simp only [pair?, slot?, Array.getElem?_eq_getElem hi, Option.bind_some] at hsome
  rw [Option.isNone_eq_false_iff.mpr hsome]
  exact Bool.false_ne_true

end Dense

/-- What the slots of a chain without gaps hold: each one pair, but the head of an
empty bucket none. -/
def slotsOf : List (K × V) → List (Option (K × V))
  | [] => [none]
  | kvs => kvs.map some

theorem Dense.map_chain (hd : t.Dense) (hl : t.Linked) {b : Nat} (hb : b < t.bucketCount) :
    (t.chain b).map t.pair? = slotsOf (t.pairsIn b) := by
  cases hv : t.pair? (.head b) with
  | none =>
    have hmem := (hl.head_mem_chain hb).mpr (Eq.refl b)
    obtain ⟨_, hchain⟩ := hd.eq_head_of_vacant hl hb hmem hv
    simp [pairsIn, hchain, hv, slotsOf]
  | some kv =>
    have hfull : ∀ p ∈ t.chain b, (t.pair? p).isSome := by
      intro p hp
      cases hn : t.pair? p with
      | some _ => rfl
      | none =>
        obtain ⟨rfl, _⟩ := hd.eq_head_of_vacant hl hb hp hn
        rw [hv] at hn
        cases hn
    have hmap : (t.chain b).map t.pair? = (t.pairsIn b).map some := by
      unfold pairsIn
      generalize t.chain b = ps at hfull
      induction ps with
      | nil => rfl
      | cons p ps ih =>
        obtain ⟨x, hx⟩ := Option.isSome_iff_exists.mp (hfull p List.mem_cons_self)
        rw [List.map_cons, List.filterMap_cons, hx]
        exact congrArg (some x :: ·) (ih fun q hq => hfull q (List.mem_cons_of_mem _ hq))
    have hne : t.pairsIn b ≠ [] := by
      refine List.ne_nil_of_mem (List.mem_filterMap.mpr ⟨.head b, ?_, hv⟩)
      exact (hl.head_mem_chain hb).mpr rfl
    rw [hmap]
    cases hin : t.pairsIn b with
    | nil => exact absurd hin hne
    | cons x xs => rfl

namespace Moves

variable {ps : List (K × V)}

theorem dense (h : Moves ks t ps u) (hw : t.WellFormed ks) (hd : t.Dense) : u.Dense := by
  induction h with
  | nil _ => exact hd
  | @cons t u key value place ps hl _ _ _ ih =>
    have hf := hl ▸ locate_fits ks t (t.bucketOf (ks.hash key)) key
    exact ih (hw.store hf value) (hd.store hw.linked (hw.bucketOf_lt (ks.hash key)) hf _)

/-- Pairs moved into a table without gaps come behind those that are in their
buckets, in the order in which they are moved. -/
theorem pairsIn_eq (h : Moves ks t ps u) (hw : t.WellFormed ks) (hd : t.Dense) {b : Nat}
    (hb : b < t.bucketCount) :
    u.pairsIn b = t.pairsIn b ++ ps.filter fun kv => t.bucketOf (ks.hash kv.1) = b := by
  induction h with
  | nil _ => simp
  | @cons t u key value place ps hl hp _ _ ih =>
    have hf := hl ▸ locate_fits ks t (t.bucketOf (ks.hash key)) key
    have hkey := hw.bucketOf_lt (ks.hash key)
    have hx := hd.exchange_store hw.linked hkey hf hp (key, value)
    have hgo := ih (hw.store hf value) (hd.store hw.linked hkey hf _)
      (by rwa [bucketCount_store])
    have hbucket : ∀ hash, (t.store place (key, value)).bucketOf hash = t.bucketOf hash := by
      intro hash
      rw [bucketOf, bucketOf, bucketCount_store]
    rw [hgo, List.filter_cons]
    simp only [hbucket]
    by_cases hkb : t.bucketOf (ks.hash key) = b
    · subst hkb
      rw [hx.pairsIn_new]
      simp
    · rw [hx.others b hb (Ne.symm hkb)]
      simp [hkb]

end Moves

/-- The pairs with a property that only pairs of one bucket have. -/
theorem WellFormed.filter_pairs (hw : t.WellFormed ks) {b : Nat} (hb : b < t.bucketCount)
    {P : K × V → Bool} (hP : ∀ kv, P kv = true → t.bucketOf (ks.hash kv.1) = b) :
    t.pairs.filter P = (t.pairsIn b).filter P := by
  have hnone : ∀ bs : List Nat, (∀ c ∈ bs, c < t.bucketCount ∧ c ≠ b) →
      (bs.flatMap t.pairsIn).filter P = [] := by
    intro bs hbs
    rw [List.filter_eq_nil_iff]
    intro kv hkv hkvP
    obtain ⟨c, hc, hin⟩ := List.mem_flatMap.mp hkv
    have hplace := hw.placed c (hbs c hc).1 kv hin
    exact (hbs c hc).2 (hplace.symm.trans (hP kv hkvP))
  have hbefore : (t.pairsBefore b).filter P = [] := by
    refine hnone _ fun c hc => ?_
    have hc := List.mem_range.mp hc
    exact ⟨Nat.lt_trans hc hb, Nat.ne_of_lt hc⟩
  have hbehind : (t.pairsBehind (b + 1)).filter P = [] := by
    refine hnone _ fun c hc => ?_
    obtain ⟨hlow, hhigh⟩ := List.mem_range'_1.mp hc
    exact ⟨by omega, by omega⟩
  rw [pairs_eq_append hb, List.filter_append, List.filter_append, hbefore, hbehind]
  simp

/-- The pairs of a table, moved into one with a multiple of its buckets: what is in a
bucket there has been in the one of the same remainder, in the same order. -/
theorem Moves.pairsIn_eq_filter {n j : Nat} (h : Moves ks (ofBuckets n) t.pairs u)
    (hw : t.WellFormed ks) (hdvd : t.bucketCount ∣ n) (hj : j < n) :
    u.pairsIn j =
      (t.pairsIn (j % t.bucketCount)).filter fun kv => (ks.hash kv.1).toNat % n = j := by
  have hnew := wellFormed_ofBuckets (V := V) ks (Nat.zero_lt_of_lt hj)
  have hin := h.pairsIn_eq hnew (dense_ofBuckets n) (b := j) (by rwa [bucketCount_ofBuckets])
  rw [pairsIn_ofBuckets, List.nil_append] at hin
  simp only [bucketOf, bucketCount_ofBuckets] at hin
  rw [hin]
  refine hw.filter_pairs (Nat.mod_lt _ hw.bucketCount_pos) fun kv hkv => ?_
  rw [bucketOf, ← Nat.mod_mod_of_dvd _ hdvd, of_decide_eq_true hkv]

end Chaining.Table
