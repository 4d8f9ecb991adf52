import Chaining.Proofs.Table.Placement

/-!
# Well-formed tables

`WellFormed` holds of every table that the library makes, for any keying: there
is a bucket, the links are in order, each pair is in the bucket of its key's
hash, and the count is the number of pairs. The comparison of keys does not
occur in it, so nothing is asked of it. An exchange that brings a pair only to
the bucket of its hash keeps the invariant (`Exchange.wellFormed`); with that
every operation on a table does.

Taking pairs out one by one is a row of exchanges (`takeAlong_toList`), so to
drain a table is to read its pairs in order (`Linked.drain_toList`).
-/

namespace Chaining.Table

universe u v

variable {K : Type u} {V : Type v} {ks : Keying K} {t u : Table K V}

/-- What a table is after any operations, whatever its keying does. -/
structure WellFormed (ks : Keying K) (t : Table K V) : Prop where
  bucketCount_pos : 0 < t.bucketCount
  linked : t.Linked
  /-- A pair is in the bucket of its key's hash. -/
  placed : ∀ b, b < t.bucketCount → ∀ kv ∈ t.pairsIn b, t.bucketOf (ks.hash kv.1) = b
  len_eq : t.len = t.pairs.length

theorem WellFormed.bucketOf_lt (hw : t.WellFormed ks) (hash : UInt64) :
    t.bucketOf hash < t.bucketCount :=
  Nat.mod_lt _ hw.bucketCount_pos

theorem WellFormed.mem_pairsIn (hw : t.WellFormed ks) {kv : K × V} (h : kv ∈ t.pairs) :
    kv ∈ t.pairsIn (t.bucketOf (ks.hash kv.1)) := by
  obtain ⟨b, hb, hkv⟩ := mem_pairs.mp h
  rwa [hw.placed b hb kv hkv]

theorem wellFormed_ofBuckets (ks : Keying K) {n : Nat} (hn : 0 < n) :
    (ofBuckets n : Table K V).WellFormed ks where
  bucketCount_pos := by simpa using hn
  linked := linked_ofBuckets n
  placed := by
    intro b _ kv hkv
    rw [pairsIn_ofBuckets] at hkv
    cases hkv
  len_eq := by
    rw [pairs_ofBuckets]
    rfl

/-- An exchange keeps a table well-formed if what comes is in its bucket. -/
theorem Exchange.wellFormed {b : Nat} {before after : List (K × V)} {old new : Option (K × V)}
    (h : Exchange t u b before old new after) (hw : t.WellFormed ks) (hl : u.Linked)
    (hlen : u.len + old.toList.length = t.len + new.toList.length)
    (hnew : ∀ kv, new = some kv → t.bucketOf (ks.hash kv.1) = b) : u.WellFormed ks where
  bucketCount_pos := by
    rw [h.bucketCount_eq]
    exact hw.bucketCount_pos
  linked := hl
  placed := by
    intro c hc kv hkv
    rw [h.bucketCount_eq] at hc
    have hbucket : u.bucketOf (ks.hash kv.1) = t.bucketOf (ks.hash kv.1) := by
      unfold bucketOf
      rw [h.bucketCount_eq]
    rw [hbucket]
    by_cases hcb : c = b
    · -- in this bucket a pair stayed or is the new one
      subst hcb
      have hold := hw.placed c hc kv
      rw [h.pairsIn_old] at hold
      rw [h.pairsIn_new] at hkv
      rcases List.mem_append.mp hkv with hkv | hkv
      · rcases List.mem_append.mp hkv with hkv | hkv
        · exact hold (List.mem_append_left _ (List.mem_append_left _ hkv))
        · exact hnew kv (Option.mem_toList.mp hkv)
      · exact hold (List.mem_append_right _ hkv)
    · rw [h.others c hc hcb] at hkv
      exact hw.placed c hc kv hkv
  len_eq := by
    have hperm := h.length_pairs
    have hlen' := hw.len_eq
    omega

/-! ## The operations keep it -/

theorem Linked.exists_split (hl : t.Linked) {p : Pos} (hp : t.Has p) :
    ∃ b front back, b < t.bucketCount ∧ t.chain b = front ++ p :: back := by
  obtain ⟨b, hb, hpb⟩ := hl.exists_chain hp
  obtain ⟨front, back, hs⟩ := List.append_of_mem hpb
  exact ⟨b, front, back, hb, hs⟩

theorem WellFormed.store (hw : t.WellFormed ks) {key : K} {place : Placement K V}
    (hf : Fits ks t key (t.chain (t.bucketOf (ks.hash key))) place) (value : V) :
    (t.store place (key, value)).WellFormed ks := by
  have hb := hw.bucketOf_lt (ks.hash key)
  obtain ⟨before, after, h, _⟩ := hw.linked.exchange_store hb hf (key, value)
  refine h.wellFormed hw (hw.linked.store hb hf _) (len_store t place _) ?_
  intro kv hkv
  cases hkv
  rfl

theorem vacate_of_none (t : Table K V) {p : Pos} (hp : t.pair? p = none) : t.vacate p = t := by
  rw [Table.vacate, hp]

theorem len_vacate_of_some (t : Table K V) {p : Pos} {kv : K × V} (hp : t.pair? p = some kv) :
    (t.vacate p).len = t.len - 1 := by
  rw [Table.vacate, hp]

theorem Linked.vacate (hl : t.Linked) (p : Pos) : (t.vacate p).Linked :=
  (differsAt_vacate t p).linked hl

theorem WellFormed.vacate (hw : t.WellFormed ks) (p : Pos) : (t.vacate p).WellFormed ks := by
  cases hp : t.pair? p with
  | none => rwa [t.vacate_of_none hp]
  | some pair =>
    obtain ⟨b, front, back, hb, hs⟩ := hw.linked.exists_split (has_of_pair? hp)
    have h := hw.linked.exchange_vacate hb hs
    have hpos := h.length_pairs
    have hlen := t.len_vacate_of_some hp
    have hold := hw.len_eq
    rw [hp] at h hpos
    refine h.wellFormed hw (hw.linked.vacate p) ?_ (fun kv hkv => by cases hkv)
    simp only [Option.toList_some, Option.toList_none, List.length_cons, List.length_nil]
      at hpos ⊢
    omega

theorem mapValue_of_none (t : Table K V) {p : Pos} (hp : t.pair? p = none) (f : V → V) :
    (t.mapValue p f).bucketCount = t.bucketCount ∧
      ∀ b, (t.mapValue p f).pairsIn b = t.pairsIn b := by
  refine ⟨bucketCount_mapValue t p f, fun b => ?_⟩
  refine pairsIn_congr (size_arena_mapValue t p f) (next?_mapValue t p · f) (fun q => ?_) b
  rw [pair?_mapValue]
  split
  next hq => rw [← hq, hp, Option.map_none]
  next => rfl

theorem Linked.mapValue (hl : t.Linked) (p : Pos) (f : V → V) : (t.mapValue p f).Linked :=
  (differsAt_mapValue t p f).linked hl

theorem WellFormed.mapValue (hw : t.WellFormed ks) (p : Pos) (f : V → V) :
    (t.mapValue p f).WellFormed ks := by
  have hl := hw.linked.mapValue p f
  have hlen := len_mapValue t p f
  cases hp : t.pair? p with
  | none =>
    obtain ⟨hcount, hin⟩ := t.mapValue_of_none hp f
    refine ⟨by rw [hcount]; exact hw.bucketCount_pos, hl, fun b hb kv hkv => ?_, ?_⟩
    · rw [hin] at hkv
      rw [bucketOf, hcount]
      exact hw.placed b (hcount ▸ hb) kv hkv
    · rw [hlen, pairs_congr hcount hin]
      exact hw.len_eq
  | some old =>
    obtain ⟨b, front, back, hb, hs⟩ := hw.linked.exists_split (has_of_pair? hp)
    have h := hw.linked.exchange_mapValue hb hs f
    rw [hp] at h
    refine h.wellFormed hw hl (by rw [hlen]; rfl) ?_
    -- the key that comes is the key that goes
    intro kv hkv
    cases hkv
    refine hw.placed b hb old ?_
    rw [h.pairsIn_old]
    simp

/-! ## Taking pairs out -/

theorem WellFormed.takeAlong (hw : t.WellFormed ks) (taken : Array (K × V)) (most : Nat)
    (ps : List Pos) : (takeAlong taken t most ps).2.WellFormed ks := by
  induction ps generalizing t taken most with
  | nil => cases most <;> exact hw
  | cons p ps ih =>
    cases most with
    | zero => exact hw
    | succ most =>
      unfold Table.takeAlong
      split
      next => exact ih hw taken (most + 1)
      next pair _ => exact ih (hw.vacate p) (taken.push pair) most

theorem filterMap_pair?_vacate (t : Table K V) {p : Pos} {ps : List Pos} (hp : p ∉ ps) :
    ps.filterMap (t.vacate p).pair? = ps.filterMap t.pair? := by
  refine List.filterMap_congr fun q hq => ?_
  rw [pair?_vacate, if_neg]
  intro hpq
  exact hp (hpq ▸ hq)

/-- Along positions of which none comes twice, what is taken out is what stands
there at the start. -/
theorem takeAlong_toList (taken : Array (K × V)) (t : Table K V) (most : Nat) {ps : List Pos}
    (hps : ps.Nodup) :
    (takeAlong taken t most ps).1.toList =
      taken.toList ++ (ps.filterMap t.pair?).take most := by
  induction ps generalizing t taken most with
  | nil => cases most <;> simp [takeAlong]
  | cons p ps ih =>
    obtain ⟨hp, hps⟩ := List.nodup_cons.mp hps
    cases most with
    | zero => simp [takeAlong]
    | succ most =>
      unfold takeAlong
      rw [List.filterMap_cons]
      split
      next hn => rw [hn, ih taken t (most + 1) hps]
      next pair hpair =>
        -- the slot made vacant does not come again
        rw [hpair, ih (taken.push pair) (t.vacate p) most hps, filterMap_pair?_vacate t hp]
        simp

theorem pair?_takeAlong_of_notMem (taken : Array (K × V)) (t : Table K V) (most : Nat) {p : Pos}
    {ps : List Pos} (hp : p ∉ ps) : (takeAlong taken t most ps).2.pair? p = t.pair? p := by
  induction ps generalizing t taken most with
  | nil => cases most <;> rfl
  | cons q ps ih =>
    obtain ⟨hpq, hps⟩ := not_or.mp (mt List.mem_cons.mpr hp)
    cases most with
    | zero => rfl
    | succ most =>
      unfold Table.takeAlong
      split
      next => exact ih taken t (most + 1) hps
      next pair _ =>
        rw [ih (taken.push pair) (t.vacate q) most hps, pair?_vacate, if_neg (Ne.symm hpq)]

/-- Along positions of which none comes twice, the pairs behind those taken out stay. -/
theorem filterMap_pair?_takeAlong (taken : Array (K × V)) (t : Table K V) (most : Nat)
    {ps : List Pos} (hps : ps.Nodup) :
    ps.filterMap (takeAlong taken t most ps).2.pair? = (ps.filterMap t.pair?).drop most := by
  induction ps generalizing t taken most with
  | nil => simp
  | cons p ps ih =>
    obtain ⟨hp, hps⟩ := List.nodup_cons.mp hps
    cases most with
    | zero => rfl
    | succ most =>
      unfold Table.takeAlong
      split
      next hn =>
        have hsame := pair?_takeAlong_of_notMem taken t (most + 1) hp
        rw [List.filterMap_cons_none (hsame.trans hn), List.filterMap_cons_none hn,
          ih taken t (most + 1) hps]
      next pair hpair =>
        have hvacant : (t.vacate p).pair? p = none := by
          rw [pair?_vacate, if_pos rfl]
        have hsame := pair?_takeAlong_of_notMem (taken.push pair) (t.vacate p) most hp
        rw [List.filterMap_cons_none (hsame.trans hvacant), List.filterMap_cons_some hpair,
          ih (taken.push pair) (t.vacate p) most hps, filterMap_pair?_vacate t hp]
        rfl

/-- Each pair taken out is counted off, and the count never falls below zero. -/
theorem len_takeAlong (taken : Array (K × V)) (t : Table K V) (most : Nat) {ps : List Pos}
    (hps : ps.Nodup) (hlen : (ps.filterMap t.pair?).length ≤ t.len) :
    (takeAlong taken t most ps).2.len + min most (ps.filterMap t.pair?).length = t.len := by
  induction ps generalizing t taken most with
  | nil => cases most <;> simp [takeAlong]
  | cons p ps ih =>
    obtain ⟨hp, hps⟩ := List.nodup_cons.mp hps
    cases most with
    | zero => simp [takeAlong]
    | succ most =>
      unfold takeAlong
      rw [List.filterMap_cons] at hlen ⊢
      split
      next hn =>
        rw [hn] at hlen ⊢
        exact ih taken t (most + 1) hps hlen
      next pair hpair =>
        rw [hpair, List.length_cons] at hlen ⊢
        have hrest := filterMap_pair?_vacate t hp
        have hone := len_vacate_of_some t hpair
        have hgo := ih (taken.push pair) (t.vacate p) most hps (by rw [hrest]; omega)
        rw [hrest] at hgo
        omega

/-- To drain a table is to read its pairs in the order of traversal. -/
theorem Linked.drain_toList (hl : t.Linked) : t.drain.1.toList = t.pairs := by
  unfold drain takeFirst
  rw [takeAlong_toList _ _ _ hl.nodup_positions]
  have hlen : t.pairs.length ≤ t.positions.length := List.length_filterMap_le _ _
  exact (List.nil_append _).trans (List.take_of_length_le hlen)

theorem WellFormed.len_takeFirst (hw : t.WellFormed ks) (n : Nat) :
    (t.takeFirst n).2.len + min n t.len = t.len := by
  have hlen := len_takeAlong #[] t n hw.linked.nodup_positions (Nat.le_of_eq hw.len_eq.symm)
  have hpairs : (t.positions.filterMap t.pair?).length = t.len := hw.len_eq.symm
  rwa [hpairs] at hlen

theorem WellFormed.len_drain (hw : t.WellFormed ks) : t.drain.2.len = 0 := by
  have hlen := hw.len_takeFirst t.positions.length
  have hle : t.pairs.length ≤ t.positions.length := List.length_filterMap_le _ _
  rw [Nat.min_eq_right (hw.len_eq ▸ hle)] at hlen
  exact Nat.add_eq_right.mp hlen

end Chaining.Table
