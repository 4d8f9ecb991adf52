import Mathlib.Data.List.Pairwise
import Chaining.Proofs.Table.Distinct

/-!
# Slots stay where they are

As long as a table does not grow, no pair moves: a change makes slots vacant, or it
puts one pair into a slot, perhaps a new one behind a chain. `Steady` says of two
tables what somebody who kept a position of the first may rely on in the second. The
walk from the position goes on as before and is at most longer, and a key that is
found in both tables is found in the same slot (`Steady.pos_eq`).

For that the keying has to be lawful: a new pair goes into a slot of its own only if
its key is nowhere in the table (`WellFormed.absent`).
-/

namespace Chaining.Table

universe u v

variable {K : Type u} {V : Type v} {ks : Keying K} {t u : Table K V}

/-! ## Keys and positions -/

/-- No pair of the table has a key equal to that one. -/
def Absent (ks : Keying K) (t : Table K V) (key : K) : Prop :=
  ∀ p kv, t.pair? p = some kv → ks.equals kv.1 key = false

theorem Linked.mem_pairs (hl : t.Linked) {p : Pos} {kv : K × V} (hp : t.pair? p = some kv) :
    kv ∈ t.pairs :=
  List.mem_filterMap.mpr ⟨p, hl.mem_positions.mpr (has_of_pair? hp), hp⟩

/-- A key that is not in the bucket of its hash is nowhere. -/
theorem WellFormed.absent (hw : t.WellFormed ks) (h : ks.Lawful) {key : K}
    (hun : Unmatched ks key (t.pairsIn (t.bucketOf (ks.hash key)))) : t.Absent ks key := by
  intro p kv hp
  cases heq : ks.equals kv.1 key with
  | false => rfl
  | true =>
    have hin := hw.mem_pairsIn (hw.linked.mem_pairs hp)
    rw [h.hash_eq heq] at hin
    exact heq.symm.trans (hun kv hin)

/-- Equal keys are in the same slot. -/
theorem Distinct.pos_unique (hd : t.Distinct ks) (hw : t.WellFormed ks) (h : ks.Lawful)
    {p q : Pos} {x y : K × V} (hp : t.pair? p = some x) (hq : t.pair? q = some y)
    (hxy : ks.equals x.1 y.1 = true) : p = q := by
  obtain ⟨b, hb, hpb⟩ := hw.linked.exists_chain (has_of_pair? hp)
  obtain ⟨c, hc, hqc⟩ := hw.linked.exists_chain (has_of_pair? hq)
  -- they hash alike, so their slots are on one chain
  obtain rfl : b = c := by
    rw [← hw.placed b hb x (List.mem_filterMap.mpr ⟨p, hpb, hp⟩), h.hash_eq hxy]
    exact hw.placed c hc y (List.mem_filterMap.mpr ⟨q, hqc, hq⟩)
  have hchain := List.pairwise_filterMap.mp (hd b hb)
  have hsymm : Std.Symm fun r s => ∀ x, t.pair? r = some x → ∀ y, t.pair? s = some y →
      ks.equals x.1 y.1 = false :=
    ⟨fun r s hrs x hx y hy => h.symm_false (hrs y hy x hx)⟩
  by_contra hne
  rw [hchain.forall hpb hqc hne x hp y hq] at hxy
  cases hxy

/-! ## Steady tables -/

/-- From the first table to the second no pair has moved and no chain was cut. -/
structure Steady (ks : Keying K) (t u : Table K V) : Prop where
  bucketCount_eq : u.bucketCount = t.bucketCount
  /-- A walk goes on as before, and then perhaps to slots that are new. -/
  path : ∀ {p ps}, t.Path p ps → ∃ more, u.Path p (ps ++ more) ∧ ∀ q ∈ more, ¬ t.Has q
  /-- A pair has come into the place of one with an equal key, if not of itself, or its
  key is new to the table. -/
  came : ∀ {q new}, u.pair? q = some new →
    (∃ old, t.pair? q = some old ∧ ks.equals old.1 new.1 = true) ∨ t.Absent ks new.1

theorem has_congr (hb : u.bucketCount = t.bucketCount) (ha : u.arena.size = t.arena.size)
    {p : Pos} (h : t.Has p) : u.Has p := by
  cases p with
  | head b => exact has_head.mpr (hb ▸ has_head.mp h)
  | extension i => exact has_extension.mpr (ha ▸ has_extension.mp h)

theorem Path.congr (hb : u.bucketCount = t.bucketCount) (ha : u.arena.size = t.arena.size)
    (hn : ∀ p, u.next? p = t.next? p) {p : Pos} {ps : List Pos} (h : t.Path p ps) :
    u.Path p ps := by
  induction h with
  | last hp hend => exact .last (has_congr hb ha hp) ((hn _).trans hend)
  | step hnext _ ih => exact .step ((hn _).trans hnext) ih

namespace Steady

/-- Changes that touch no link. -/
theorem of_next? (hb : u.bucketCount = t.bucketCount) (ha : u.arena.size = t.arena.size)
    (hn : ∀ p, u.next? p = t.next? p)
    (hcame : ∀ {q new}, u.pair? q = some new →
      (∃ old, t.pair? q = some old ∧ ks.equals old.1 new.1 = true) ∨ t.Absent ks new.1) :
    Steady ks t u where
  bucketCount_eq := hb
  path h := ⟨[], by rw [List.append_nil]; exact h.congr hb ha hn, fun q hq => by cases hq⟩
  came := hcame

theorem mapValue (h : ks.Lawful) (t : Table K V) (p : Pos) (f : V → V) :
    Steady ks t (t.mapValue p f) := by
  refine of_next? (bucketCount_mapValue t p f) (size_arena_mapValue t p f)
    (next?_mapValue t p · f) fun {q new} hq => Or.inl ?_
  rw [pair?_mapValue] at hq
  split at hq
  next =>
    obtain ⟨old, hold, rfl⟩ := Option.map_eq_some_iff.mp hq
    exact ⟨old, hold, h.refl old.1⟩
  next => exact ⟨new, hq, h.refl new.1⟩

/-- To store a pair without growth. -/
theorem store (h : ks.Lawful) (hw : t.WellFormed ks) {key : K} {place : Placement K V}
    (hf : Fits ks t key (t.chain (t.bucketOf (ks.hash key))) place) (value : V) :
    Steady ks t (t.store place (key, value)) := by
  have hb := hw.bucketOf_lt (ks.hash key)
  have hset : ∀ {p q new}, (t.setPair p (some (key, value))).pair? q = some new →
      (∃ old, t.pair? q = some old ∧ ks.equals old.1 new.1 = true) ∨
        (q = p ∧ new = (key, value)) := by
    intro p q new hq
    rw [pair?_setPair] at hq
    split at hq
    next hpq =>
      obtain ⟨_, _, hnew⟩ := Option.bind_eq_some_iff.mp hq
      exact Or.inr ⟨hpq.symm, (Option.some.inj hnew).symm⟩
    next => exact Or.inl ⟨new, hq, h.refl new.1⟩
  cases hf with
  | @replace p old front back _ hp hk _ =>
    refine of_next? (bucketCount_setPair t p _) (size_arena_setPair t p _)
      (next?_setPair t p · _) fun {q new} hq => Or.inl ?_
    rcases hset hq with hstay | ⟨rfl, rfl⟩
    · exact hstay
    · exact ⟨old, hp, hk⟩
  | @reuse p front back _ _ _ hun =>
    refine of_next? (bucketCount_fill t p _) (size_arena_fill t p _) (next?_fill t p · _)
      fun {q new} hq => ?_
    rw [Table.store, pair?_fill] at hq
    rcases hset hq with hstay | ⟨rfl, rfl⟩
    · exact Or.inl hstay
    · exact Or.inr (hw.absent h hun)
  | @append last front hs _ hun =>
    have hpath := hw.linked.path_chain hb
    have hlast := hpath.has (q := last) (by rw [hs]; simp)
    have hend := (hs ▸ hpath).next?_eq_none
    refine ⟨bucketCount_append t last _, fun {p ps} hp => ?_, fun {q new} hq => ?_⟩
    · have happend : (t.append last (key, value)).Path p _ := hp.append hlast hend
      split at happend
      next => exact ⟨_, happend, by simp⟩
      next => exact ⟨[], by rwa [List.append_nil], by simp⟩
    · rw [Table.store, pair?_append] at hq
      split at hq
      next =>
        obtain rfl := Option.some.inj hq
        exact Or.inr (hw.absent h hun)
      next => exact Or.inl ⟨new, hq, h.refl new.1⟩

end Steady

/-! ## Slots made vacant -/

/-- Some slots of the first table are vacant in the second, and nothing else is
different. -/
structure Emptied (t u : Table K V) : Prop where
  bucketCount_eq : u.bucketCount = t.bucketCount
  size_arena_eq : u.arena.size = t.arena.size
  next?_eq : ∀ p, u.next? p = t.next? p
  pair?_eq : ∀ p, u.pair? p = none ∨ u.pair? p = t.pair? p

namespace Emptied

theorem refl (t : Table K V) : Emptied t t :=
  ⟨rfl, rfl, fun _ => rfl, fun _ => Or.inr rfl⟩

theorem vacate (h : Emptied t u) (p : Pos) : Emptied t (u.vacate p) where
  bucketCount_eq := (bucketCount_vacate u p).trans h.bucketCount_eq
  size_arena_eq := (size_arena_vacate u p).trans h.size_arena_eq
  next?_eq q := (next?_vacate u p q).trans (h.next?_eq q)
  pair?_eq q := by
    rw [pair?_vacate]
    split
    next => exact Or.inl rfl
    next => exact h.pair?_eq q

theorem takeAlong (h : Emptied t u) (taken : Array (K × V)) (most : Nat) (ps : List Pos) :
    Emptied t (takeAlong taken u most ps).2 := by
  induction ps generalizing u taken most with
  | nil => cases most <;> exact h
  | cons p ps ih =>
    cases most with
    | zero => exact h
    | succ most =>
      unfold Table.takeAlong
      split
      next => exact ih h taken (most + 1)
      next pair _ => exact ih (h.vacate p) (taken.push pair) most

theorem takeFirst (t : Table K V) (n : Nat) : Emptied t (t.takeFirst n).2 :=
  (refl t).takeAlong #[] n t.positions

theorem positions_eq (h : Emptied t u) : u.positions = t.positions :=
  positions_congr h.bucketCount_eq h.size_arena_eq h.next?_eq

theorem steady (h : Emptied t u) (hk : ks.Lawful) : Steady ks t u := by
  refine .of_next? h.bucketCount_eq h.size_arena_eq h.next?_eq fun {q new} hq => Or.inl ?_
  rcases h.pair?_eq q with hnone | hsame
  · rw [hnone] at hq
    cases hq
  · exact ⟨new, hsame.symm.trans hq, hk.refl new.1⟩

end Emptied

/-- Without its first pairs a table has the others, in the same order. -/
theorem Linked.pairs_takeFirst (hl : t.Linked) (n : Nat) :
    (t.takeFirst n).2.pairs = t.pairs.drop n := by
  rw [pairs, (Emptied.takeFirst t n).positions_eq]
  exact filterMap_pair?_takeAlong #[] t n hl.nodup_positions

/-! ## What a kept position is good for -/

namespace Steady

/-- A chain is the old one and perhaps a slot that is new. -/
theorem chain_eq (h : Steady ks t u) (hl : t.Linked) (hu : u.Linked) {b : Nat}
    (hb : b < t.bucketCount) : ∃ more, u.chain b = t.chain b ++ more ∧ ∀ q ∈ more, ¬ t.Has q := by
  obtain ⟨more, hmore, hnew⟩ := h.path (hl.path_chain hb)
  have hb' : b < u.bucketCount := by rwa [h.bucketCount_eq]
  exact ⟨more, (hu.path_chain hb').eq_of_path hmore, hnew⟩

/-- A key that is found in both tables is found in the same slot. -/
theorem pos_eq (h : Steady ks t u) (hk : ks.Lawful) (hw : t.WellFormed ks) (hd : t.Distinct ks)
    {p q : Pos} {old new : K × V} (hp : t.pair? p = some old) (hq : u.pair? q = some new)
    (heq : ks.equals old.1 new.1 = true) : p = q := by
  rcases h.came hq with ⟨old', hq', heq'⟩ | habsent
  · exact hd.pos_unique hw hk hp hq' (hk.trans heq (hk.symm heq'))
  · rw [habsent p old hp] at heq
    cases heq

end Steady

end Chaining.Table
