import Chaining.Proofs.Traversal
import Chaining.Sweep

/-!
# What a sweep has ahead

A sweep goes along the same links as a cursor, but it takes an extension slot only with
its mark, and it stops as soon as it has counted off all pairs. Neither cuts it short.
The positions ahead of it (`Sweep.places`) are always the last ones of the table, so none
of them comes twice and each still has its mark; and the count is that of the pairs on
them. `Sweep.Faces` says so, and names these pairs: a visit answers with the first of
them, changes its value, and leaves the sweep facing the others (`Faces.visit_cons`).
-/

namespace Chaining

universe u v

variable {K : Type u} {V : Type v}

namespace Table

variable {t : Table K V}

/-- Behind the first position of a walk come those that its link leads to. -/
theorem Path.eq_cons (hl : t.Linked) {p : Pos} {ps : List Pos} (h : t.Path p ps) :
    ps = p :: t.placesFrom (t.next? p) := by
  cases h with
  | last _ hn => rw [hn]; rfl
  | step hn hr => rw [hn, hr.placesFrom_eq hl]

theorem placesFrom_mapValue (t : Table K V) (p : Pos) (f : V → V) (next : Option Nat) :
    (t.mapValue p f).placesFrom next = t.placesFrom next := by
  cases next with
  | none => rfl
  | some i =>
    unfold placesFrom
    rw [size_arena_mapValue]
    exact chainFrom_congr (next?_mapValue t p · f) _ _

theorem placesBehind_mapValue (t : Table K V) (p : Pos) (f : V → V) (b : Nat) :
    (t.mapValue p f).placesBehind b = t.placesBehind b := by
  have hchain : (t.mapValue p f).chain = t.chain := by
    funext b
    unfold chain
    rw [size_arena_mapValue]
    exact chainFrom_congr (next?_mapValue t p · f) _ _
  unfold placesBehind
  rw [bucketCount_mapValue, hchain]

end Table

namespace Sweep

variable {t : Table K V} {s : Sweep}

/-- The positions that a sweep has not come to. -/
def places (t : Table K V) (s : Sweep) : List Pos :=
  t.placesFrom s.pending ++ t.placesBehind s.head

theorem places_ofTable (t : Table K V) : (ofTable t).places t = t.positions :=
  t.placesBehind_zero

theorem places_mapValue (t : Table K V) (s : Sweep) (p : Pos) (f : V → V) :
    s.places (t.mapValue p f) = s.places t := by
  unfold places
  rw [t.placesFrom_mapValue, t.placesBehind_mapValue]

/-- The positions ahead are the last ones of the table, and none has lost its mark. -/
structure OnCourse (t : Table K V) (s : Sweep) : Prop where
  suffix : s.places t <:+ t.positions
  marked : ∀ i, .extension i ∈ s.places t → s.ahead[i]? = some true

theorem onCourse_ofTable (hl : t.Linked) : (ofTable t).OnCourse t where
  suffix := by simp only [places_ofTable, List.suffix_refl]
  marked := by
    intro i hi
    rw [places_ofTable] at hi
    have hlt : i < t.arena.size := Table.has_extension.mp (hl.mem_positions.mp hi)
    simp [ofTable, hlt]

/-- One position on, a sweep stays on course if the marks of the others are left. -/
theorem OnCourse.of_cons (h : s.OnCourse t) {p : Pos} {s' : Sweep}
    (hcons : s.places t = p :: s'.places t)
    (hmarks : ∀ i, .extension i ∈ s'.places t → s'.ahead[i]? = s.ahead[i]?) :
    s'.OnCourse t where
  suffix := (hcons ▸ List.suffix_cons _ _).trans h.suffix
  marked := by
    intro i hi
    rw [hmarks i hi]
    exact h.marked i (hcons ▸ List.mem_cons_of_mem _ hi)

/-- The slot that comes next is the first position ahead. -/
theorem OnCourse.step (hl : t.Linked) (h : s.OnCourse t) :
    match s.step t with
    | none => s.places t = []
    | some (p, s') => s.places t = p :: s'.places t ∧ s'.OnCourse t ∧
        s'.remaining = s.remaining := by
  have hnodup : (s.places t).Nodup := h.suffix.sublist.nodup hl.nodup_positions
  unfold Sweep.step
  cases hpending : s.pending with
  | none =>
    have hplaces : s.places t = t.placesBehind s.head := by
      rw [places, hpending]
      rfl
    dsimp only
    unfold stepHead
    by_cases hb : s.head < t.bucketCount
    · rw [if_pos hb]
      have hcons : s.places t = .head s.head ::
          (t.placesFrom (t.next? (.head s.head)) ++ t.placesBehind (s.head + 1)) := by
        rw [hplaces, Table.placesBehind_of_lt hb, (hl.path_chain hb).eq_cons hl, List.cons_append]
      exact ⟨hcons, h.of_cons hcons fun _ _ => rfl, rfl⟩
    · rw [if_neg hb, hplaces]
      exact Table.placesBehind_of_le (Nat.le_of_not_lt hb)
  | some i =>
    have hmem : .extension i ∈ s.places t := by
      rw [places, hpending]
      exact List.mem_append_left _ List.mem_cons_self
    have hmark := h.marked i hmem
    have hi : t.Has (.extension i) := hl.mem_positions.mp (h.suffix.subset hmem)
    obtain ⟨ps, hps, _⟩ := hl.exists_path hi
    have hcons : s.places t = .extension i ::
        (t.placesFrom (t.next? (.extension i)) ++ t.placesBehind s.head) := by
      rw [places, hpending, hps.placesFrom_eq hl, hps.eq_cons hl, List.cons_append]
    dsimp only
    rw [if_pos (by rw [Array.getD_eq_getD_getElem?, hmark]; rfl)]
    refine ⟨hcons, h.of_cons hcons ?_, rfl⟩
    -- the slot whose mark is taken does not come again
    intro j hj
    rw [hcons] at hnodup
    have hne : i ≠ j := by
      rintro rfl
      exact (List.nodup_cons.mp hnodup).1 hj
    exact Array.getElem?_setIfInBounds_ne hne

/-- Within enough steps a sweep comes to the first pair on the positions ahead, past vacant
slots. -/
theorem OnCourse.nextWithin (hl : t.Linked) {bound : Nat} {s : Sweep} (h : s.OnCourse t)
    (hb : (s.places t).length ≤ bound) {kv : K × V} {xs : List (K × V)}
    (hs : (s.places t).filterMap t.pair? = kv :: xs) :
    ∃ p s' skipped, Sweep.nextWithin t bound s = (some p, s') ∧ t.pair? p = some kv ∧
      s.places t = skipped ++ p :: s'.places t ∧ skipped.filterMap t.pair? = [] ∧
      s'.OnCourse t ∧ s'.remaining = s.remaining - 1 := by
  induction bound generalizing s with
  | zero =>
    rw [List.eq_nil_of_length_eq_zero (Nat.le_zero.mp hb)] at hs
    cases hs
  | succ bound ih =>
    have hstep := h.step hl
    unfold Sweep.nextWithin
    cases hn : s.step t with
    | none =>
      rw [hn] at hstep
      rw [show s.places t = [] from hstep] at hs
      cases hs
    | some taken =>
      obtain ⟨p, s'⟩ := taken
      rw [hn] at hstep
      obtain ⟨hcons, hcourse, hremaining⟩ := hstep
      rw [hcons] at hs hb
      dsimp only
      cases hp : t.pair? p with
      | none =>
        rw [List.filterMap_cons_none hp] at hs
        obtain ⟨q, s'', skipped, hnext, hq, hplaces, hvacant, hcourse', hremaining'⟩ :=
          ih hcourse (Nat.le_of_succ_le_succ hb) hs
        refine ⟨q, s'', p :: skipped, hnext, hq, ?_, ?_, hcourse', ?_⟩
        · rw [hcons, hplaces, List.cons_append]
        · rw [List.filterMap_cons_none hp, hvacant]
        · rw [hremaining', hremaining]
      | some found =>
        rw [List.filterMap_cons_some hp] at hs
        obtain ⟨rfl, _⟩ := List.cons.inj hs
        exact ⟨p, { s' with remaining := s'.remaining - 1 }, [], rfl, hp, hcons, rfl,
          ⟨hcourse.suffix, hcourse.marked⟩, congrArg (· - 1) hremaining⟩

/-- A sweep has these pairs ahead, and as many still to count off. -/
structure Faces (t : Table K V) (s : Sweep) (xs : List (K × V)) : Prop where
  linked : t.Linked
  onCourse : s.OnCourse t
  pairs_eq : (s.places t).filterMap t.pair? = xs
  remaining_eq : s.remaining = xs.length

theorem faces_ofTable {ks : Keying K} (hw : t.WellFormed ks) :
    (ofTable t).Faces t t.pairs where
  linked := hw.linked
  onCourse := onCourse_ofTable hw.linked
  pairs_eq := by
    rw [places_ofTable]
    rfl
  remaining_eq := hw.len_eq

namespace Faces

/-- Once all pairs are counted off, a visit changes nothing. -/
theorem visit_nil (h : s.Faces t []) (f : V → V) : visit f (s, t) = (none, (s, t)) := by
  have hnext : s.next t = (none, s) := if_pos h.remaining_eq
  unfold visit
  dsimp only
  rw [hnext]

/-- A visit answers with the first pair ahead, its value changed, and leaves the others
ahead. Nothing else changes in the order of traversal. -/
theorem visit_cons {kv : K × V} {xs : List (K × V)} (h : s.Faces t (kv :: xs)) (f : V → V) :
    ∃ p s', visit f (s, t) = (some (kv.1, f kv.2), (s', t.mapValue p f)) ∧
      s'.Faces (t.mapValue p f) xs ∧
      ∀ front, t.pairs = front ++ kv :: xs →
        (t.mapValue p f).pairs = front ++ (kv.1, f kv.2) :: xs := by
  have hremaining : s.remaining = xs.length + 1 := h.remaining_eq
  have hbound : (s.places t).length ≤ t.bucketCount + t.arena.size + 1 := by
    have hlength := h.onCourse.suffix.length_le
    rw [h.linked.length_positions] at hlength
    omega
  obtain ⟨p, s', skipped, hwithin, hp, hplaces, hvacant, hcourse, hcount⟩ :=
    h.onCourse.nextWithin h.linked hbound h.pairs_eq
  have hnext : s.next t = (some p, s') := (if_neg (by omega)).trans hwithin
  have hpair : (t.mapValue p f).pair? p = some (kv.1, f kv.2) := by
    rw [Table.pair?_mapValue, if_pos rfl, hp]
    rfl
  have hxs : (s'.places t).filterMap t.pair? = xs := by
    have hpairs := h.pairs_eq
    rw [hplaces, List.filterMap_append, hvacant, List.nil_append, List.filterMap_cons_some hp]
      at hpairs
    exact (List.cons.inj hpairs).2
  -- the position of the pair comes once, so nothing before or behind it changes
  obtain ⟨passed, hpositions⟩ := h.onCourse.suffix
  have hsplit : (passed ++ skipped) ++ p :: s'.places t = t.positions := by
    rw [← hpositions, hplaces, List.append_assoc]
  have hnodup := List.nodup_middle.mp (hsplit ▸ h.linked.nodup_positions)
  have hsame : ∀ qs : List Pos, p ∉ qs →
      qs.filterMap (t.mapValue p f).pair? = qs.filterMap t.pair? := by
    intro qs hqs
    refine List.filterMap_congr fun q hq => ?_
    rw [Table.pair?_mapValue, if_neg]
    rintro rfl
    exact hqs hq
  have hbefore := hsame (passed ++ skipped)
    fun hmem => (List.nodup_cons.mp hnodup).1 (List.mem_append_left _ hmem)
  have hbehind := hsame (s'.places t)
    fun hmem => (List.nodup_cons.mp hnodup).1 (List.mem_append_right _ hmem)
  refine ⟨p, s', ?_, ⟨h.linked.mapValue p f, ⟨?_, ?_⟩, ?_, ?_⟩, ?_⟩
  · unfold visit
    dsimp only
    rw [hnext]
    dsimp only
    rw [hpair]
  · rw [places_mapValue, Table.positions_mapValue]
    exact hcourse.suffix
  · rw [places_mapValue]
    exact hcourse.marked
  · rw [places_mapValue, hbehind, hxs]
  · rw [hcount, hremaining]
    rfl
  · intro front hfront
    unfold Table.pairs at hfront ⊢
    rw [← hsplit, List.filterMap_append, List.filterMap_cons_some hp, hxs] at hfront
    rw [Table.positions_mapValue, ← hsplit, List.filterMap_append,
      List.filterMap_cons_some hpair, hbefore, hbehind, hxs, List.append_cancel_right hfront]

end Faces

end Sweep

end Chaining
