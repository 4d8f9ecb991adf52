import Chaining.Proofs.Table.Contents

/-!
# Walks for a key: what is found and where a pair goes

The two walks of a table for a key meet no contract of its keying, so all that
can be said of them is which keys the comparison turned down: `Unmatched`. A
lookup answers with the first pair of the bucket it did not turn down
(`findAlong_eq_some`, `findAlong_eq_none`). A place for a pair `Fits` if it is
that pair's, else the first vacant position, else the end of the chain
(`locate_fits`); to store a pair there is an exchange of the one bucket
(`Linked.exchange_store`).
-/

namespace Chaining

universe u v

variable {K : Type u} {V : Type v}

/-- The pair whose place is taken, if there is one. -/
def Placement.displaced : Placement K V → Option (K × V)
  | .replace _ old => some old
  | .reuse _ => none
  | .append _ => none

namespace Table

variable {ks : Keying K} {t : Table K V} {key : K}

/-- Each of these pairs has a key that the comparison with `key` turns down. -/
def Unmatched (ks : Keying K) (key : K) (pairs : List (K × V)) : Prop :=
  ∀ kv ∈ pairs, ks.equals kv.1 key = false

theorem unmatched_nil : Unmatched ks key ([] : List (K × V)) :=
  fun _ h => absurd h List.not_mem_nil

theorem unmatched_append {xs ys : List (K × V)} :
    Unmatched ks key (xs ++ ys) ↔ Unmatched ks key xs ∧ Unmatched ks key ys := by
  simp only [Unmatched, List.forall_mem_append]

/-! ## Lookup -/

/-- What a lookup finds is the first pair along the positions that the
comparison does not turn down. -/
theorem findAlong_eq_some {ps : List Pos} {e : Entry K V}
    (h : (findAlong ks t key ps).1 = some e) :
    ∃ front back, ps = front ++ e.pos :: back ∧ t.pair? e.pos = some e.pair ∧
      ks.equals e.key key = true ∧ Unmatched ks key (front.filterMap t.pair?) := by
  induction ps with
  | nil => cases h
  | cons p ps ih =>
    unfold findAlong at h
    split at h
    next hp =>
      -- a vacant slot is passed without a comparison
      obtain ⟨front, back, rfl, he, hk, hun⟩ := ih h
      refine ⟨p :: front, back, rfl, he, hk, ?_⟩
      rwa [List.filterMap_cons, hp]
    next stored value hp =>
      split at h
      next hk =>
        cases h
        exact ⟨[], ps, rfl, hp, hk, unmatched_nil⟩
      next hk =>
        obtain ⟨front, back, rfl, he, hk', hun⟩ := ih h
        refine ⟨p :: front, back, rfl, he, hk', ?_⟩
        rw [List.filterMap_cons, hp]
        intro kv hkv
        rcases List.mem_cons.mp hkv with rfl | hkv
        · exact Bool.eq_false_iff.mpr hk
        · exact hun kv hkv

theorem findAlong_eq_none {ps : List Pos} (h : (findAlong ks t key ps).1 = none) :
    Unmatched ks key (ps.filterMap t.pair?) := by
  induction ps with
  | nil => exact unmatched_nil
  | cons p ps ih =>
    unfold findAlong at h
    rw [List.filterMap_cons]
    split at h
    next hp =>
      rw [hp]
      exact ih h
    next stored value hp =>
      rw [hp]
      split at h
      next => cases h
      next hk =>
        intro kv hkv
        rcases List.mem_cons.mp hkv with rfl | hkv
        · exact Bool.eq_false_iff.mpr hk
        · exact ih h kv hkv

/-! ## Placement -/

/-- The place goes with the chain: it is that of the first pair not turned down,
or the first vacant position if all pairs are turned down, or the end of the
chain if none is vacant either. -/
inductive Fits (ks : Keying K) (t : Table K V) (key : K) (chain : List Pos) :
    Placement K V → Prop where
  | replace {p : Pos} {old : K × V} {front back : List Pos} :
      chain = front ++ p :: back → t.pair? p = some old → ks.equals old.1 key = true →
      Unmatched ks key (front.filterMap t.pair?) → Fits ks t key chain (.replace p old)
  | reuse {p : Pos} {front back : List Pos} :
      chain = front ++ p :: back → t.pair? p = none → (∀ q ∈ front, t.pair? q ≠ none) →
      Unmatched ks key (chain.filterMap t.pair?) → Fits ks t key chain (.reuse p)
  | append {last : Pos} {front : List Pos} :
      chain = front ++ [last] → (∀ q ∈ chain, t.pair? q ≠ none) →
      Unmatched ks key (chain.filterMap t.pair?) → Fits ks t key chain (.append last)

/-- The walk in its middle: `passed` lies behind it, with no pair that matched,
and `vacant` is the first vacant position there. -/
theorem locateAlong_fits (rest passed : List Pos) (vacant : Option Pos) (last : Pos)
    (hne : passed ++ rest ≠ []) (hlast : ∀ q, passed.getLast? = some q → q = last)
    (hvacant : vacant = passed.find? fun q => (t.pair? q).isNone)
    (hun : Unmatched ks key (passed.filterMap t.pair?)) :
    Fits ks t key (passed ++ rest) (locateAlong ks t key vacant last rest).1 := by
  induction rest generalizing passed vacant last with
  | nil =>
    rw [List.append_nil] at hne ⊢
    unfold locateAlong
    -- at the end of the chain all of it has been passed
    cases hv : vacant with
    | some p =>
      obtain ⟨hp, front, back, hs, hfront⟩ :=
        List.find?_eq_some_iff_append.mp (hvacant.symm.trans hv)
      refine .reuse hs (Option.isNone_iff_eq_none.mp hp) (fun q hq hn => ?_) hun
      have hsome := hfront q hq
      rw [hn] at hsome
      cases hsome
    | none =>
      have hlast' : passed = passed.dropLast ++ [last] := by
        obtain ⟨q, hq⟩ := Option.isSome_iff_exists.mp (List.getLast?_isSome.mpr hne)
        rw [← hlast q hq]
        exact (List.dropLast_append_getLast? q hq).symm
      refine .append hlast' (fun q hq hn => ?_) hun
      have hsome := List.find?_eq_none.mp (hvacant.symm.trans hv) q hq
      rw [hn] at hsome
      exact hsome rfl
  | cons p rest ih =>
    have hmove : passed ++ p :: rest = (passed ++ [p]) ++ rest := by simp
    have hne' : (passed ++ [p]) ++ rest ≠ [] := by simp
    have hlast' : ∀ q, (passed ++ [p]).getLast? = some q → q = p := by
      intro q hq
      simpa using hq.symm
    unfold locateAlong
    split
    next hp =>
      rw [hmove]
      refine ih (passed ++ [p]) _ p hne' hlast' ?_ ?_
      · rw [List.find?_append, ← hvacant]
        cases vacant <;> simp [hp]
      · rw [List.filterMap_append, unmatched_append]
        exact ⟨hun, by simp [hp, unmatched_nil]⟩
    next stored value hp =>
      split
      next hk => exact .replace rfl hp hk hun
      next hk =>
        rw [hmove]
        refine ih (passed ++ [p]) _ p hne' hlast' ?_ ?_
        · rw [List.find?_append, ← hvacant]
          cases vacant <;> simp [hp]
        · rw [List.filterMap_append, unmatched_append]
          refine ⟨hun, fun kv hkv => ?_⟩
          obtain rfl : kv = (stored, value) := by simpa [hp] using hkv
          exact Bool.eq_false_iff.mpr hk

theorem locate_fits (ks : Keying K) (t : Table K V) (b : Nat) (key : K) :
    Fits ks t key (t.chain b) (t.locate ks b key).1 := by
  have hne : t.chain b ≠ [] := by simp [chain, chainFrom]
  exact locateAlong_fits (t.chain b) [] none (.head b) hne (by simp) (by simp) unmatched_nil

namespace Fits

variable {b : Nat} {place : Placement K V}

theorem of_displaced {old : K × V} (h : Fits ks t key (t.chain b) place)
    (hd : place.displaced = some old) : old ∈ t.pairsIn b ∧ ks.equals old.1 key = true := by
  cases h with
  | replace hs hp hk _ =>
    cases hd
    refine ⟨List.mem_filterMap.mpr ⟨_, ?_, hp⟩, hk⟩
    rw [hs]
    simp
  | reuse _ _ _ _ => cases hd
  | append _ _ _ => cases hd

theorem unmatched (h : Fits ks t key (t.chain b) place) (hd : place.displaced = none) :
    Unmatched ks key (t.pairsIn b) := by
  cases h with
  | replace _ _ _ _ => cases hd
  | reuse _ _ _ hun => exact hun
  | append _ _ hun => exact hun

end Fits

/-! ## Storing -/

section Store

variable {b : Nat} {place : Placement K V}

/-- Storing a pair exchanges it for the one that gives way, the first of its
bucket not turned down. -/
theorem Linked.exchange_store (hl : t.Linked) (hb : b < t.bucketCount)
    (hf : Fits ks t key (t.chain b) place) (pair : K × V) :
    ∃ before after, Exchange t (t.store place pair) b before place.displaced (some pair) after ∧
      Unmatched ks key before := by
  cases hf with
  | @replace p old front back hs hp _ hun =>
    have h := hl.exchange_setPair hb hs (some pair)
    rw [hp] at h
    exact ⟨_, _, h, hun⟩
  | @reuse p front back hs hp _ hun =>
    rw [hs, List.filterMap_append, unmatched_append] at hun
    exact ⟨_, _, hl.exchange_fill hb hs hp pair, hun.1⟩
  | @append last front hs _ hun =>
    exact ⟨_, _, hl.exchange_append hb hs pair, hun⟩

theorem Linked.store (hl : t.Linked) (hb : b < t.bucketCount)
    (hf : Fits ks t key (t.chain b) place) (pair : K × V) : (t.store place pair).Linked := by
  cases hf with
  | @replace p old _ _ _ _ _ _ => exact (differsAt_setPair t p (some pair)).linked hl
  | @reuse p _ _ _ _ _ _ => exact (differsAt_fill t p pair).linked hl
  | @append last front hs _ _ =>
    have hpath := hl.path_chain hb
    exact hl.append (hpath.has (by rw [hs]; simp)) (hs ▸ hpath).next?_eq_none

@[simp] theorem bucketCount_store (t : Table K V) (place : Placement K V) (pair : K × V) :
    (t.store place pair).bucketCount = t.bucketCount := by
  cases place with
  | replace p old => exact bucketCount_setPair t p (some pair)
  | reuse p => exact bucketCount_fill t p pair
  | append last => exact bucketCount_append t last pair

theorem len_store (t : Table K V) (place : Placement K V) (pair : K × V) :
    (t.store place pair).len + place.displaced.toList.length = t.len + 1 := by
  cases place with
  | replace p old => cases p <;> rfl
  | reuse p => cases p <;> rfl
  | append last => cases last <;> rfl

end Store

end Table

end Chaining
