import Chaining.Proofs.Map.Reachable

/-!
# What a put replaces is what a lookup finds

A put and a lookup go along the chain of a key by walks of their own. The one stops at the first
pair that the comparison does not turn down and remembers the first vacant slot, the other has
no use for vacant slots. Whatever the comparison is, both come to the same pair: in terms of the
pairs of the bucket it is the first that is not turned down, for a lookup (`getPair?_eq_find?`)
and for the pair that gives way to a new one (`Fits.displaced_eq_find?`). So a put that does not
grow the map replaces what a lookup would have found just before.

Nor can another pair that compares equal stand in the way afterwards. A pair comes into the place
of the first match, or else into a bucket where there is none, so all pairs before it have been
turned down. If a key is equal to itself, a lookup of it finds what was stored last
(`Reachable.put_agrees`), though the map may have grown and many other keys may be equal to it.
-/

namespace Chaining

universe u v

variable {K : Type u} {V : Type v} {ks : Keying K}

namespace Table

variable {t : Table K V} {key : K}

/-- A lookup along some positions finds the first of their pairs that is not turned down. -/
theorem findAlong_eq_find? (ks : Keying K) (t : Table K V) (key : K) (ps : List Pos) :
    (findAlong ks t key ps).1.map Entry.pair =
      (ps.filterMap t.pair?).find? fun kv => ks.equals kv.1 key := by
  induction ps with
  | nil => rfl
  | cons p ps ih =>
    unfold findAlong
    cases hp : t.pair? p with
    | none =>
      rw [List.filterMap_cons_none hp]
      exact ih
    | some kv =>
      obtain ⟨stored, value⟩ := kv
      rw [List.filterMap_cons_some hp]
      dsimp only
      by_cases hk : ks.equals stored key = true
      · rw [if_pos hk, List.find?_cons_of_pos (p := fun kv : K × V => ks.equals kv.1 key) hk]
        rfl
      · rw [if_neg hk, List.find?_cons_of_neg (p := fun kv : K × V => ks.equals kv.1 key) hk]
        exact ih

/-- The first pair that is not turned down, if all before it are. -/
theorem find?_of_unmatched {before after : List (K × V)} {kv : K × V}
    (hun : Unmatched ks key before) (hk : ks.equals kv.1 key = true) :
    (before ++ kv :: after).find? (fun kv => ks.equals kv.1 key) = some kv := by
  have hbefore : before.find? (fun kv => ks.equals kv.1 key) = none := by
    rw [List.find?_eq_none]
    intro x hx
    exact Bool.eq_false_iff.mp (hun x hx)
  rw [List.find?_append, hbefore,
    List.find?_cons_of_pos (p := fun kv : K × V => ks.equals kv.1 key) hk]
  rfl

/-- The pair that gives way is the first of its bucket that is not turned down. -/
theorem Fits.displaced_eq_find? {b : Nat} {place : Placement K V}
    (h : Fits ks t key (t.chain b) place) :
    place.displaced = (t.pairsIn b).find? fun kv => ks.equals kv.1 key := by
  cases hd : place.displaced with
  | none =>
    have hun := h.unmatched hd
    refine (List.find?_eq_none.mpr ?_).symm
    intro x hx
    exact Bool.eq_false_iff.mp (hun x hx)
  | some old =>
    cases h with
    | @replace p old' front back hs hp hk hun =>
      cases hd
      unfold pairsIn
      rw [hs, List.filterMap_append, List.filterMap_cons_some hp]
      exact (find?_of_unmatched hun hk).symm
    | reuse _ _ _ _ => cases hd
    | append _ _ _ => cases hd

end Table

namespace Map

open Table

variable {m base after : Map ks V} {c : Conditions} {key : K} {value : V} {change : Change}
  {releases : List (Release K V)}

theorem getPair?_eq_find? (m : Map ks V) (key : K) :
    m.getPair? key = (m.table.pairsIn (m.table.bucketOf (ks.hash key))).find?
      fun kv => ks.equals kv.1 key :=
  findAlong_eq_find? ks m.table key (m.table.chain (m.table.bucketOf (ks.hash key)))

/-- A pair is stored in the place of what a lookup finds, which is let go of. -/
theorem Places.replaces {reservations : Nat}
    (h : m.Places c reservations key value (.stored change) after releases) :
    change = (if (m.getPair? key).isSome then .replaced else .inserted) ∧
      releases = (m.getPair? key).elim [] fun old => [.value old.2, .key old.1] := by
  cases h with
  | @stored place hf _ =>
    have hdisplaced : place.displaced = m.getPair? key :=
      hf.displaced_eq_find?.trans (m.getPair?_eq_find? key).symm
    constructor
    · rw [place.change_eq, hdisplaced]
    · rw [← hdisplaced]
      unfold Placement.releases
      cases place.displaced <;> rfl

/-- A key that is equal to itself is found with what was stored under it. -/
theorem Places.getPair?_eq {reservations : Nat}
    (h : m.Places c reservations key value (.stored change) after releases)
    (hw : m.table.WellFormed ks) (hk : ks.equals key key = true) :
    after.getPair? key = some (key, value) := by
  cases h with
  | @stored place hf _ =>
    have hb := hw.bucketOf_lt (ks.hash key)
    obtain ⟨before, behind, hx, hun⟩ := hw.linked.exchange_store hb hf (key, value)
    have hbucket : (m.table.store place (key, value)).bucketOf (ks.hash key) =
        m.table.bucketOf (ks.hash key) := by
      unfold bucketOf
      rw [bucketCount_store]
    rw [getPair?_eq_find?]
    dsimp only
    rw [hbucket, hx.pairsIn_new, List.append_assoc]
    -- all that stands before the new pair has been turned down for it
    exact find?_of_unmatched hun hk

/-- A put that is stored, and lookups of its key before and afterwards. No law is asked of the
keying. -/
theorem Reachable.put_agrees (hm : m.Reachable)
    (h : (m.put c key value).answer = .stored change) :
    ((m.put c key value).map.bucketCount = m.bucketCount →
      (change = .replaced ↔ m.contains key = true) ∧
        (m.put c key value).transcript.releases.toList =
          (m.getPair? key).elim [] fun old => [.value old.2, .key old.1]) ∧
      (ks.equals key key = true →
        (m.put c key value).map.getPair? key = some (key, value)) := by
  have hw := hm.wellFormed
  have hputs := h ▸ m.put_puts c key value
  cases hputs with
  | @placed base _ _ _ _ hp hplaces =>
    constructor
    · intro hcount
      obtain rfl := hp.eq_of_bucketCount_eq hw (hplaces.bucketCount_eq.symm.trans hcount)
      obtain ⟨hchange, hreleases⟩ := hplaces.replaces
      refine ⟨?_, hreleases⟩
      rw [hchange, contains, ← Option.isSome_map (f := Entry.pair), ← getPair?]
      cases (base.getPair? key).isSome <;> decide
    · intro hk
      exact hplaces.getPair?_eq (hp.wellFormed hw) hk

/-- A chain of numbers that go down, the second of which has been taken out. -/
def descending : Map Keying.atMost Nat :=
  (ofSizing Keying.atMost (Sizing.standard.withInitial 10)).after
    [({}, .put 9 90), ({}, .put 5 50), ({}, .put 3 30), ({}, .put 1 10), ({}, .remove 5)]

/-- A number for which there are a vacant slot and two equal keys takes the place of the first
of these, and is found there. -/
theorem Reachable.put_agrees_descending :
    (descending.put {} 4 40).answer = .stored .replaced ∧
      descending.pairs = [(9, 90), (3, 30), (1, 10)] ∧
      descending.contains 4 = true ∧
      (descending.put {} 4 40).transcript.releases.toList = [.value 30, .key 3] ∧
      (descending.put {} 4 40).map.getPair? 4 = some (4, 40) := by
  have hm : descending.Reachable := .after (.ofSizing _ _) _
  have hanswer : (descending.put {} 4 40).answer = .stored .replaced := by decide
  have hcount : (descending.put {} 4 40).map.bucketCount = descending.bucketCount := by decide
  have hfound : descending.getPair? 4 = some (3, 30) := by decide
  obtain ⟨hbefore, hafter⟩ := hm.put_agrees hanswer
  obtain ⟨hreplaced, hreleases⟩ := hbefore hcount
  rw [hfound] at hreleases
  exact ⟨hanswer, by decide, hreplaced.mp rfl, hreleases, hafter (by decide)⟩

end Map

end Chaining
