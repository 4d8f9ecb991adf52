import Chaining.Proofs.Keying
import Chaining.Proofs.Table.WellFormed

/-!
# Distinct keys

Where the comparison is symmetric and transitive, no two pairs of one bucket are
found equal: `Distinct`. A pair is stored only if the whole bucket was turned
down or in the place of a pair with an equal key, and what was not equal to that
key is not equal to the new one (`Distinct.store`). The hash plays no part, and a
key need not be equal to itself.

For a table with a multiple of the buckets this means that pairs which meet there
in one bucket are `Apart`, since they have met in one of the smaller table
(`Distinct.pairwise_apart`).
-/

namespace Chaining.Table

universe u v

variable {K : Type u} {V : Type v} {ks : Keying K} {t u : Table K V}

/-- No two pairs of one bucket have keys found equal. -/
def Distinct (ks : Keying K) (t : Table K V) : Prop :=
  ∀ b, b < t.bucketCount → (t.pairsIn b).Pairwise fun x y => ks.equals x.1 y.1 = false

theorem distinct_ofBuckets (ks : Keying K) (n : Nat) : (ofBuckets n : Table K V).Distinct ks := by
  intro b _
  rw [pairsIn_ofBuckets]
  exact List.Pairwise.nil

/-- An exchange keeps keys distinct if those that stay are not equal to the one
that comes. -/
theorem Exchange.distinct {b : Nat} {before after : List (K × V)} {old new : Option (K × V)}
    (h : Exchange t u b before old new after) (hk : ks.PartialEquivalence)
    (hd : t.Distinct ks)
    (hnew : ∀ kv, new = some kv → Unmatched ks kv.1 (before ++ after)) : u.Distinct ks := by
  intro c hc
  rw [h.bucketCount_eq] at hc
  by_cases hcb : c = b
  · subst hcb
    -- what stays was distinct, and the new pair may stand anywhere among it
    have hstay : (before ++ after).Pairwise fun x y => ks.equals x.1 y.1 = false := by
      have hall := hd c hc
      rw [h.pairsIn_old] at hall
      refine hall.sublist ?_
      rw [List.append_assoc]
      exact (List.sublist_append_right _ _).append_left _
    rw [h.pairsIn_new]
    cases hn : new with
    | none => simpa using hstay
    | some kv =>
      rw [Option.toList_some, List.append_assoc, List.singleton_append,
        List.pairwise_middle fun hxy => hk.symm_false hxy]
      exact List.pairwise_cons.mpr ⟨fun x hx => hk.symm_false (hnew kv hn x hx), hstay⟩
  · rw [h.others c hc hcb]
    exact hd c hc

theorem Distinct.unmatched (hd : t.Distinct ks) (hk : ks.PartialEquivalence) {b : Nat}
    (hb : b < t.bucketCount) {before after : List (K × V)} {old : K × V}
    (hs : t.pairsIn b = before ++ (some old).toList ++ after) :
    Unmatched ks old.1 (before ++ after) := by
  have hall := hd b hb
  rw [hs, Option.toList_some, List.append_assoc, List.singleton_append,
    List.pairwise_middle fun hxy => hk.symm_false hxy] at hall
  intro x hx
  exact hk.symm_false ((List.pairwise_cons.mp hall).1 x hx)

/-- Storing keeps keys distinct. A pair that gives way had a key equal to the
new one, so what was not equal to the old key is not equal to the new. -/
theorem Distinct.store (hd : t.Distinct ks) (hk : ks.PartialEquivalence) (hl : t.Linked)
    {b : Nat} (hb : b < t.bucketCount) {key : K} {place : Placement K V}
    (hf : Fits ks t key (t.chain b) place) (value : V) :
    (t.store place (key, value)).Distinct ks := by
  obtain ⟨before, after, h, _⟩ := hl.exchange_store hb hf (key, value)
  refine h.distinct hk hd fun kv hkv => ?_
  cases hkv
  have hin := h.pairsIn_old
  cases hp : place.displaced with
  | none =>
    have hun := hf.unmatched hp
    rw [hin, hp] at hun
    simpa using hun
  | some old =>
    have hold := (hf.of_displaced hp).2
    rw [hp] at hin
    intro x hx
    have hxo := hd.unmatched hk hb hin x hx
    rw [Bool.eq_false_iff] at hxo ⊢
    intro hxk
    exact hxo (hk.trans hxk (hk.symm hold))

theorem Distinct.vacate (hd : t.Distinct ks) (hk : ks.PartialEquivalence) (hl : t.Linked)
    (p : Pos) : (t.vacate p).Distinct ks := by
  cases hp : t.pair? p with
  | none => rwa [t.vacate_of_none hp]
  | some pair =>
    obtain ⟨b, front, back, hb, hs⟩ := hl.exists_split (has_of_pair? hp)
    exact (hl.exchange_vacate hb hs).distinct hk hd fun kv hkv => by cases hkv

theorem Distinct.takeAlong (hd : t.Distinct ks) (hk : ks.PartialEquivalence) (hl : t.Linked)
    (taken : Array (K × V)) (most : Nat) (ps : List Pos) :
    (takeAlong taken t most ps).2.Distinct ks := by
  induction ps generalizing t taken most with
  | nil => cases most <;> exact hd
  | cons p ps ih =>
    cases most with
    | zero => exact hd
    | succ most =>
      unfold Table.takeAlong
      split
      next => exact ih hd hl taken (most + 1)
      next pair _ => exact ih (hd.vacate hk hl p) (hl.vacate p) (taken.push pair) most

/-- Another value leaves the key, and so what it is equal to. -/
theorem Distinct.mapValue (hd : t.Distinct ks) (hk : ks.PartialEquivalence) (hl : t.Linked)
    (p : Pos) (f : V → V) : (t.mapValue p f).Distinct ks := by
  cases hp : t.pair? p with
  | none =>
    have hsame := t.mapValue_of_none hp f
    intro b hb
    rw [hsame.2 b]
    exact hd b (hsame.1 ▸ hb)
  | some old =>
    obtain ⟨b, front, back, hb, hs⟩ := hl.exists_split (has_of_pair? hp)
    have h := hl.exchange_mapValue hb hs f
    rw [hp] at h
    refine h.distinct hk hd fun kv hkv => ?_
    cases hkv
    have hun : Unmatched ks old.1 _ := hd.unmatched hk hb h.pairsIn_old
    exact hun

/-- Two pairs are not found equal if they fall into the same of `n` buckets. -/
def Apart (ks : Keying K) (n : Nat) (x y : K × V) : Prop :=
  (ks.hash x.1).toNat % n = (ks.hash y.1).toNat % n → ks.equals x.1 y.1 = false

/-- Pairs that share one of a multiple of the buckets share one of the buckets. -/
theorem Distinct.pairwise_apart (hd : t.Distinct ks) (hw : t.WellFormed ks) {n : Nat}
    (hn : t.bucketCount ∣ n) : t.pairs.Pairwise (Apart ks n) := by
  rw [pairs_eq_flatMap, List.pairwise_flatMap]
  constructor
  · intro b hb
    refine (hd b (List.mem_range.mp hb)).imp ?_
    intro x y hxy _
    exact hxy
  · refine List.Pairwise.imp_of_mem ?_ List.nodup_range
    -- the same remainder by a multiple is the same remainder
    intro b c hb hc hne x hx y hy hxy
    have hxb : (ks.hash x.1).toNat % t.bucketCount = b :=
      hw.placed b (List.mem_range.mp hb) x hx
    have hyc : (ks.hash y.1).toNat % t.bucketCount = c :=
      hw.placed c (List.mem_range.mp hc) y hy
    rw [← Nat.mod_mod_of_dvd _ hn, hxy, Nat.mod_mod_of_dvd _ hn, hyc] at hxb
    exact absurd hxb.symm hne

end Chaining.Table
