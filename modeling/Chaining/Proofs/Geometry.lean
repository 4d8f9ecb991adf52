import Mathlib.Order.Lattice.Nat
import Chaining.Proofs.Load
import Chaining.Proofs.Map.Counts
import Chaining.Proofs.Map.History

/-!
# The number of buckets as a closed form of the past

Where no fault breaks an operation off and no reservation is refused, the number of buckets
goes with two numbers of growths. So many are `Permits`ted by 64 bits and the limit, whatever
is done to the map. And so many would do for the puts that have been made
(`Suffices`): the first after which each of them would have found the pairs below the
watermark. The map has grown as often as the smaller of the two says (`geometry`).

A put moves the second number by one at most, since it finds the pairs at the watermark or
below (`isLeast_suffices_concat`), and the map grows with it for as long as that is permitted
(`Shaped.put`). Nothing else counts: pairs that are taken out leave the buckets as they are.
-/

namespace Chaining

universe u v

variable {K : Type u} {V : Type v} {ks : Keying K}

/-! ## Numbers of growths -/

namespace Sizing

variable {s : Sizing} {growths : Nat}

/-- The number of buckets after so many growths. -/
def bucketsAfter (s : Sizing) (growths : Nat) : Nat :=
  s.initial.toNat * growthFactor ^ growths

/-- After so many growths, puts that find so many pairs find them below the watermark. -/
def Suffices (s : Sizing) (lens : List Nat) (growths : Nat) : Prop :=
  ∀ len ∈ lens, len < 7 * s.bucketsAfter growths / 10

/-- So many growths leave the number of buckets within 64 bits and within the limit, which
does not bind the number at the start. -/
def Permits (s : Sizing) (growths : Nat) : Prop :=
  s.bucketsAfter growths < UInt64.size ∧
    ∀ most, s.limit = some most → s.bucketsAfter growths ≤ max s.initial.toNat most.toNat

theorem initial_pos (s : Sizing) : 0 < s.initial.toNat :=
  Nat.pos_of_ne_zero fun h => s.initial_ne_zero (UInt64.toNat_inj.mp h)

theorem bucketsAfter_zero (s : Sizing) : s.bucketsAfter 0 = s.initial.toNat :=
  Nat.mul_one _

theorem bucketsAfter_succ (s : Sizing) (growths : Nat) :
    s.bucketsAfter (growths + 1) = s.bucketsAfter growths * growthFactor := by
  unfold bucketsAfter
  rw [Nat.pow_succ, Nat.mul_assoc]

theorem bucketsAfter_pos (s : Sizing) (growths : Nat) : 0 < s.bucketsAfter growths :=
  Nat.mul_pos s.initial_pos (Nat.pow_pos (by decide))

theorem bucketsAfter_le (s : Sizing) {j k : Nat} (h : j ≤ k) :
    s.bucketsAfter j ≤ s.bucketsAfter k :=
  Nat.mul_le_mul_left _ (Nat.pow_le_pow_right (by decide) h)

/-- Each growth raises the watermark. -/
theorem strictMono_watermark (s : Sizing) :
    StrictMono fun growths => 7 * s.bucketsAfter growths / 10 := by
  refine strictMono_nat_of_lt_succ fun j => ?_
  have hroom := succ_watermark_lt (s.bucketsAfter_pos j)
  rw [watermark_eq, watermark_eq, ← bucketsAfter_succ] at hroom
  exact Nat.lt_of_succ_lt hroom

/-- A put that finds no more than the watermark asks for one growth more at most. -/
theorem isLeast_suffices_concat {lens : List Nat} {len reached : Nat}
    (h : IsLeast {j | s.Suffices lens j} reached) (hlen : len ≤ 7 * s.bucketsAfter reached / 10) :
    IsLeast {j | s.Suffices (lens ++ [len]) j}
      (if len < 7 * s.bucketsAfter reached / 10 then reached else reached + 1) := by
  have hmono := s.strictMono_watermark
  have hconcat : ∀ j, s.Suffices (lens ++ [len]) j ↔
      s.Suffices lens j ∧ len < 7 * s.bucketsAfter j / 10 := by
    intro j
    unfold Suffices
    rw [List.forall_mem_append, List.forall_mem_singleton]
  split
  next hlt => exact ⟨(hconcat reached).mpr ⟨h.1, hlt⟩, fun j hj => h.2 ((hconcat j).mp hj).1⟩
  next hnot =>
    have hnext : 7 * s.bucketsAfter reached / 10 < 7 * s.bucketsAfter (reached + 1) / 10 :=
      hmono (Nat.lt_succ_self reached)
    refine ⟨(hconcat _).mpr ⟨fun l hl => Nat.lt_trans (h.1 l hl) hnext, ?_⟩, fun j hj => ?_⟩
    · exact Nat.lt_of_le_of_lt hlen hnext
    · obtain ⟨hlens, hlt⟩ := (hconcat j).mp hj
      have hle : reached ≤ j := h.2 hlens
      have hne : reached ≠ j := by
        rintro rfl
        exact hnot hlt
      exact Nat.lt_of_le_of_ne hle hne

theorem isLeast_suffices_nil (s : Sizing) : IsLeast {j | s.Suffices [] j} 0 :=
  ⟨fun _ h => absurd h List.not_mem_nil, fun j _ => Nat.zero_le j⟩

theorem permits_zero (s : Sizing) : s.Permits 0 := by
  unfold Permits
  rw [bucketsAfter_zero]
  exact ⟨s.initial.toNat_lt, fun most _ => Nat.le_max_left _ _⟩

theorem Permits.of_le {j k : Nat} (h : s.Permits k) (hjk : j ≤ k) : s.Permits j where
  left := Nat.lt_of_le_of_lt (s.bucketsAfter_le hjk) h.1
  right most hmost := Nat.le_trans (s.bucketsAfter_le hjk) (h.2 most hmost)

/-- Growth is allowed as long as one growth more is permitted. -/
theorem grown_bucketsAfter (s : Sizing) (growths : Nat) {next : Nat} :
    s.grown (s.bucketsAfter growths) = some next ↔
      next = s.bucketsAfter (growths + 1) ∧ s.Permits (growths + 1) := by
  rw [grown_eq_some_iff, ← bucketsAfter_succ]
  refine and_congr_right fun hnext => ?_
  rw [hnext]
  refine and_congr_right fun _ => ?_
  -- after a growth there are more buckets than at the start
  have hinitial := s.initial_pos
  have hfirst : s.bucketsAfter (0 + 1) ≤ s.bucketsAfter (growths + 1) :=
    s.bucketsAfter_le (Nat.add_le_add_right (Nat.zero_le growths) 1)
  rw [bucketsAfter_succ s 0, bucketsAfter_zero, growthFactor] at hfirst
  unfold allows
  cases s.limit with
  | none => simp
  | some most =>
    simp only [decide_eq_true_eq, Option.some.injEq, forall_eq']
    omega

/-- There is a last number of growths that is permitted. -/
theorem exists_isGreatest_permits (s : Sizing) :
    ∃ allowed, IsGreatest {j | s.Permits j} allowed := by
  have hbounded : BddAbove {j | s.Permits j} := by
    refine ⟨32, fun j hj => ?_⟩
    have hpow : growthFactor ^ j ≤ s.bucketsAfter j := Nat.le_mul_of_pos_left _ s.initial_pos
    have hsize : UInt64.size = growthFactor ^ 32 := by decide
    have hlt : growthFactor ^ j < growthFactor ^ 32 := hsize ▸ Nat.lt_of_le_of_lt hpow hj.1
    exact Nat.le_of_lt ((Nat.pow_lt_pow_iff_right (by decide)).mp hlt)
  exact ⟨_, Nat.sSup_mem ⟨0, s.permits_zero⟩ hbounded, fun j hj => le_csSup hbounded hj⟩

/-- At the watermark a map grows for as long as that is permitted. -/
theorem room_bucketsAfter {allowed : Nat} (h : IsGreatest {j | s.Permits j} allowed)
    (hle : growths ≤ allowed) (len : Nat) :
    (s.room len (s.bucketsAfter growths)).2 =
      s.bucketsAfter
        (if len < 7 * s.bucketsAfter growths / 10 then growths else min (growths + 1) allowed) := by
  unfold room
  rw [watermark_eq]
  split
  next => rfl
  next =>
    rcases Nat.lt_or_eq_of_le hle with hlt | rfl
    · have hgrown := (s.grown_bucketsAfter growths).mpr ⟨rfl, h.1.of_le hlt⟩
      rw [hgrown, Nat.min_eq_left hlt]
    · have hnone : s.grown (s.bucketsAfter growths) = none := by
        refine Option.eq_none_iff_forall_ne_some.mpr fun next hnext => ?_
        have hmore : growths + 1 ≤ growths := h.2 ((s.grown_bucketsAfter growths).mp hnext).2
        omega
      rw [hnone, Nat.min_eq_right (Nat.le_succ growths)]

end Sizing

namespace Map

open Table

variable {m after : Map ks V} {c : Conditions} {releases : List (Release K V)}

/-! ## The puts of a history -/

/-- How many pairs the puts of a history have found, those that were rejected among them. -/
def lensAtPuts (m : Map ks V) (history : List (Deed K V)) : List Nat :=
  ((m.turnsIn history).filter fun turn => turn.request.isPut).map fun turn => turn.before.len

theorem lensAtPuts_cons (m : Map ks V) (deed : Deed K V) (rest : List (Deed K V)) :
    m.lensAtPuts (deed :: rest) = m.lensAtPuts [deed] ++ (m.undergo deed).lensAtPuts rest := by
  simp [lensAtPuts, turnsIn]

/-- The number of buckets goes with what is permitted and what the puts so far ask for. -/
def Shaped (m : Map ks V) (allowed : Nat) (lens : List Nat) : Prop :=
  ∃ reached, IsLeast {j | m.sizing.Suffices lens j} reached ∧
    m.bucketCount = m.sizing.bucketsAfter (min reached allowed)

theorem shaped_ofSizing (ks : Keying K) (sizing : Sizing) (allowed : Nat) :
    (ofSizing ks sizing : Map ks V).Shaped allowed [] := by
  refine ⟨0, sizing.isLeast_suffices_nil, ?_⟩
  have hcount : (ofSizing ks sizing : Map ks V).bucketCount = sizing.initial.toNat :=
    bucketCount_ofBuckets _
  rw [hcount, Nat.zero_min]
  exact sizing.bucketsAfter_zero.symm

/-- A put grows the map if it asks for one growth more and that is permitted. -/
theorem Shaped.room {allowed : Nat} {lens : List Nat} (h : m.Shaped allowed lens)
    (hallowed : IsGreatest {j | m.sizing.Permits j} allowed) (hl : m.Loaded) :
    ∃ reached, IsLeast {j | m.sizing.Suffices (lens ++ [m.len]) j} reached ∧
      (m.sizing.room m.len m.bucketCount).2 = m.sizing.bucketsAfter (min reached allowed) := by
  obtain ⟨reached, hreached, hcount⟩ := h
  have hmono := m.sizing.strictMono_watermark
  have hlen : m.len ≤ 7 * m.sizing.bucketsAfter (min reached allowed) / 10 := by
    have hle := hl.len_le
    rwa [hl.toGauged.watermark_eq_div, hcount] at hle
  have hmark : 7 * m.sizing.bucketsAfter (min reached allowed) / 10 ≤
      7 * m.sizing.bucketsAfter reached / 10 := hmono.monotone (Nat.min_le_left _ _)
  refine ⟨_, Sizing.isLeast_suffices_concat hreached (Nat.le_trans hlen hmark), ?_⟩
  rw [hcount, Sizing.room_bucketsAfter hallowed (Nat.min_le_right _ _)]
  refine congrArg _ ?_
  by_cases hbelow : m.len < 7 * m.sizing.bucketsAfter (min reached allowed) / 10
  · rw [if_pos hbelow, if_pos (Nat.lt_of_lt_of_le hbelow hmark)]
  · rw [if_neg hbelow]
    by_cases hle : reached ≤ allowed
    · rw [Nat.min_eq_left hle] at hbelow ⊢
      rw [if_neg hbelow]
    · -- more would be asked for than is permitted, so the watermark is lower than it should be
      have hlt : allowed < reached := Nat.lt_of_not_le hle
      have hlower : 7 * m.sizing.bucketsAfter allowed / 10 <
          7 * m.sizing.bucketsAfter reached / 10 := hmono hlt
      rw [Nat.min_eq_right (Nat.le_of_lt hlt)] at hlen ⊢
      rw [if_pos (Nat.lt_of_le_of_lt hlen hlower)]
      omega

/-- A deed that nothing disturbs leaves as many buckets as its past asks for. -/
theorem Shaped.undergo {allowed : Nat} {lens : List Nat} (h : m.Shaped allowed lens)
    (hallowed : IsGreatest {j | m.sizing.Permits j} allowed) (hm : m.Reachable) (deed : Deed K V)
    (hok : ∀ turn ∈ m.turnsIn [deed], turn.outcome.answer.undisturbed = true) :
    (m.undergo deed).Shaped allowed (lens ++ m.lensAtPuts [deed]) := by
  unfold Shaped
  rw [m.sizing_undergo deed]
  cases deed with
  | visit s f =>
    rw [(m.counts_visit s f).1, show m.lensAtPuts [.visit s f] = [] from rfl, List.append_nil]
    exact h
  | request c request =>
    have hstep := m.respond_step c request
    have hroom := hstep.room_eq hm.wellFormed hm.gauged (hok _ (List.mem_singleton_self _))
    obtain ⟨_, hcount⟩ := Prod.mk.inj hroom
    have hafter : (m.undergo (.request c request)).bucketCount =
        (request.room m.sizing m.len m.bucketCount).2 := hcount
    rw [hafter]
    cases request with
    | put key value => exact h.room hallowed hm.loaded
    | _ => exact (List.append_nil lens).symm ▸ h

theorem Shaped.later {allowed : Nat} {lens : List Nat} (h : m.Shaped allowed lens)
    (hallowed : IsGreatest {j | m.sizing.Permits j} allowed) (hm : m.Reachable)
    (history : List (Deed K V))
    (hok : ∀ turn ∈ m.turnsIn history, turn.outcome.answer.undisturbed = true) :
    (m.later history).Shaped allowed (lens ++ m.lensAtPuts history) := by
  induction history generalizing m lens with
  | nil => exact (List.append_nil lens).symm ▸ h
  | cons deed rest ih =>
    have hfirst : ∀ turn ∈ m.turnsIn [deed], turn.outcome.answer.undisturbed = true := by
      intro turn hturn
      refine hok turn (List.mem_append_left _ ?_)
      rwa [turnsIn, turnsIn, List.append_nil] at hturn
    rw [lensAtPuts_cons, ← List.append_assoc]
    exact ih (h.undergo hallowed hm deed hfirst) (m.sizing_undergo deed ▸ hallowed)
      (hm.undergo deed) fun turn hturn => hok turn (List.mem_append_right _ hturn)

/-- How the number of buckets has come of what was done to a map. -/
structure Geometry (m : Map ks V) (history : List (Deed K V)) : Prop where
  /-- The map has grown as often as its puts ask for, or as is permitted if that is less. -/
  bucketCount_eq : ∃ reached allowed,
    IsLeast {j | m.sizing.Suffices (m.lensAtPuts history) j} reached ∧
      IsGreatest {j | m.sizing.Permits j} allowed ∧
      (m.later history).bucketCount = m.sizing.bucketsAfter (min reached allowed)
  within_limit : ∀ most, m.sizing.limit = some most →
    (m.later history).bucketCount ≤ max m.sizing.initial.toNat most.toNat
  never_fewer : ∀ front back, history = front ++ back →
    (m.later front).bucketCount ≤ (m.later history).bucketCount
  /-- What is no put leaves the buckets alone, and so do removals. -/
  only_puts : ∀ turn ∈ m.turnsIn history, turn.request.isPut = false →
    turn.outcome.map.bucketCount = turn.before.bucketCount

/-- The buckets of a map, started by any sizing, are as many as the puts of its history ask
for, as far as is permitted. -/
theorem geometry (ks : Keying K) (sizing : Sizing) (history : List (Deed K V))
    (hok : ∀ turn ∈ (ofSizing ks sizing : Map ks V).turnsIn history,
      turn.outcome.answer.undisturbed = true) :
    (ofSizing ks sizing : Map ks V).Geometry history := by
  have hnew : (ofSizing ks sizing : Map ks V).Reachable := .ofSizing ks sizing
  obtain ⟨allowed, hallowed⟩ := sizing.exists_isGreatest_permits
  obtain ⟨reached, hreached, hcount⟩ :=
    (shaped_ofSizing ks sizing allowed).later hallowed hnew history hok
  rw [sizing_later] at hreached hcount
  refine ⟨⟨reached, allowed, hreached, hallowed, hcount⟩, ?_, ?_, ?_⟩
  · intro most hmost
    rw [hcount]
    exact (hallowed.1.of_le (Nat.min_le_right reached allowed)).2 most hmost
  · rintro front back rfl
    rw [later_append]
    exact (hnew.later front).bucketCount_le_later back
  · intro turn hturn hput
    obtain ⟨hbefore, hout⟩ := of_mem_turnsIn hnew hturn
    have hstep := turn.before.respond_step turn.conditions turn.request
    rw [← hout] at hstep
    obtain ⟨_, hroom⟩ :=
      Prod.mk.inj (hstep.room_eq hbefore.wellFormed hbefore.gauged (hok turn hturn))
    rw [hroom]
    cases hrequest : turn.request with
    | put key value =>
      rw [hrequest] at hput
      cases hput
    | _ => rfl

/-- A map that starts with one bucket and may have four: a put at the limit, which is
rejected, comes between others, a removal and a visit. -/
def confined : List (Deed UInt64 Nat) :=
  [.request {} (.put 0 10), .request {} (.put 1 11), .request {} (.put 2 12),
    .request {} (.remove 0), .visit (Sweep.ofTable (Table.ofBuckets 4 : Table UInt64 Nat)) (· + 1),
    .request {} (.put 3 13)]

/-- Three puts have asked for a second growth, but one is all that is permitted. -/
theorem geometry_confined :
    (ofSizing Keying.word ((Sizing.standard.withInitial 1).withLimit 4)).lensAtPuts confined =
        [0, 1, 2, 1] ∧
      (ofSizing Keying.word ((Sizing.standard.withInitial 1).withLimit 4)).Geometry confined ∧
      ((ofSizing Keying.word ((Sizing.standard.withInitial 1).withLimit 4)).later
        confined).bucketCount = 4 :=
  ⟨by decide, geometry _ _ confined (by decide), by decide⟩

end Map

end Chaining
