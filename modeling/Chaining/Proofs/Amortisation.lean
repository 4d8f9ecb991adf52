import Chaining.Proofs.Load
import Chaining.Proofs.Map.Calls

/-!
# What growth costs over a history

A growth moves all pairs, but it comes only when they have reached the watermark, and it raises
the watermark by three times as much or more (`watermark_add_le`). So the watermark pays: three
times what all growths so far have moved is never above it, and since the last of them found
the pairs at the watermark it is not above four times the most pairs there have been
(`Covered`). No deed upsets that (`Covered.undergo`), least of all one that takes pairs out,
since the buckets, and with them the watermark, stay.

Every pair there has been was brought by a put, and growth hashes a key twice for each pair
that it moves. So it makes no more than eight calls of the hash for three pairs brought, and
every request makes one of its own (`amortised`).
-/

namespace Chaining

open Table

universe u v

variable {K : Type u} {V : Type v} {ks : Keying K}

/-- A growth at the watermark adds three times the watermark to it, or more. -/
theorem watermark_add_le (buckets : Nat) :
    watermark buckets + 3 * watermark buckets ≤ watermark (buckets * growthFactor) := by
  rw [watermark_eq, watermark_eq, growthFactor]
  omega

/-- Whether a request has added a pair. -/
def Answer.inserts : Answer K V → Bool
  | .put (.stored .inserted) => true
  | _ => false

theorem Account.length_le {ps qs : List (K × V)} {request : Request K V} {answer : Answer K V}
    {releases : List (Release K V)} (h : Account ks ps qs request answer releases) :
    qs.length ≤ ps.length + answer.inserts.toNat := by
  cases h with
  | inserted hq => exact Nat.le_of_eq hq.length_eq
  | replaced _ hm hold hnew =>
    rw [← hm.length_eq, hold, hnew, List.length_append, List.length_append]
    exact Nat.le_refl _
  | rejected hq => exact Nat.le_of_eq hq.length_eq
  | removed _ hold hnew =>
    rw [hold, hnew, List.length_append, List.length_append, List.length_cons]
    omega
  | stolen _ hold hnew =>
    rw [hold, hnew, List.length_append, List.length_append, List.length_cons]
    omega
  | modified _ hold hnew =>
    rw [hold, hnew, List.length_append, List.length_append]
    exact Nat.le_refl _
  | notRemoved hq => exact hq ▸ Nat.le_add_right _ _
  | notStolen hq => exact hq ▸ Nat.le_add_right _ _
  | notModified hq => exact hq ▸ Nat.le_add_right _ _
  | read _ hq => exact hq ▸ Nat.le_add_right _ _

/-- What was done in a turn. -/
def Turn.deed (turn : Turn ks V) : Deed K V :=
  .request turn.conditions turn.request

namespace Map

variable {m base after : Map ks V} {c : Conditions} {releases : List (Release K V)}
  {deed : Deed K V}

/-! ## One growth -/

/-- How many pairs the growth that a deed begins with has moved. -/
def movedBy (m : Map ks V) (deed : Deed K V) : Nat :=
  match m.grownTo? deed with
  | none => 0
  | some _ => m.len

/-- What the growth that a deed begins with costs, and what the watermark gains by it. -/
structure Charged (m : Map ks V) (deed : Deed K V) (after : Map ks V) : Prop where
  hashed_eq : (m.hashedInGrowth deed).length = 2 * m.movedBy deed
  /-- Pairs are moved when they are at the watermark. -/
  movedBy_eq : m.movedBy deed = 0 ∨ m.movedBy deed = m.watermark ∧ m.len = m.watermark
  watermark_le : m.watermark + 3 * m.movedBy deed ≤ after.watermark

/-- Without a growth nothing is charged. -/
theorem Charged.of_not_grown (hgrown : m.grownTo? deed = none)
    (hhashed : m.hashedInGrowth deed = []) (hmark : after.watermark = m.watermark) :
    m.Charged deed after := by
  have hmoved : m.movedBy deed = 0 := by rw [movedBy, hgrown]
  refine ⟨?_, Or.inl hmoved, ?_⟩
  · rw [hhashed, hmoved]
    rfl
  · rw [hmoved, hmark]
    exact Nat.le_refl _

theorem Puts.charged {key : K} {value : V} {result : PutResult K V}
    (h : m.Puts c key value result after releases) (hw : m.table.WellFormed ks) (hl : m.Loaded)
    (hok : (Answer.put result).undisturbed = true) :
    m.Charged (.request c (.put key value)) after := by
  cases h with
  | broken _ _ => cases hok
  | notGrown hfull hg =>
    refine .of_not_grown ?_ ?_ rfl
    · rw [grownTo?_of_le hfull, hg]
      rfl
    · obtain ⟨_, _, rfl⟩ := full_of_refused hg hok
      rw [hashedInGrowth, growth?_of_le hfull, hg]
      rfl
  | placed hp hplaces =>
    cases hp with
    | asIs hlt =>
      refine .of_not_grown (grownTo?_of_lt hlt) ?_ hplaces.watermark_eq
      rw [hashedInGrowth, growth?_of_lt hlt]
    | @grown base calls reservations hfull hg =>
      have hlen : m.len = m.watermark := Nat.le_antisymm hl.len_le hfull
      have hmoved : m.movedBy (.request c (.put key value)) = m.len := by
        rw [movedBy, grownTo?_of_le hfull, hg]
        rfl
      have hkeys : (hashed calls).length = 2 * m.len := by
        have hpairs : m.len = m.pairs.length := hw.len_eq
        have hslots : m.table.keysBySlot.length = m.pairs.length := by
          rw [hw.linked.perm_keysBySlot.length_eq, List.length_map]
          rfl
        rw [grow_grown_hashed hg hw, List.length_append, List.length_map]
        omega
      refine ⟨?_, Or.inr ⟨hmoved.trans hlen, hlen⟩, ?_⟩
      · rw [hmoved, hashedInGrowth, growth?_of_le hfull, hg]
        exact hkeys
      · have hmark : after.watermark = Chaining.watermark (m.bucketCount * growthFactor) := by
          rw [hplaces.watermark_eq, (grow_grown_gauged hg).watermark_eq,
            (grow_grown_wellFormed hg hw).2.1]
        rw [hmoved, hlen, hl.watermark_eq, hmark]
        exact watermark_add_le m.bucketCount

theorem Reachable.charged (hm : m.Reachable) (c : Conditions) (request : Request K V)
    (hok : (m.respond c request).answer.undisturbed = true) :
    m.Charged (.request c request) (m.respond c request).map := by
  have hstep := m.respond_step c request
  cases request with
  | put key value => exact (m.put_puts c key value).charged hm.wellFormed hm.loaded hok
  | _ =>
    obtain ⟨_, hcount⟩ := Prod.mk.inj (hstep.room_eq hm.wellFormed hm.gauged hok)
    exact .of_not_grown rfl rfl (hm.gauged.watermark_congr (hstep.gauged hm.gauged) hcount)

end Map

/-! ## Expenses -/

/-- What a history has cost so far, and what it has brought. -/
structure Expense where
  /-- The pairs that growths have moved. -/
  moved : Nat
  /-- The calls of the hash that growths have made. -/
  hashed : Nat
  /-- The most pairs there have been. -/
  largest : Nat
  /-- The puts that have added a pair. -/
  inserted : Nat
  deriving DecidableEq

/-- With one more turn. -/
def Expense.add (e : Expense) (turn : Turn ks V) : Expense where
  moved := e.moved + turn.before.movedBy turn.deed
  hashed := e.hashed + (turn.before.hashedInGrowth turn.deed).length
  largest := max e.largest turn.outcome.map.len
  inserted := e.inserted + turn.outcome.answer.inserts.toNat

namespace Map

variable {m : Map ks V} {e : Expense}

/-- The expense of a history. -/
def expense (m : Map ks V) (history : List (Deed K V)) : Expense :=
  (m.turnsIn history).foldl Expense.add ⟨0, 0, m.len, 0⟩

/-- The watermark, and the most pairs there have been, pay for what has been moved. -/
structure Covered (m : Map ks V) (e : Expense) : Prop where
  moved_le_watermark : 3 * e.moved ≤ m.watermark
  moved_le : 3 * e.moved ≤ 4 * e.largest
  hashed_eq : e.hashed = 2 * e.moved
  len_le : m.len ≤ e.largest
  largest_le : e.largest ≤ e.inserted

theorem covered_ofSizing (ks : Keying K) (sizing : Sizing) :
    (ofSizing ks sizing : Map ks V).Covered ⟨0, 0, 0, 0⟩ where
  moved_le_watermark := Nat.zero_le _
  moved_le := Nat.zero_le _
  hashed_eq := rfl
  len_le := Nat.le_refl 0
  largest_le := Nat.le_refl 0

theorem Covered.respond (h : m.Covered e) (hm : m.Reachable) (c : Conditions)
    (request : Request K V) (hok : (m.respond c request).answer.undisturbed = true) :
    (m.respond c request).map.Covered (e.add ⟨m, c, request, m.respond c request⟩) := by
  obtain ⟨hwatermark, hlargest, hhashed, hlen, hinserted⟩ := h
  have hcharged := hm.charged c request hok
  have hw := hm.wellFormed
  have hstep := m.respond_step c request
  have hlength := (hstep.account hw (Answer.isFault_of_undisturbed hok)).length_le
  have hbefore : m.len = m.pairs.length := hw.len_eq
  have hafter : (m.respond c request).map.len = (m.respond c request).map.pairs.length :=
    (hstep.wellFormed hw).len_eq
  have hcost := hcharged.hashed_eq
  have hgain := hcharged.watermark_le
  have hmoved := hcharged.movedBy_eq
  constructor
  · show 3 * (e.moved + m.movedBy (.request c request)) ≤ _
    omega
  · show 3 * (e.moved + m.movedBy (.request c request)) ≤ 4 * max e.largest _
    omega
  · show e.hashed + (m.hashedInGrowth (.request c request)).length =
      2 * (e.moved + m.movedBy (.request c request))
    omega
  · exact Nat.le_max_right _ _
  · show max e.largest (m.respond c request).map.len ≤
      e.inserted + (m.respond c request).answer.inserts.toNat
    omega

/-- A visit changes no count. -/
theorem Covered.visit (h : m.Covered e) (s : Sweep) (f : V → V) :
    (m.undergo (.visit s f)).Covered e := by
  obtain ⟨_, hlen⟩ := m.counts_visit s f
  have hmark : (m.undergo (.visit s f)).watermark = m.watermark := rfl
  exact ⟨hmark ▸ h.moved_le_watermark, h.moved_le, h.hashed_eq, hlen ▸ h.len_le, h.largest_le⟩

theorem Covered.later (h : m.Covered e) (hm : m.Reachable) (history : List (Deed K V))
    (hok : ∀ turn ∈ m.turnsIn history, turn.outcome.answer.undisturbed = true) :
    (m.later history).Covered ((m.turnsIn history).foldl Expense.add e) := by
  induction history generalizing m e with
  | nil => exact h
  | cons deed rest ih =>
    cases deed with
    | visit s f => exact ih (h.visit s f) (hm.visited s f) hok
    | request c request =>
      have hfirst := hok _ List.mem_cons_self
      exact ih (h.respond hm c request hfirst) (hm.responded c request)
        fun turn hturn => hok turn (List.mem_cons_of_mem _ hturn)

/-- What a history has cost in growth, and what each turn hashes. -/
structure Amortised (m : Map ks V) (history : List (Deed K V)) : Prop where
  moved_le : 3 * (m.expense history).moved ≤ 4 * (m.expense history).largest
  hashed_le : 3 * (m.expense history).hashed ≤ 8 * (m.expense history).inserted
  /-- Besides what growth hashes, each turn hashes the key that it is about, once. A put for
  which no more buckets are allowed hashes nothing. -/
  hashed_turn : ∀ turn ∈ m.turnsIn history,
    (turn.outcome.answer.refusal = none ∧ hashed turn.outcome.transcript.calls =
        turn.before.hashedInGrowth turn.deed ++ turn.request.key?.toList) ∨
      ∃ buckets, turn.outcome.answer.refusal = some (.capacityOverflow buckets) ∧
        turn.outcome.transcript.calls = #[]

/-- In a history without faults and without refused reservations, growth moves no more pairs
than four for three that there have been at once, and hashes no more keys than eight for three
puts that have added a pair. -/
theorem amortised (ks : Keying K) (sizing : Sizing) (history : List (Deed K V))
    (hok : ∀ turn ∈ (ofSizing ks sizing : Map ks V).turnsIn history,
      turn.outcome.answer.undisturbed = true) :
    (ofSizing ks sizing : Map ks V).Amortised history := by
  have hnew : (ofSizing ks sizing : Map ks V).Reachable := .ofSizing ks sizing
  have hcovered : ((ofSizing ks sizing : Map ks V).later history).Covered
      ((ofSizing ks sizing : Map ks V).expense history) :=
    (covered_ofSizing ks sizing).later hnew history hok
  have hhashed := hcovered.hashed_eq
  have hmoved := hcovered.moved_le
  have hinserted := hcovered.largest_le
  refine ⟨hmoved, by omega, fun turn hturn => ?_⟩
  obtain ⟨_, hout⟩ := of_mem_turnsIn hnew hturn
  have hturn' := hok turn hturn
  rw [hout] at hturn' ⊢
  obtain ⟨hkeys, hnothing⟩ :=
    turn.before.respond_hashed turn.conditions turn.request hturn'
  rcases Answer.refusal_of_undisturbed hturn' with hnone | ⟨buckets, hrefused⟩
  · exact Or.inl ⟨hnone, hkeys hnone⟩
  · exact Or.inr ⟨buckets, hrefused, hnothing (by rw [hrefused]; exact Option.some_ne_none _)⟩

/-- Two buckets that may become eight: a put that only replaces lets the map grow, and the
last put, which would replace as well, is turned down. -/
def replacing : List (Deed UInt64 Nat) :=
  [.request {} (.put 0 10), .request {} (.put 0 11), .request {} (.put 8 12),
    .request {} (.remove 0), .request {} (.put 1 13), .request {} (.put 2 14),
    .request {} (.put 3 15), .request {} (.put 4 16), .request {} (.put 4 17),
    .request {} (.get 8)]

/-- One pair has been moved, and its key hashed twice for that. -/
theorem amortised_replacing :
    (ofSizing Keying.word ((Sizing.standard.withInitial 2).withLimit 8)).Amortised replacing ∧
      (ofSizing Keying.word ((Sizing.standard.withInitial 2).withLimit 8)).expense replacing =
        { moved := 1, hashed := 2, largest := 5, inserted := 6 } :=
  ⟨amortised _ _ replacing (by decide), by decide⟩

end Map

end Chaining
