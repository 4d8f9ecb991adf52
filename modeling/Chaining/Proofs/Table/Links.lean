import Mathlib.Data.List.Nodup
import Chaining.Table.Lemmas

/-!
# Links: every extension slot is on one chain, once

`Linked` says four things of single links: a link leads to a slot that there
is, it leads to a slot created later, no two links lead to the same slot, and
every extension slot is led to. Nothing in it speaks of chains, so an operation
that keeps the links keeps it, and one that adds a link has only that link to
look at (`Linked.append`).

What chains look like follows. `Path` is the walk along the links with no bound
on its length and no slot missing on the way. A walk from an extension slot
passes later and later ones, so it ends (`Linked.path_extension`) and repeats
none (`Path.nodup`). Going back along the links, which no two slots share, leads
from every slot to the head of one bucket: the chains cover the table
(`Linked.exists_chain`) and no two of them meet (`Linked.chain_unique`).
-/

namespace Chaining.Table

universe u v

variable {K : Type u} {V : Type v} {t : Table K V}

/-- The table has a slot at that position. -/
def Has (t : Table K V) (p : Pos) : Prop :=
  (t.slot? p).isSome

@[simp] theorem has_head {b : Nat} : t.Has (.head b) ↔ b < t.bucketCount := by
  simp [Has, slot?, bucketCount]

@[simp] theorem has_extension {i : Nat} : t.Has (.extension i) ↔ i < t.arena.size := by
  simp [Has, slot?]

theorem has_of_next? {p : Pos} {i : Nat} (h : t.next? p = some i) : t.Has p := by
  obtain ⟨s, hs, _⟩ := Option.bind_eq_some_iff.mp h
  exact Option.isSome_of_eq_some hs

theorem has_of_pair? {p : Pos} {pair : K × V} (h : t.pair? p = some pair) : t.Has p := by
  obtain ⟨s, hs, _⟩ := Option.bind_eq_some_iff.mp h
  exact Option.isSome_of_eq_some hs

/-- The walk along the links from a position passes these positions, at each of
which there is a slot, and then ends. -/
inductive Path (t : Table K V) : Pos → List Pos → Prop where
  | last {p : Pos} : t.Has p → t.next? p = none → Path t p [p]
  | step {p : Pos} {i : Nat} {ps : List Pos} :
      t.next? p = some i → Path t (.extension i) ps → Path t p (p :: ps)

/-- The links are such that chains cannot meet, close up or lead nowhere. -/
structure Linked (t : Table K V) : Prop where
  /-- A link leads to a slot there is. -/
  lt_size : ∀ {p i}, t.next? p = some i → i < t.arena.size
  /-- The link of an extension slot leads to one created later. -/
  later : ∀ {i j}, t.next? (.extension i) = some j → i < j
  /-- No two links lead to the same slot. -/
  unique : ∀ {p q i}, t.next? p = some i → t.next? q = some i → p = q
  /-- Every extension slot is led to. -/
  reached : ∀ {i}, i < t.arena.size → ∃ p, t.next? p = some i

namespace Path

variable {p q : Pos} {ps : List Pos}

theorem has (h : t.Path p ps) (hq : q ∈ ps) : t.Has q := by
  induction h with
  | last hp _ =>
    rw [List.mem_singleton.mp hq]
    exact hp
  | step hn _ ih =>
    rcases List.mem_cons.mp hq with rfl | hq
    · exact has_of_next? hn
    · exact ih hq

/-- A walk passes its start and what the links on it lead to. -/
theorem mem_iff (h : t.Path p ps) :
    q ∈ ps ↔ q = p ∨ ∃ r ∈ ps, ∃ i, t.next? r = some i ∧ q = .extension i := by
  induction h with
  | @last p _ hn =>
    constructor
    · intro hq
      exact Or.inl (List.mem_singleton.mp hq)
    · rintro (rfl | ⟨r, hr, i, hi, _⟩)
      · exact List.mem_singleton_self _
      · rw [List.mem_singleton.mp hr, hn] at hi
        cases hi
  | @step p i ps hn _ ih =>
    constructor
    · intro hq
      rcases List.mem_cons.mp hq with rfl | hq
      · exact Or.inl rfl
      · rcases ih.mp hq with rfl | ⟨r, hr, j, hj, rfl⟩
        · exact Or.inr ⟨p, List.mem_cons_self, i, hn, rfl⟩
        · exact Or.inr ⟨r, List.mem_cons_of_mem _ hr, j, hj, rfl⟩
    · rintro (rfl | ⟨r, hr, j, hj, rfl⟩)
      · exact List.mem_cons_self
      · apply List.mem_cons_of_mem
        rcases List.mem_cons.mp hr with rfl | hr
        · rw [hn] at hj
          cases hj
          exact ih.mpr (Or.inl rfl)
        · exact ih.mpr (Or.inr ⟨r, hr, j, hj, rfl⟩)

theorem next?_eq_none (h : t.Path p (ps ++ [q])) : t.next? q = none := by
  generalize hqs : ps ++ [q] = qs at h
  induction h generalizing ps with
  | last _ hn =>
    cases ps with
    | nil =>
      cases hqs
      exact hn
    | cons r ps => simp at hqs
  | step _ hr ih =>
    cases ps with
    | nil =>
      cases hqs
      cases hr
    | cons r ps =>
      cases hqs
      exact ih rfl

/-- The walk that `chainFrom` takes with a bound is cut short by no bound that
the walk fits into. -/
theorem chainFrom_eq (h : t.Path p ps) {bound : Nat} (hb : ps.length ≤ bound) :
    t.chainFrom bound p = ps := by
  induction h generalizing bound with
  | last _ hn =>
    obtain ⟨bound, rfl⟩ : ∃ n, bound = n + 1 := ⟨bound - 1, by simp at hb; omega⟩
    unfold chainFrom
    rw [hn]
  | step hn _ ih =>
    obtain ⟨bound, rfl⟩ : ∃ n, bound = n + 1 := ⟨bound - 1, by simp at hb; omega⟩
    unfold chainFrom
    rw [hn]
    exact congrArg _ (ih (by simpa using hb))

theorem eq_of_path {qs : List Pos} (h : t.Path p ps) (h' : t.Path p qs) : ps = qs := by
  rw [← h.chainFrom_eq (Nat.le_max_left ps.length qs.length),
    h'.chainFrom_eq (Nat.le_max_right ps.length qs.length)]

/-- A walk from an extension slot passes no slot created earlier. -/
theorem exists_ge_of_mem (hl : t.Linked) {i : Nat} (h : t.Path (.extension i) ps)
    (hq : q ∈ ps) : ∃ j, q = .extension j ∧ i ≤ j := by
  generalize hp : Pos.extension i = p at h
  induction h generalizing i with
  | last _ _ => exact ⟨i, by rw [hp, List.mem_singleton.mp hq], Nat.le_refl i⟩
  | step hn _ ih =>
    subst hp
    rcases List.mem_cons.mp hq with rfl | hq
    · exact ⟨i, rfl, Nat.le_refl i⟩
    · obtain ⟨k, hk, hjk⟩ := ih hq rfl
      exact ⟨k, hk, Nat.le_trans (Nat.le_of_lt (hl.later hn)) hjk⟩

/-- From a slot on it the walk goes on as the walk from there. -/
theorem exists_of_mem (h : t.Path p ps) (hq : q ∈ ps) :
    ∃ front qs, ps = front ++ qs ∧ t.Path q qs := by
  induction h with
  | @last p hp hn =>
    obtain rfl := List.mem_singleton.mp hq
    exact ⟨[], [q], rfl, .last hp hn⟩
  | @step p i ps hn hr ih =>
    rcases List.mem_cons.mp hq with rfl | hq
    · exact ⟨[], q :: ps, rfl, .step hn hr⟩
    · obtain ⟨front, qs, rfl, hqs⟩ := ih hq
      exact ⟨p :: front, qs, rfl, hqs⟩

theorem nodup (hl : t.Linked) (h : t.Path p ps) : ps.Nodup := by
  induction h with
  | last _ _ => exact List.nodup_singleton _
  | step hn hr ih =>
    -- all that follows was created later than the slot the link leads to
    refine List.nodup_cons.mpr ⟨fun hmem => ?_, ih⟩
    obtain ⟨j, rfl, hij⟩ := hr.exists_ge_of_mem hl hmem
    have hji := hl.later hn
    omega

end Path

theorem length_chainFrom_le (t : Table K V) (bound : Nat) (p : Pos) :
    (t.chainFrom bound p).length ≤ bound := by
  induction bound generalizing p with
  | zero => exact Nat.le_refl 0
  | succ bound ih =>
    unfold chainFrom
    cases t.next? p with
    | none => simp
    | some i => simpa using ih (.extension i)

namespace Linked

/-- Later and later slots run out after as many as were created from the first
one on. -/
theorem path_extension (hl : t.Linked) (bound : Nat) {i : Nat} (hi : i < t.arena.size)
    (hb : t.arena.size - i ≤ bound) :
    t.Path (.extension i) (t.chainFrom bound (.extension i)) := by
  induction bound generalizing i with
  | zero => omega
  | succ bound ih =>
    unfold chainFrom
    cases hn : t.next? (.extension i) with
    | none => exact .last (has_extension.mpr hi) hn
    | some j =>
      have hj := hl.lt_size hn
      have hij := hl.later hn
      exact .step hn (ih hj (by omega))

theorem path_chain (hl : t.Linked) {b : Nat} (hb : b < t.bucketCount) :
    t.Path (.head b) (t.chain b) := by
  unfold chain chainFrom
  cases hn : t.next? (.head b) with
  | none => exact .last (has_head.mpr hb) hn
  | some i => exact .step hn (hl.path_extension _ (hl.lt_size hn) (Nat.sub_le _ _))

/-- A walk passes at most one head and each extension slot once, so a bound one
above their number cuts no walk short. -/
theorem exists_path (hl : t.Linked) {p : Pos} (hp : t.Has p) :
    ∃ ps, t.Path p ps ∧ ps.length ≤ t.arena.size + 1 := by
  cases p with
  | head b =>
    exact ⟨t.chain b, hl.path_chain (has_head.mp hp), length_chainFrom_le t _ _⟩
  | extension i =>
    have hpath := hl.path_extension t.arena.size (has_extension.mp hp) (Nat.sub_le _ _)
    exact ⟨_, hpath, Nat.le_succ_of_le (length_chainFrom_le t _ _)⟩

theorem head_mem_chain (hl : t.Linked) {b c : Nat} (hb : b < t.bucketCount) :
    .head c ∈ t.chain b ↔ c = b := by
  constructor
  · intro h
    rcases (hl.path_chain hb).mem_iff.mp h with h | ⟨_, _, _, _, h⟩ <;> cases h
    rfl
  · rintro rfl
    exact (hl.path_chain hb).mem_iff.mpr (Or.inl rfl)

/-- An extension slot is on a chain if the slot that leads to it is. -/
theorem extension_mem_chain (hl : t.Linked) {b i : Nat} {p : Pos} (hb : b < t.bucketCount)
    (hp : t.next? p = some i) : .extension i ∈ t.chain b ↔ p ∈ t.chain b := by
  constructor
  · intro h
    rcases (hl.path_chain hb).mem_iff.mp h with h | ⟨r, hr, j, hj, h⟩
    · cases h
    · cases h
      rwa [hl.unique hp hj]
  · intro h
    exact (hl.path_chain hb).mem_iff.mpr (Or.inr ⟨p, h, i, hp, rfl⟩)

theorem exists_chain (hl : t.Linked) {p : Pos} (hp : t.Has p) :
    ∃ b, b < t.bucketCount ∧ p ∈ t.chain b := by
  cases p with
  | head b =>
    have hb := has_head.mp hp
    exact ⟨b, hb, (hl.head_mem_chain hb).mpr rfl⟩
  | extension i =>
    -- back along the link that leads here, from an earlier slot or a head
    induction i using Nat.strongRecOn with
    | _ i ih =>
      obtain ⟨q, hq⟩ := hl.reached (has_extension.mp hp)
      cases q with
      | head b =>
        have hb := has_head.mp (has_of_next? hq)
        exact ⟨b, hb, (hl.extension_mem_chain hb hq).mpr ((hl.head_mem_chain hb).mpr rfl)⟩
      | extension j =>
        obtain ⟨b, hb, hj⟩ := ih j (hl.later hq) (has_of_next? hq)
        exact ⟨b, hb, (hl.extension_mem_chain hb hq).mpr hj⟩

theorem chain_unique (hl : t.Linked) {b c : Nat} {p : Pos} (hb : b < t.bucketCount)
    (hc : c < t.bucketCount) (hpb : p ∈ t.chain b) (hpc : p ∈ t.chain c) : b = c := by
  cases p with
  | head d =>
    rw [← (hl.head_mem_chain hb).mp hpb, ← (hl.head_mem_chain hc).mp hpc]
  | extension i =>
    -- the one link that leads here comes from the same two chains
    induction i using Nat.strongRecOn with
    | _ i ih =>
      obtain ⟨q, hq⟩ := hl.reached (has_extension.mp ((hl.path_chain hb).has hpb))
      have hqb := (hl.extension_mem_chain hb hq).mp hpb
      have hqc := (hl.extension_mem_chain hc hq).mp hpc
      cases q with
      | head d => rw [← (hl.head_mem_chain hb).mp hqb, ← (hl.head_mem_chain hc).mp hqc]
      | extension j => exact ih j (hl.later hq) hqb hqc

theorem mem_positions (hl : t.Linked) {p : Pos} : p ∈ t.positions ↔ t.Has p := by
  unfold positions
  rw [List.mem_flatMap]
  constructor
  · rintro ⟨b, hb, hp⟩
    exact (hl.path_chain (List.mem_range.mp hb)).has hp
  · intro hp
    obtain ⟨b, hb, hpb⟩ := hl.exists_chain hp
    exact ⟨b, List.mem_range.mpr hb, hpb⟩

/-- The chains of different buckets pass no slot twice. -/
theorem nodup_flatMap_chain (hl : t.Linked) {bs : List Nat} (hbs : bs.Nodup)
    (hlt : ∀ b ∈ bs, b < t.bucketCount) : (bs.flatMap t.chain).Nodup := by
  rw [List.nodup_flatMap]
  refine ⟨fun b hb => (hl.path_chain (hlt b hb)).nodup hl, ?_⟩
  refine List.Pairwise.imp_of_mem ?_ hbs
  intro b c hb hc hne p hpb hpc
  exact hne (hl.chain_unique (hlt b hb) (hlt c hc) hpb hpc)

theorem nodup_positions (hl : t.Linked) : t.positions.Nodup :=
  hl.nodup_flatMap_chain List.nodup_range fun _ => List.mem_range.mp

end Linked

/-- The positions of all slots, heads by bucket and then extension slots by
creation. -/
def slots (t : Table K V) : List Pos :=
  (List.range t.bucketCount).map .head ++ (List.range t.arena.size).map .extension

theorem mem_slots {p : Pos} : p ∈ t.slots ↔ t.Has p := by
  cases p <;> simp [slots]

theorem nodup_slots (t : Table K V) : t.slots.Nodup := by
  refine List.Nodup.append ?_ ?_ ?_
  · exact List.nodup_range.map fun _ _ h => Pos.head.inj h
  · exact List.nodup_range.map fun _ _ h => Pos.extension.inj h
  · intro p hp hp'
    obtain ⟨b, _, rfl⟩ := List.mem_map.mp hp
    obtain ⟨i, _, h⟩ := List.mem_map.mp hp'
    cases h

/-- The chains pass every slot, and each once. -/
theorem Linked.perm_slots (hl : t.Linked) : t.positions.Perm t.slots :=
  (List.perm_ext_iff_of_nodup hl.nodup_positions t.nodup_slots).mpr fun _ =>
    hl.mem_positions.trans mem_slots.symm

theorem Linked.length_positions (hl : t.Linked) :
    t.positions.length = t.bucketCount + t.arena.size := by
  rw [hl.perm_slots.length_eq]
  simp [slots]

/-! ## Changes that keep the links -/

theorem linked_ofBuckets (n : Nat) : (ofBuckets n : Table K V).Linked := by
  have hn : ∀ p i, (ofBuckets n : Table K V).next? p ≠ some i := by
    intro p i h
    obtain ⟨s, hs, hi⟩ := Option.bind_eq_some_iff.mp h
    cases p with
    | head b =>
      obtain ⟨_, rfl⟩ := by simpa [ofBuckets, slot?, Array.getElem?_replicate] using hs
      cases hi
    | extension j => simp [ofBuckets, slot?] at hs
  exact ⟨fun h => absurd h (hn _ _), fun h => absurd h (hn _ _), fun h => absurd h (hn _ _),
    fun h => absurd h (Nat.not_lt_zero _)⟩

/-- Whether chains are in order depends on the links alone. -/
theorem Linked.congr {u : Table K V} (hl : t.Linked) (ha : u.arena.size = t.arena.size)
    (hn : ∀ p, u.next? p = t.next? p) : u.Linked where
  lt_size h := by
    rw [ha]
    exact hl.lt_size (hn _ ▸ h)
  later h := hl.later (hn _ ▸ h)
  unique h h' := hl.unique (hn _ ▸ h) (hn _ ▸ h')
  reached hi := by
    obtain ⟨p, hp⟩ := hl.reached (ha ▸ hi)
    exact ⟨p, (hn p).trans hp⟩

theorem chain_congr {u : Table K V} (ha : u.arena.size = t.arena.size)
    (hn : ∀ p, u.next? p = t.next? p) (b : Nat) : u.chain b = t.chain b := by
  unfold chain
  rw [ha]
  exact chainFrom_congr hn _ _

/-! ## A new slot behind a chain -/

section Append

variable {last : Pos} {pair : K × V}

theorem slot?_setNext (t : Table K V) (p q : Pos) (next : Option Nat) :
    (t.setNext p next).slot? q =
      if p = q then (t.slot? q).map fun s => { s with next } else t.slot? q := by
  cases p <;> cases q <;> simp [setNext, slot?, Array.getElem?_modify]

theorem slot?_append (t : Table K V) (last : Pos) (pair : K × V) (q : Pos) :
    (t.append last pair).slot? q =
      if q = .extension t.arena.size then some ⟨some pair, none⟩
      else (t.setNext last (some t.arena.size)).slot? q := by
  have hsize : (t.setNext last (some t.arena.size)).arena.size = t.arena.size := by
    cases last <;> simp [setNext]
  cases q with
  | head b => simp [append, slot?]
  | extension i => simp [append, slot?, Array.getElem?_push, hsize]

@[simp] theorem size_arena_append (t : Table K V) (last : Pos) (pair : K × V) :
    (t.append last pair).arena.size = t.arena.size + 1 := by
  cases last <;> simp [append, setNext]

theorem pair?_append (t : Table K V) (last q : Pos) (pair : K × V) :
    (t.append last pair).pair? q =
      if q = .extension t.arena.size then some pair else t.pair? q := by
  unfold pair?
  rw [slot?_append]
  split
  next => rfl
  next =>
    rw [slot?_setNext]
    split
    next => cases t.slot? q <;> rfl
    next => rfl

/-- The slot behind which the new one goes now leads to it; all other links stay. -/
theorem next?_append (hlast : t.Has last) (q : Pos) :
    (t.append last pair).next? q = if q = last then some t.arena.size else t.next? q := by
  have hnew : t.slot? (.extension t.arena.size) = none := by simp [slot?]
  unfold next?
  rw [slot?_append]
  split
  next hq =>
    subst hq
    have hne : Pos.extension t.arena.size ≠ last := by
      rintro rfl
      simp at hlast
    rw [if_neg hne, hnew]
    rfl
  next =>
    rw [slot?_setNext]
    by_cases hq : last = q
    · subst hq
      obtain ⟨s, hs⟩ := Option.isSome_iff_exists.mp hlast
      rw [if_pos rfl, if_pos rfl, hs]
      rfl
    · rw [if_neg hq, if_neg (Ne.symm hq)]

/-- The new link is the only one that leads to the new slot, which is created
last, so the links stay in order if no other link is lost for it. -/
theorem Linked.append (hl : t.Linked) (hlast : t.Has last) (hend : t.next? last = none) :
    (t.append last pair).Linked where
  lt_size := by
    intro p i h
    rw [next?_append hlast] at h
    rw [size_arena_append]
    split at h
    next => cases h; exact Nat.lt_succ_self _
    next => exact Nat.lt_succ_of_lt (hl.lt_size h)
  later := by
    intro i j h
    rw [next?_append hlast] at h
    split at h
    next hi =>
      cases h
      rw [← hi] at hlast
      exact has_extension.mp hlast
    next => exact hl.later h
  unique := by
    intro p q i hp hq
    rw [next?_append hlast] at hp hq
    -- an old link cannot lead to the slot that is only now created
    split at hp <;> split at hq
    next h h' => rw [h, h']
    next =>
      cases hp
      exact absurd (hl.lt_size hq) (Nat.lt_irrefl _)
    next =>
      cases hq
      exact absurd (hl.lt_size hp) (Nat.lt_irrefl _)
    next => exact hl.unique hp hq
  reached := by
    intro i hi
    rw [size_arena_append] at hi
    rcases Nat.lt_succ_iff_lt_or_eq.mp hi with hi | rfl
    · -- the link that led there is not the one that changes, which led nowhere
      obtain ⟨p, hp⟩ := hl.reached hi
      have hne : p ≠ last := by
        rintro rfl
        rw [hend] at hp
        cases hp
      exact ⟨p, by rw [next?_append hlast, if_neg hne, hp]⟩
    · exact ⟨last, by rw [next?_append hlast, if_pos rfl]⟩

/-- A walk that ended at the slot before the new one goes on to it. -/
theorem Path.append {p : Pos} {ps : List Pos} (h : t.Path p ps) (hlast : t.Has last)
    (hend : t.next? last = none) :
    (t.append last pair).Path p (if last ∈ ps then ps ++ [.extension t.arena.size] else ps) := by
  have hkeep : ∀ q, t.Has q → (t.append last pair).Has q := by
    intro q hq
    cases q with
    | head b => simpa using hq
    | extension i => simpa using Nat.lt_succ_of_lt (has_extension.mp hq)
  induction h with
  | @last p hp hn =>
    by_cases hpl : p = last
    · subst hpl
      have hnew : (t.append p pair).next? (.extension t.arena.size) = none := by
        rw [next?_append hlast]
        split
        next hq =>
          rw [← hq] at hlast
          simp at hlast
        next => simp [next?, slot?]
      rw [if_pos (List.mem_singleton_self p)]
      refine .step ?_ (.last ?_ hnew)
      · rw [next?_append hlast, if_pos rfl]
      · simp
    · rw [if_neg (fun hm => hpl (List.mem_singleton.mp hm).symm)]
      exact .last (hkeep p hp) (by rw [next?_append hlast, if_neg hpl, hn])
  | @step p i ps hn _ ih =>
    have hpl : p ≠ last := by
      rintro rfl
      rw [hend] at hn
      cases hn
    have hmem : last ∈ p :: ps ↔ last ∈ ps := by simp [Ne.symm hpl]
    have hstep : (t.append last pair).next? p = some i := by
      rw [next?_append hlast, if_neg hpl, hn]
    simp only [hmem]
    split at ih
    next hm =>
      rw [if_pos hm]
      exact .step hstep ih
    next hm =>
      rw [if_neg hm]
      exact .step hstep ih

theorem Linked.chain_append (hl : t.Linked) (hlast : t.Has last) (hend : t.next? last = none)
    {b : Nat} (hb : b < t.bucketCount) :
    (t.append last pair).chain b =
      if last ∈ t.chain b then t.chain b ++ [.extension t.arena.size] else t.chain b := by
  have hb' : b < (t.append last pair).bucketCount := by simpa using hb
  exact ((hl.append hlast hend).path_chain hb').eq_of_path
    ((hl.path_chain hb).append hlast hend)

end Append

end Chaining.Table
