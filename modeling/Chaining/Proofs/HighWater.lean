import Chaining.Proofs.Growth
import Chaining.Proofs.Map.History

/-!
# Chains are as long as they have had to be

A slot is added to a chain only when none on it is vacant, and no slot is ever taken out of
one. So a deed leaves a chain as long as it was, or longer by one slot and full
(`Table.Extends`), and the length of the chain is the most pairs that it has held
(`AtHighWater.extend`). A growth that is carried out begins anew with chains that are as long
as their pairs are many (`atHighWater_of_dense`).

So it is after any history (`high_water`): the chain of a bucket has one slot for each pair
of the time when the bucket held most, reckoned from the last growth carried out, and its
head if there never was one. The extension slots are therefore as many as those times
account for, and whatever is taken out and put back, no more are added.
-/

namespace Chaining

universe u v

variable {K : Type u} {V : Type v} {ks : Keying K}

namespace Table

variable {t u : Table K V} {past : List (Table K V)}

/-- The most pairs that a bucket has held in some tables. -/
def peak (past : List (Table K V)) (b : Nat) : Nat :=
  (past.map fun t => (t.pairsIn b).length).foldr max 0

/-- The chain of each bucket is as long as the most pairs that it has held, and never without
its head. -/
def AtHighWater (past : List (Table K V)) (t : Table K V) : Prop :=
  ∀ b, b < t.bucketCount → (t.chain b).length = max 1 (peak past b)

/-- Each chain is as long as it was, or has one slot more and is full. -/
structure Extends (t u : Table K V) : Prop where
  bucketCount_eq : u.bucketCount = t.bucketCount
  length_chain : ∀ b, b < t.bucketCount → (u.chain b).length = (t.chain b).length ∨
    (u.chain b).length = (t.chain b).length + 1 ∧ (u.pairsIn b).length = (u.chain b).length

theorem length_pairsIn_le (t : Table K V) (b : Nat) : (t.pairsIn b).length ≤ (t.chain b).length :=
  List.length_filterMap_le _ _

/-- One table later the chains are still at their high water. -/
theorem AtHighWater.extend (h : AtHighWater past t) (hx : Extends t u) :
    AtHighWater (u :: past) u := by
  intro b hb
  rw [hx.bucketCount_eq] at hb
  have hlength := h b hb
  have hheld := u.length_pairsIn_le b
  have hpeak : peak (u :: past) b = max (u.pairsIn b).length (peak past b) := rfl
  rcases hx.length_chain b hb with hsame | ⟨hmore, hfull⟩
  · omega
  · omega

/-! ## Tables without gaps -/

theorem length_slotsOf (kvs : List (K × V)) : (slotsOf kvs).length = max 1 kvs.length := by
  cases kvs with
  | nil => rfl
  | cons kv kvs =>
    rw [slotsOf, List.length_map, List.length_cons]
    · omega
    · exact List.cons_ne_nil kv kvs

/-- In a table without gaps each chain is as long as its pairs are many. -/
theorem atHighWater_of_dense (hd : t.Dense) (hl : t.Linked) : AtHighWater [t] t := by
  intro b hb
  have hslots := congrArg List.length (hd.map_chain hl hb)
  rw [List.length_map, length_slotsOf] at hslots
  exact hslots.trans (congrArg (max 1) (Nat.max_zero _).symm)

/-! ## What extends a table -/

namespace Extends

/-- Changes that touch no link. -/
theorem of_next? (hb : u.bucketCount = t.bucketCount) (ha : u.arena.size = t.arena.size)
    (hn : ∀ p, u.next? p = t.next? p) : Extends t u where
  bucketCount_eq := hb
  length_chain b _ := Or.inl (congrArg List.length (chain_congr ha hn b))

theorem refl (t : Table K V) : Extends t t :=
  of_next? rfl rfl fun _ => rfl

theorem mapValue (t : Table K V) (p : Pos) (f : V → V) : Extends t (t.mapValue p f) :=
  of_next? (bucketCount_mapValue t p f) (size_arena_mapValue t p f) (next?_mapValue t p · f)

theorem vacate (t : Table K V) (p : Pos) : Extends t (t.vacate p) :=
  of_next? (bucketCount_vacate t p) (size_arena_vacate t p) (next?_vacate t p)

theorem of_emptied (h : Emptied t u) : Extends t u :=
  of_next? h.bucketCount_eq h.size_arena_eq h.next?_eq

/-- A pair in its place lengthens a chain only if that is full. -/
theorem store (hl : t.Linked) {key : K} {place : Placement K V} {b : Nat}
    (hb : b < t.bucketCount) (hf : Fits ks t key (t.chain b) place) (pair : K × V) :
    Extends t (t.store place pair) := by
  cases hf with
  | @replace p old _ _ _ _ _ _ =>
    exact of_next? (bucketCount_setPair t p _) (size_arena_setPair t p _) (next?_setPair t p · _)
  | @reuse p _ _ _ _ _ _ =>
    exact of_next? (bucketCount_fill t p _) (size_arena_fill t p _) (next?_fill t p · _)
  | @append last front hs hfull _ =>
    have hpath := hl.path_chain hb
    have hmem : last ∈ t.chain b := by rw [hs]; simp
    have hchain : ∀ c, c < t.bucketCount → (t.append last pair).chain c =
        if last ∈ t.chain c then t.chain c ++ [.extension t.arena.size] else t.chain c := by
      intro c hc
      exact hl.chain_append (hpath.has hmem) (hs ▸ hpath).next?_eq_none hc
    refine ⟨bucketCount_append t last pair, fun c hc => ?_⟩
    rw [Table.store, hchain c hc]
    by_cases hcb : last ∈ t.chain c
    · -- the chain of the pair held one in each slot, and does so again
      obtain rfl := hl.chain_unique hc hb hcb hmem
      have hheld : (t.pairsIn c).length = (t.chain c).length := by
        rw [pairsIn, List.length_filterMap_eq_countP, List.countP_eq_length]
        intro p hp
        exact Option.isSome_iff_ne_none.mpr (hfull p hp)
      refine Or.inr ?_
      rw [if_pos hcb, (hl.exchange_append hc hs pair).pairsIn_new]
      simp [hheld]
    · rw [if_neg hcb]
      exact Or.inl rfl

end Extends

end Table

namespace Map

open Table

variable {m base after : Map ks V} {c : Conditions} {releases : List (Release K V)}

/-- The tables since the last growth, the latest first, with those of one more deed. A growth
that is carried out begins anew with the table that it makes. -/
def remember (m : Map ks V) (past : List (Table K V)) (deed : Deed K V) : List (Table K V) :=
  match m.grownTo? deed with
  | none => (m.undergo deed).table :: past
  | some base => [(m.undergo deed).table, base.table]

/-- The tables since the last growth in a history, if those up to now are `past`. -/
def sinceGrowth (m : Map ks V) (past : List (Table K V)) : List (Deed K V) → List (Table K V)
  | [] => past
  | deed :: rest => (m.undergo deed).sinceGrowth (m.remember past deed) rest

/-! ## One deed -/

/-- After a deed the chains are those of the map, or of the one that it has grown to first. -/
structure Follows (m : Map ks V) (deed : Deed K V) (after : Map ks V) : Prop where
  asIs : m.grownTo? deed = none → Extends m.table after.table
  grown : ∀ base, m.grownTo? deed = some base → m.Spreads base ∧ Extends base.table after.table

theorem Follows.of_none {deed : Deed K V} (h : m.grownTo? deed = none)
    (hx : Extends m.table after.table) : m.Follows deed after where
  asIs _ := hx
  grown base hbase := by
    rw [h] at hbase
    cases hbase

theorem Follows.of_some {deed : Deed K V} (h : m.grownTo? deed = some base)
    (hs : m.Spreads base) (hx : Extends base.table after.table) : m.Follows deed after where
  asIs hnone := by
    rw [h] at hnone
    cases hnone
  grown base' hbase := by
    rw [h] at hbase
    cases hbase
    exact ⟨hs, hx⟩

theorem Places.extends {reservations : Nat} {key : K} {value : V} {result : PutResult K V}
    (h : m.Places c reservations key value result after releases)
    (hw : m.table.WellFormed ks) : Extends m.table after.table := by
  cases h with
  | stored hf _ => exact .store hw.linked (hw.bucketOf_lt (ks.hash key)) hf _
  | noSlot _ _ => exact .refl m.table
  | reentered _ => exact .refl m.table

theorem Puts.follows {key : K} {value : V} {result : PutResult K V}
    (h : m.Puts c key value result after releases) (hw : m.table.WellFormed ks) :
    m.Follows (.request c (.put key value)) after := by
  cases h with
  | notGrown hfull hg =>
    refine .of_none ?_ (.refl m.table)
    rw [grownTo?_of_le hfull, hg]
    rfl
  | broken hfull hg =>
    obtain ⟨n, rfl⟩ := grow_faulted hg
    refine .of_none ?_ (.of_emptied (Emptied.takeFirst m.table n))
    rw [grownTo?_of_le hfull, hg]
    rfl
  | placed hp hplaces =>
    have hx := hplaces.extends (hp.wellFormed hw)
    cases hp with
    | asIs hlt => exact .of_none (grownTo?_of_lt hlt) hx
    | grown hfull hg =>
      refine .of_some ?_ (grow_grown_spreads hg hw) hx
      rw [grownTo?_of_le hfull, hg]
      rfl

theorem Step.extends {request : Request K V} {answer : Answer K V}
    (h : m.Step c request answer after releases) (hput : request.isPut = false) :
    Extends m.table after.table := by
  cases h with
  | put _ => cases hput
  | @modify _ f e _ => exact .mapValue m.table e.pos f
  | @remove _ e _ => exact .vacate m.table e.pos
  | @steal _ e _ => exact .vacate m.table e.pos
  | _ => exact .refl m.table

theorem follows_undergo (hw : m.table.WellFormed ks) (deed : Deed K V) :
    m.Follows deed (m.undergo deed) := by
  cases deed with
  | request c request =>
    have hstep := m.respond_step c request
    cases request with
    | put key value => exact (m.put_puts c key value).follows hw
    | _ => exact .of_none rfl (hstep.extends rfl)
  | visit s f =>
    refine .of_none rfl ?_
    rcases visit_cases f s m.table with h | ⟨p, h⟩
    · rw [undergo, h]
      exact .refl m.table
    · rw [undergo, h]
      exact .mapValue m.table p f

/-! ## Histories -/

/-- A growth that is carried out makes a table without gaps. -/
theorem Spreads.atHighWater (h : m.Spreads base) (hw : m.table.WellFormed ks) :
    AtHighWater [base.table] base.table := by
  have hpos : 0 < m.bucketCount * growthFactor := Nat.mul_pos hw.bucketCount_pos (by decide)
  have hnew := wellFormed_ofBuckets (V := V) ks hpos
  exact atHighWater_of_dense (h.moves.dense hnew (dense_ofBuckets _))
    (h.moves.wellFormed hnew).linked

/-- A deed leaves the chains at their high water. -/
theorem atHighWater_undergo (hw : m.table.WellFormed ks) {past : List (Table K V)}
    (h : AtHighWater past m.table) (deed : Deed K V) :
    AtHighWater (m.remember past deed) (m.undergo deed).table := by
  have hfollows := follows_undergo hw deed
  unfold remember
  cases hg : m.grownTo? deed with
  | none => exact h.extend (hfollows.asIs hg)
  | some base =>
    obtain ⟨hspreads, hx⟩ := hfollows.grown base hg
    exact (hspreads.atHighWater hw).extend hx

theorem Reachable.atHighWater_later (hm : m.Reachable) {past : List (Table K V)}
    (h : AtHighWater past m.table) (history : List (Deed K V)) :
    AtHighWater (m.sinceGrowth past history) (m.later history).table := by
  induction history generalizing m past with
  | nil => exact h
  | cons deed rest ih => exact ih (hm.undergo deed) (atHighWater_undergo hm.wellFormed h deed)

/-- What has become of the slots of a map, if these are its tables since the last growth. -/
structure SlotsKept (m : Map ks V) (past : List (Table K V)) : Prop where
  /-- A chain has as many slots as its bucket has held pairs when it held most, or its head. -/
  length_chain : ∀ b, b < m.bucketCount → (m.table.chain b).length = max 1 (peak past b)
  /-- There are no slots but these: heads, vacant extension slots and occupied ones. -/
  slots_eq : m.bucketCount + (m.tombstones + m.table.occupiedExtensions) =
    ((List.range m.bucketCount).map fun b => max 1 (peak past b)).sum

theorem Reachable.slotsKept (hm : m.Reachable) {past : List (Table K V)}
    (h : AtHighWater past m.table) : m.SlotsKept past where
  length_chain := h
  slots_eq := by
    have hslots := m.table.tombstones_add_occupiedExtensions
    have hlength := hm.wellFormed.linked.length_positions
    have hchains : (List.range m.table.bucketCount).map (fun b => (m.table.chain b).length) =
        (List.range m.table.bucketCount).map fun b => max 1 (peak past b) :=
      List.map_congr_left fun b hb => h b (List.mem_range.mp hb)
    rw [positions, List.length_flatMap, hchains] at hlength
    show m.table.bucketCount + (m.table.tombstones + _) = _
    rw [hslots]
    exact hlength.symm

/-- After any history the chain of each bucket is as long as the most pairs that the bucket
has held since the last growth, that growth's own among them. -/
theorem high_water (ks : Keying K) (sizing : Sizing) (history : List (Deed K V)) :
    ((ofSizing ks sizing : Map ks V).later history).SlotsKept
      ((ofSizing ks sizing).sinceGrowth [(ofSizing ks sizing).table] history) := by
  have hnew : (ofSizing ks sizing : Map ks V).Reachable := .ofSizing ks sizing
  have hempty : AtHighWater [(ofSizing ks sizing : Map ks V).table] (ofSizing ks sizing).table :=
    atHighWater_of_dense (dense_ofBuckets _) hnew.wellFormed.linked
  exact (hnew.later history).slotsKept (hnew.atHighWater_later hempty history)

/-- Three numbers share a bucket, but never more than two at once. -/
example : (((ofSizing Keying.word (Sizing.standard.withInitial 5)).later
    [.request {} (.put (0 : UInt64) 1), .request {} (.put 5 2), .request {} (.remove 0),
      .request {} (.put 10 3)]).table.chain 0) = [.head 0, .extension 0] := by
  decide

end Map

end Chaining
