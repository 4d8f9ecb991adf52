import Mathlib.Algebra.Order.Group.Multiset
import Chaining.Disposer
import Chaining.Proofs.Map.Reachable

/-!
# Ownership: where the pairs of a run are

A pair that a put has stored is in one place at any time: in the map, with the
disposer, or with whoever stole it. `Account` says for each request what it did
to the pairs of the map and what was let go of, and so the pairs brought by the
puts of a run are, as a multiset, those disposed of, those stolen and those still
in the map (`ownership`). Nothing is asked of the keying.

To tell apart pairs that are equal, one looks at them through a `tag`. A map
moves values about and does not look at them, so a value may carry the number of
the put that brought it. Values are changed in place by those who look keys up,
and are asked to leave the tag as it is.
-/

namespace Chaining

universe u v w x y

variable {K : Type u} {V : Type v}

/-- The pair that a request has put into the map. -/
def Request.brought : Request K V → Answer K V → List (K × V)
  | .put key value, .put (.stored _) => [(key, value)]
  | _, _ => []

/-- The pair that a request has handed out. -/
def Request.stolen : Request K V → Answer K V → List (K × V)
  | .steal _, .pair (some kv) => [kv]
  | _, _ => []

/-- Whether a request only reads. -/
def Request.reads : Request K V → Bool
  | .get _ => true
  | .getPair _ => true
  | .contains _ => true
  | .len => true
  | _ => false

/-- Whether a request was broken off by a fault. -/
def Answer.isFault : Answer K V → Bool
  | .put (.faulted _) => true
  | .faulted _ => true
  | _ => false

/-- The request changes no value in a way that the tag shows. -/
def Request.Keeps {τ : Type w} (tag : K × V → τ) : Request K V → Prop
  | .modify _ f => ∀ key value, tag (key, f value) = tag (key, value)
  | _ => True

/-- Some pairs as seen through a tag, regardless of their order. -/
def tagged {τ : Type w} (tag : K × V → τ) (ps : List (K × V)) : Multiset τ :=
  (ps.map tag : List τ)

section Tagged

variable {τ : Type w} (tag : K × V → τ) {ps qs : List (K × V)}

theorem tagged_append (ps qs : List (K × V)) :
    tagged tag (ps ++ qs) = tagged tag ps + tagged tag qs := by
  unfold tagged
  rw [List.map_append, Multiset.coe_add]

theorem tagged_perm (h : ps.Perm qs) : tagged tag ps = tagged tag qs :=
  Multiset.coe_eq_coe.mpr (h.map tag)

theorem tagged_cons (kv : K × V) (ps : List (K × V)) :
    tagged tag (kv :: ps) = tagged tag [kv] + tagged tag ps :=
  tagged_append tag [kv] ps

theorem tagged_middle (kv : K × V) (ps qs : List (K × V)) :
    tagged tag (ps ++ kv :: qs) = tagged tag [kv] + tagged tag (ps ++ qs) :=
  (tagged_perm tag List.perm_middle).trans (tagged_cons tag kv (ps ++ qs))

end Tagged

/-- The pairs in a row of releases; a value and the key that follows it are one. -/
def disposed : List (Release K V) → List (K × V)
  | [] => []
  | .pair key value :: rest => (key, value) :: disposed rest
  | .value value :: .key key :: rest => (key, value) :: disposed rest
  | .value _ :: rest => disposed rest
  | .key _ :: rest => disposed rest

@[simp] theorem disposed_map_pair (ps : List (K × V)) :
    disposed (ps.map fun kv => .pair kv.1 kv.2) = ps := by
  induction ps with
  | nil => rfl
  | cons kv ps ih => exact congrArg (kv :: ·) ih

/-- What a request that ended without a fault did to the pairs of a map, `ps`
before and `qs` afterwards, and what was let go of. -/
inductive Account (ks : Keying K) (ps qs : List (K × V)) :
    Request K V → Answer K V → List (Release K V) → Prop where
  | inserted {key : K} {value : V} : qs.Perm ((key, value) :: ps) →
      Account ks ps qs (.put key value) (.put (.stored .inserted)) []
  /-- The new pair takes the place of an old one, perhaps after a growth. -/
  | replaced {key : K} {value : V} {old : K × V} {moved front back : List (K × V)} :
      ks.equals old.1 key = true → moved.Perm ps → moved = front ++ old :: back →
      qs = front ++ (key, value) :: back →
      Account ks ps qs (.put key value) (.put (.stored .replaced)) [.value old.2, .key old.1]
  | rejected {key : K} {value : V} {error : StorageError} : qs.Perm ps →
      Account ks ps qs (.put key value) (.put (.rejected ⟨key, value, error⟩)) []
  | removed {key : K} {old : K × V} {front back : List (K × V)} :
      ks.equals old.1 key = true → ps = front ++ old :: back → qs = front ++ back →
      Account ks ps qs (.remove key) (.flag true) [.pair old.1 old.2]
  | notRemoved {key : K} : qs = ps → Account ks ps qs (.remove key) (.flag false) []
  | stolen {key : K} {old : K × V} {front back : List (K × V)} :
      ks.equals old.1 key = true → ps = front ++ old :: back → qs = front ++ back →
      Account ks ps qs (.steal key) (.pair (some old)) []
  | notStolen {key : K} : qs = ps → Account ks ps qs (.steal key) (.pair none) []
  | modified {key : K} {f : V → V} {old : K × V} {front back : List (K × V)} :
      ks.equals old.1 key = true → ps = front ++ old :: back →
      qs = front ++ (old.1, f old.2) :: back →
      Account ks ps qs (.modify key f) (.value (some (f old.2))) []
  | notModified {key : K} {f : V → V} : qs = ps →
      Account ks ps qs (.modify key f) (.value none) []
  | read {request : Request K V} {answer : Answer K V} : request.reads = true → qs = ps →
      Account ks ps qs request answer []

namespace Account

variable {ks : Keying K} {ps qs : List (K × V)} {request : Request K V} {answer : Answer K V}
  {releases : List (Release K V)}

/-- What is let go of in one request does not run into what follows. -/
theorem disposed_append (h : Account ks ps qs request answer releases)
    (rest : List (Release K V)) :
    disposed (releases ++ rest) = disposed releases ++ disposed rest := by
  cases h <;> rfl

/-- What came and what was there is what went and what is there. -/
theorem tagged_eq (h : Account ks ps qs request answer releases) {τ : Type w}
    (tag : K × V → τ) (htag : request.Keeps tag) :
    tagged tag (request.brought answer) + tagged tag ps =
      tagged tag (disposed releases) + tagged tag (request.stolen answer) + tagged tag qs := by
  have hnil : tagged tag ([] : List (K × V)) = 0 := rfl
  -- where nothing comes and nothing goes
  have hkept : qs.Perm ps →
      tagged tag [] + tagged tag ps = tagged tag [] + tagged tag [] + tagged tag qs := by
    intro hq
    rw [tagged_perm tag hq, hnil, zero_add, zero_add, zero_add]
  cases h with
  | @inserted key value hq =>
    show tagged tag [(key, value)] + _ = tagged tag [] + tagged tag [] + _
    rw [tagged_perm tag hq, tagged_cons tag (key, value) ps, hnil, zero_add, zero_add]
  | @replaced key value old moved front back _ hm hold hnew =>
    show tagged tag [(key, value)] + _ = tagged tag [old] + tagged tag [] + _
    rw [← tagged_perm tag hm, hold, hnew, tagged_middle, tagged_middle, hnil, add_zero,
      add_left_comm]
  | @removed _ old front back _ hold hnew =>
    show tagged tag [] + _ = tagged tag [old] + tagged tag [] + _
    rw [hold, hnew, tagged_middle, hnil, zero_add, add_zero]
  | @stolen _ old front back _ hold hnew =>
    show tagged tag [] + _ = tagged tag [] + tagged tag [old] + _
    rw [hold, hnew, tagged_middle, hnil, zero_add, zero_add]
  | @modified key f old front back _ hold hnew =>
    have hsame : tagged tag [(old.1, f old.2)] = tagged tag [old] :=
      congrArg (fun x => ([x] : Multiset τ)) (htag old.1 old.2)
    show tagged tag [] + _ = tagged tag [] + tagged tag [] + _
    rw [hold, hnew, tagged_middle, tagged_middle, hsame, hnil, zero_add, zero_add, zero_add]
  | rejected hq => exact hkept hq
  | notRemoved hq => exact hkept (.of_eq hq)
  | notStolen hq => exact hkept (.of_eq hq)
  | notModified hq => exact hkept (.of_eq hq)
  | read hr hq =>
    have hbrought : request.brought answer = [] := by cases request <;> first | rfl | cases hr
    have hstolen : request.stolen answer = [] := by cases request <;> first | rfl | cases hr
    rw [hbrought, hstolen]
    exact hkept (.of_eq hq)

end Account

namespace Map

open Table

variable {ks : Keying K} {m after : Map ks V} {c : Conditions} {releases : List (Release K V)}

/-! ## One request -/

theorem Puts.account {key : K} {value : V} {result : PutResult K V}
    (h : m.Puts c key value result after releases) (hw : m.table.WellFormed ks)
    (hok : (Answer.put result).isFault = false) :
    Account ks m.pairs after.pairs (.put key value) (.put result) releases := by
  cases h with
  | @placed base _ _ _ _ hp hplaces =>
    have hbase := hp.wellFormed hw
    have hperm := hp.perm hw
    cases hplaces with
    | @stored place hf _ =>
      have hb := hbase.bucketOf_lt (ks.hash key)
      obtain ⟨before, behind, hx, _⟩ := hbase.linked.exchange_store hb hf (key, value)
      cases place with
      | replace p old =>
        obtain ⟨hold, hnew⟩ := hx.pairs
        rw [Placement.displaced, Option.toList_some, List.append_assoc] at hold
        rw [Option.toList_some, List.append_assoc] at hnew
        exact .replaced (hf.of_displaced rfl).2 hperm hold hnew
      | reuse p => exact .inserted (hx.perm.trans (hperm.cons _))
      | append last => exact .inserted (hx.perm.trans (hperm.cons _))
    | noSlot _ _ => exact .rejected hperm
    | reentered _ => cases hok
  | notGrown _ _ => exact .rejected (List.Perm.refl _)
  | broken _ _ => cases hok

theorem Step.account {request : Request K V} {answer : Answer K V}
    (h : m.Step c request answer after releases) (hw : m.table.WellFormed ks)
    (hok : answer.isFault = false) : Account ks m.pairs after.pairs request answer releases := by
  cases h with
  | put hp => exact hp.account hw hok
  | get _ => exact .read rfl rfl
  | getPair _ => exact .read rfl rfl
  | contains _ => exact .read rfl rfl
  | len => exact .read rfl rfl
  | modifyNone _ => exact .notModified rfl
  | removeNone _ => exact .notRemoved rfl
  | stealNone _ => exact .notStolen rfl
  | @modify _ f e hs =>
    obtain ⟨hk, _, _, hold, _, hnew⟩ := exists_pairs_of_search hs hw
    have hmodified : Account ks m.pairs _ _ (.value (some (f e.pair.2))) _ :=
      .modified hk hold (hnew f)
    exact hmodified
  | @remove _ e hs =>
    obtain ⟨hk, _, _, hold, hnew, _⟩ := exists_pairs_of_search hs hw
    have hremoved : Account ks m.pairs _ _ _ [.pair e.pair.1 e.pair.2] :=
      .removed hk hold hnew
    exact hremoved
  | @steal _ e hs =>
    obtain ⟨hk, _, _, hold, hnew, _⟩ := exists_pairs_of_search hs hw
    exact .stolen hk hold hnew
  | reentered _ => cases hok

/-- To give up a map is to let go of its pairs in the order of traversal. -/
theorem releases_toList (hl : m.table.Linked) :
    m.releases.toList = m.traverse.map fun kv => .pair kv.1 kv.2 := by
  unfold releases
  rw [Array.toList_map, hl.drain_toList, traverse_eq_pairs hl]
  rfl

end Map

/-! ## Runs -/

namespace Turn

variable {ks : Keying K}

def released (turn : Turn ks V) : List (Release K V) :=
  turn.outcome.transcript.releases.toList

/-- The pair that a turn put into the map. -/
def brought (turn : Turn ks V) : List (K × V) :=
  turn.request.brought turn.outcome.answer

/-- The pair that a turn handed out. -/
def stolen (turn : Turn ks V) : List (K × V) :=
  turn.request.stolen turn.outcome.answer

/-- The turn did to the pairs of the map what its request says. -/
def Accounted (turn : Turn ks V) : Prop :=
  Account ks turn.before.traverse turn.outcome.map.traverse turn.request turn.outcome.answer
    turn.released

end Turn

namespace Disposer

variable {ks : Keying K} {σ : Type x} {ε : Type y}

theorem receiveAll_append (d : Disposer K V σ ε) (xs ys : List (Release K V)) (s : σ) :
    d.receiveAll (xs ++ ys) s =
      ((d.receiveAll xs s).1 ++ (d.receiveAll ys (d.receiveAll xs s).2).1,
        (d.receiveAll ys (d.receiveAll xs s).2).2) := by
  induction xs generalizing s with
  | nil => rfl
  | cons r xs ih =>
    have hcons : ∀ rest, d.receiveAll (r :: rest) s =
        ((d.receive r s).1 ++ (d.receiveAll rest (d.receive r s).2).1,
          (d.receiveAll rest (d.receive r s).2).2) := fun _ => rfl
    rw [List.cons_append, hcons, hcons, ih]
    simp only [List.append_assoc]

/-- What a disposer does in some turns and then, as the map is given up, with what
is left in it. -/
def attend (d : Disposer K V σ ε) (last : Map ks V) : List (Turn ks V) → σ → List ε × σ
  | [], s => d.receiveAll last.releases.toList s
  | turn :: rest, s =>
    let (notes, s) := d.receiveAll turn.released s
    let (more, s) := d.attend last rest s
    (notes ++ more, s)

/-- A disposer is told of the releases of all turns, one after the other. -/
theorem attend_eq (d : Disposer K V σ ε) (last : Map ks V) (turns : List (Turn ks V)) (s : σ) :
    d.attend last turns s =
      d.receiveAll (turns.flatMap Turn.released ++ last.releases.toList) s := by
  induction turns generalizing s with
  | nil => rfl
  | cons turn rest ih =>
    rw [List.flatMap_cons, List.append_assoc, receiveAll_append, ← ih]
    rfl

end Disposer

namespace Map

open Table

variable {ks : Keying K} {m : Map ks V} {run : List (Conditions × Request K V)}

/-- What is let go of in the turns of a run. -/
def releasedIn (m : Map ks V) (run : List (Conditions × Request K V)) : List (Release K V) :=
  (m.turns run).flatMap Turn.released

/-- What is let go of in a run and as the map is given up. -/
def releasedAfter (m : Map ks V) (run : List (Conditions × Request K V)) : List (Release K V) :=
  m.releasedIn run ++ (m.after run).releases.toList

/-- The pairs that the puts of a run have stored. -/
def broughtIn (m : Map ks V) (run : List (Conditions × Request K V)) : List (K × V) :=
  (m.turns run).flatMap Turn.brought

/-- The pairs that a run has handed out. -/
def stolenIn (m : Map ks V) (run : List (Conditions × Request K V)) : List (K × V) :=
  (m.turns run).flatMap Turn.stolen

theorem accounted_of_mem_turns (hm : m.Reachable) {turn : Turn ks V}
    (h : turn ∈ m.turns run) (hok : turn.outcome.answer.isFault = false) : turn.Accounted := by
  obtain ⟨hbefore, hout, _⟩ :=
    of_mem_turns (P := Reachable) (fun _ c request hm => hm.responded c request) hm h
  have hw := hbefore.wellFormed
  have hstep := turn.before.respond_step turn.conditions turn.request
  rw [← hout] at hstep
  unfold Turn.Accounted
  rw [traverse_eq_pairs hw.linked, traverse_eq_pairs (hstep.wellFormed hw).linked]
  exact hstep.account hw hok

/-- What a run lets go of does not run into what follows. -/
theorem disposed_flatMap_append {turns : List (Turn ks V)} (h : ∀ turn ∈ turns, turn.Accounted)
    (rest : List (Release K V)) :
    disposed (turns.flatMap Turn.released ++ rest) =
      disposed (turns.flatMap Turn.released) ++ disposed rest := by
  induction turns with
  | nil => rfl
  | cons turn turns ih =>
    have hturn : turn.Accounted := h turn List.mem_cons_self
    have hturns := ih fun t ht => h t (List.mem_cons_of_mem _ ht)
    rw [List.flatMap_cons, List.append_assoc, hturn.disposed_append, hturn.disposed_append,
      hturns, List.append_assoc]

/-- Over a run, what came and what was there is what went and what is there. -/
theorem tagged_run {τ : Type w} (tag : K × V → τ) (h : ∀ turn ∈ m.turns run, turn.Accounted)
    (htag : ∀ r ∈ run, r.2.Keeps tag) :
    tagged tag (m.broughtIn run) + tagged tag m.traverse =
      tagged tag (disposed (m.releasedIn run)) + tagged tag (m.stolenIn run) +
        tagged tag (m.after run).traverse := by
  induction run generalizing m with
  | nil => rfl
  | cons r rest ih =>
    have hturn := h _ List.mem_cons_self
    have hrest := ih (fun t ht => h t (List.mem_cons_of_mem _ ht))
      fun r hr => htag r (List.mem_cons_of_mem _ hr)
    have hone := hturn.tagged_eq tag (htag r List.mem_cons_self)
    -- the first turn and the rest of the run balance apart
    obtain ⟨c, request⟩ := r
    let turn : Turn ks V := ⟨m, c, request, m.respond c request⟩
    let next := turn.outcome.map
    have hb : tagged tag (m.broughtIn ((c, request) :: rest)) =
        tagged tag turn.brought + tagged tag (next.broughtIn rest) := tagged_append tag _ _
    have hs : tagged tag (m.stolenIn ((c, request) :: rest)) =
        tagged tag turn.stolen + tagged tag (next.stolenIn rest) := tagged_append tag _ _
    have hd : tagged tag (disposed (m.releasedIn ((c, request) :: rest))) =
        tagged tag (disposed turn.released) + tagged tag (disposed (next.releasedIn rest)) :=
      (congrArg (tagged tag) (hturn.disposed_append _)).trans (tagged_append tag _ _)
    calc tagged tag (m.broughtIn ((c, request) :: rest)) + tagged tag m.traverse
        _ = tagged tag (next.broughtIn rest) +
              (tagged tag turn.brought + tagged tag m.traverse) := by
            rw [hb]
            ac_rfl
        _ = tagged tag (next.broughtIn rest) +
              (tagged tag (disposed turn.released) + tagged tag turn.stolen +
                tagged tag next.traverse) := congrArg _ hone
        _ = tagged tag (disposed turn.released) + tagged tag turn.stolen +
              (tagged tag (next.broughtIn rest) + tagged tag next.traverse) := by ac_rfl
        _ = tagged tag (disposed turn.released) + tagged tag turn.stolen +
              (tagged tag (disposed (next.releasedIn rest)) + tagged tag (next.stolenIn rest) +
                tagged tag (next.after rest).traverse) := congrArg _ hrest
        _ = _ := by
            rw [hd, hs]
            show _ = _ + tagged tag (next.after rest).traverse
            ac_rfl

/-- Where the pairs of a run from a new map are, told apart by a tag, and what its
disposer is told. -/
structure Ledger {τ : Type w} (m : Map ks V) (run : List (Conditions × Request K V))
    (tag : K × V → τ) : Prop where
  /-- Every turn is accounted for: what it did to the pairs in the order of
  traversal, and what was let go of. -/
  accounted : ∀ turn ∈ m.turns run, turn.Accounted
  /-- What is left is let go of, pair by pair, in the order of traversal. -/
  given_up : (m.after run).releases.toList =
    (m.after run).traverse.map fun kv => .pair kv.1 kv.2
  /-- The pairs stored are those disposed of, those stolen and those still there. -/
  during : tagged tag (m.broughtIn run) =
    tagged tag (disposed (m.releasedIn run)) + tagged tag (m.stolenIn run) +
      tagged tag (m.after run).traverse
  /-- In the end they are those disposed of and those stolen. -/
  at_end : tagged tag (m.broughtIn run) =
    tagged tag (disposed (m.releasedAfter run)) + tagged tag (m.stolenIn run)
  /-- If all have tags of their own, none is disposed of twice, or disposed of and
  stolen. -/
  once : (tagged tag (m.broughtIn run)).Nodup →
    (tagged tag (disposed (m.releasedAfter run)) + tagged tag (m.stolenIn run)).Nodup

/-- The pairs of a run without a fault are never lost and never doubled, and the
disposer is told of each release in its turn. -/
theorem ownership (ks : Keying K) (sizing : Sizing) (run : List (Conditions × Request K V))
    {τ : Type w} (tag : K × V → τ)
    (hok : ∀ turn ∈ (ofSizing ks sizing).turns run, turn.outcome.answer.isFault = false)
    (htag : ∀ r ∈ run, r.2.Keeps tag) {σ : Type x} {ε : Type y} (d : Disposer K V σ ε) (s : σ) :
    Ledger (ofSizing ks sizing) run tag ∧
      d.attend ((ofSizing ks sizing).after run) ((ofSizing ks sizing).turns run) s =
        d.receiveAll ((ofSizing ks sizing).releasedAfter run) s := by
  have hnew : (ofSizing ks sizing : Map ks V).Reachable := .ofSizing ks sizing
  have hlast := (hnew.after run).wellFormed.linked
  have haccounted : ∀ turn ∈ (ofSizing ks sizing : Map ks V).turns run, turn.Accounted :=
    fun turn ht => accounted_of_mem_turns hnew ht (hok turn ht)
  have hduring := tagged_run tag haccounted htag
  have hempty : tagged tag (ofSizing ks sizing : Map ks V).traverse = 0 := by
    rw [traverse_eq_pairs hnew.wellFormed.linked]
    exact congrArg (tagged tag) (pairs_ofBuckets _)
  rw [hempty, add_zero] at hduring
  have hgiven := releases_toList hlast
  have hend : tagged tag ((ofSizing ks sizing).broughtIn run) =
      tagged tag (disposed ((ofSizing ks sizing).releasedAfter run)) +
        tagged tag ((ofSizing ks sizing).stolenIn run) := by
    rw [releasedAfter, hgiven, releasedIn, disposed_flatMap_append haccounted,
      disposed_map_pair, tagged_append, hduring]
    exact add_right_comm _ _ _
  have hledger : Ledger (ofSizing ks sizing) run tag :=
    ⟨haccounted, hgiven, hduring, hend, fun h => hend ▸ h⟩
  exact ⟨hledger, d.attend_eq _ _ s⟩

/-- A new map of one bucket. -/
def oneBucket : Map (Keying.word (K := UInt64)) Nat :=
  ofSizing Keying.word (Sizing.standard.withInitial 1)

/-- Puts that number their pairs, with a growth, a replacement, a removal and a
theft among them. -/
def numbered : List (Conditions × Request UInt64 Nat) :=
  [({}, .put 0 1), ({}, .put 1 2), ({}, .put 0 3), ({}, .remove 1), ({}, .put 16 4),
    ({}, .steal 0)]

/-- Notes down what it is told. -/
def listing : Disposer UInt64 Nat Unit (UInt64 ⊕ Nat) :=
  .ofFunctions (fun key s => ([.inl key], s)) (fun value s => ([.inr value], s))

/-- Of four pairs two are disposed of in the run, one is stolen and one is left. -/
theorem ownership_numbered :
    Ledger oneBucket numbered Prod.snd ∧
      disposed (oneBucket.releasedIn numbered) = [(0, 1), (1, 2)] ∧
      oneBucket.stolenIn numbered = [(0, 3)] ∧
      (oneBucket.after numbered).traverse = [(16, 4)] ∧
      (listing.attend (oneBucket.after numbered) (oneBucket.turns numbered) ()).1 =
        [.inr 1, .inl 0, .inl 1, .inr 2, .inl 16, .inr 4] := by
  obtain ⟨hledger, hnotes⟩ : Ledger oneBucket numbered Prod.snd ∧
      listing.attend (oneBucket.after numbered) (oneBucket.turns numbered) () =
        listing.receiveAll (oneBucket.releasedAfter numbered) () :=
    ownership Keying.word (Sizing.standard.withInitial 1) numbered Prod.snd (by decide)
      (by simp [numbered, Request.Keeps]) listing ()
  refine ⟨hledger, by decide, by decide, by decide, ?_⟩
  rw [hnotes, releasedAfter, hledger.given_up]
  decide

end Map

end Chaining
