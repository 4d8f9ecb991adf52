import Chaining.Proofs.Table.Migration
import Chaining.Request

/-!
# Steps: what a request can come to

`Map.Step` lists the ways in which a request can be carried out, each with its
answer, the map it leaves and what it lets go of, and `respond_step` says that
there are no others. A put is taken apart further: it is made in the map itself
or in the grown one (`Prepared`), and there the pair has its place or there is
no room for it (`Places`). What growth can come to, and which refusals lead to
what, is in `Grows`.

Whoever proves something of all requests goes through these cases and has for
each of them what the walks and the growth left behind, not their code.
-/

namespace Chaining

universe u v

variable {K : Type u} {V : Type v}

/-- How a pair in that place changes a map. -/
def Placement.change : Placement K V → Change
  | .replace _ _ => .replaced
  | .reuse _ => .inserted
  | .append _ => .inserted

theorem Placement.change_eq (place : Placement K V) :
    place.change = if place.displaced.isSome then .replaced else .inserted := by
  cases place <;> rfl

/-- What a map lets go of for a pair in that place: the value and then the key
of the pair that gives way. -/
def Placement.releases (place : Placement K V) : List (Release K V) :=
  match place.displaced with
  | none => []
  | some old => [.value old.2, .key old.1]

@[simp] theorem Reentry.cut_never (calls : Array (Call K)) : Reentry.never.cut calls = none :=
  rfl

theorem Reentry.ne_never_of_cut {r : Reentry} {calls made : Array (Call K)}
    (h : r.cut calls = some made) : r ≠ .never := by
  rintro rfl
  cases h

namespace Table

variable {ks : Keying K} {t : Table K V} {key : K} {b : Nat}

/-- What a lookup finds is the first pair of the bucket not turned down, and
another value there, or none, is an exchange of it. -/
theorem Linked.exchange_find (hl : t.Linked) (hb : b < t.bucketCount) {e : Entry K V}
    (h : (t.find ks b key).1 = some e) :
    ∃ before after, Unmatched ks key before ∧ ks.equals e.key key = true ∧
      Exchange t (t.vacate e.pos) b before (some e.pair) none after ∧
      ∀ f, Exchange t (t.mapValue e.pos f) b before (some e.pair)
        (some (e.key, f e.value)) after := by
  obtain ⟨front, back, hs, hp, hk, hun⟩ := findAlong_eq_some h
  have hv := hl.exchange_vacate hb hs
  rw [hp] at hv
  refine ⟨_, _, hun, hk, hv, fun f => ?_⟩
  have hm := hl.exchange_mapValue hb hs f
  rw [hp] at hm
  exact hm

end Table

namespace Map

open Table

variable {ks : Keying K}

theorem search_found (m : Map ks V) (key : K) :
    (m.search key).found = (m.table.find ks (m.table.bucketOf (ks.hash key)) key).1 :=
  rfl

theorem unmatched_of_search {m : Map ks V} {key : K} (h : (m.search key).found = none) :
    Unmatched ks key (m.table.pairsIn (m.table.bucketOf (ks.hash key))) := by
  rw [search_found, find] at h
  exact findAlong_eq_none h

/-! ## Growth -/

/-- The calls of a survey: the hash of every key is asked for, slot by slot. -/
def surveyCalls (m : Map ks V) : Array (Call K) :=
  (m.table.keysBySlot.map Call.hash).toArray

/-- All that growing to so many buckets reserves is granted. -/
structure Granted (m : Map ks V) (c : Conditions) (buckets : Nat) : Prop where
  heads : c.allocator.grants 1 buckets = true
  marks : c.allocator.grants 2 buckets = true
  slots : m.table.overflow ks buckets ≠ 0 →
    c.allocator.grants 3 (m.table.overflow ks buckets) = true

/-- A growth can come to that. -/
inductive Grows (m : Map ks V) (c : Conditions) : Growth ks V → Prop where
  /-- No more buckets are allowed. -/
  | full : m.sizing.grown m.bucketCount = none →
      Grows m c (.refused (.capacityOverflow m.bucketCount) #[])
  | noHeads {buckets : Nat} : m.sizing.grown m.bucketCount = some buckets →
      c.allocator.grants 1 buckets = false ∨ c.allocator.grants 2 buckets = false →
      Grows m c (.refused (.allocationFailed buckets) #[])
  | noSlots {buckets : Nat} : m.sizing.grown m.bucketCount = some buckets →
      c.allocator.grants 1 buckets = true → c.allocator.grants 2 buckets = true →
      m.table.overflow ks buckets ≠ 0 →
      c.allocator.grants 3 (m.table.overflow ks buckets) = false →
      Grows m c (.refused (.allocationFailed (m.table.overflow ks buckets)) m.surveyCalls)
  /-- A call of the survey was at fault. -/
  | reentered {buckets : Nat} {made : Array (Call K)} :
      m.sizing.grown m.bucketCount = some buckets → c.reentry ≠ .never →
      Grows m c (.faulted .reentered m made)
  | moved {buckets : Nat} {table : Table K V} {calls : Array (Call K)} {reservations : Nat} :
      m.sizing.grown m.bucketCount = some buckets → m.Granted c buckets →
      migrate ks c.reentry (ofBuckets buckets) 0 m.surveyCalls m.table.drain.1.toList =
        .finished table calls →
      Grows m c (.grown { m with table, watermark := Chaining.watermark table.bucketCount } calls
        reservations)
  | stopped {buckets taken : Nat} {fault : Fault} {calls : Array (Call K)} :
      m.sizing.grown m.bucketCount = some buckets → m.Granted c buckets →
      migrate ks c.reentry (ofBuckets buckets) 0 m.surveyCalls m.table.drain.1.toList =
        .stopped fault taken calls →
      Grows m c (.faulted fault { m with table := (m.table.takeFirst taken).2 } calls)

theorem moveInto_grows {m : Map ks V} {c : Conditions} {buckets : Nat}
    (hb : m.sizing.grown m.bucketCount = some buckets) (hg : m.Granted c buckets)
    (reservations : Nat) : m.Grows c (m.moveInto c buckets m.surveyCalls reservations) := by
  unfold moveInto
  split
  next hmove => exact .moved hb hg hmove
  next hmove => exact .stopped hb hg hmove

/-- Every growth comes to one of these. -/
theorem grow_grows (m : Map ks V) (c : Conditions) : m.Grows c (m.grow c) := by
  unfold grow
  split
  next hb => exact .full hb
  next buckets hb =>
    split
    next hrefused =>
      rw [Bool.or_eq_true, Bool.not_eq_true', Bool.not_eq_true'] at hrefused
      exact .noHeads hb hrefused
    next hgranted =>
      rw [Bool.or_eq_true, not_or, Bool.not_eq_true', Bool.not_eq_true',
        Bool.not_eq_false, Bool.not_eq_false] at hgranted
      dsimp only
      split
      next hc => exact .reentered hb (Reentry.ne_never_of_cut hc)
      next =>
        split
        next hnone => exact moveInto_grows hb ⟨hgranted.1, hgranted.2, absurd hnone⟩ _
        next hsome =>
          split
          next hg => exact moveInto_grows hb ⟨hgranted.1, hgranted.2, fun _ => hg⟩ _
          next hg => exact .noSlots hb hgranted.1 hgranted.2 hsome (Bool.eq_false_iff.mpr hg)

theorem Grows.of_grow {m : Map ks V} {c : Conditions} {growth : Growth ks V}
    (h : m.grow c = growth) : m.Grows c growth :=
  h ▸ m.grow_grows c

/-- A fault in growth leaves the map without the first pairs, or with all. -/
theorem grow_faulted {m left : Map ks V} {c : Conditions} {fault : Fault}
    {calls : Array (Call K)} (h : m.grow c = .faulted fault left calls) :
    ∃ n, left = { m with table := (m.table.takeFirst n).2 } := by
  cases Grows.of_grow h with
  | reentered _ _ => exact ⟨0, by rw [takeFirst_zero]⟩
  | @stopped _ taken _ _ _ _ _ => exact ⟨taken, rfl⟩

/-! ## Puts -/

/-- A put goes on in that map, after so many reservations: the map itself below
the watermark, else the grown one. -/
inductive Prepared (m : Map ks V) (c : Conditions) : Map ks V → Nat → Prop where
  | asIs : m.len < m.watermark → Prepared m c m 0
  | grown {base : Map ks V} {calls : Array (Call K)} {reservations : Nat} :
      m.watermark ≤ m.len → m.grow c = .grown base calls reservations →
      Prepared m c base reservations

/-- The second part of a put, in a map that need not grow. -/
inductive Places (m : Map ks V) (c : Conditions) (reservations : Nat) (key : K) (value : V) :
    PutResult K V → Map ks V → List (Release K V) → Prop where
  | stored {place : Placement K V} :
      Fits ks m.table key (m.table.chain (m.table.bucketOf (ks.hash key))) place →
      (∀ last, place = .append last → c.allocator.grants (reservations + 1) 1 = true) →
      Places m c reservations key value (.stored place.change)
        { m with table := m.table.store place (key, value) } place.releases
  | noSlot {last : Pos} :
      Fits ks m.table key (m.table.chain (m.table.bucketOf (ks.hash key))) (.append last) →
      c.allocator.grants (reservations + 1) 1 = false →
      Places m c reservations key value (.rejected ⟨key, value, .allocationFailed 1⟩) m []
  | reentered : c.reentry ≠ .never →
      Places m c reservations key value (.faulted .reentered) m []

/-- A put can come to that result, leave that map and let go of that. -/
inductive Puts (m : Map ks V) (c : Conditions) (key : K) (value : V) :
    PutResult K V → Map ks V → List (Release K V) → Prop where
  | placed {base after : Map ks V} {reservations : Nat} {result : PutResult K V}
      {releases : List (Release K V)} : m.Prepared c base reservations →
      base.Places c reservations key value result after releases →
      Puts m c key value result after releases
  | notGrown {error : StorageError} {calls : Array (Call K)} : m.watermark ≤ m.len →
      m.grow c = .refused error calls → Puts m c key value (.rejected ⟨key, value, error⟩) m []
  | broken {fault : Fault} {left : Map ks V} {calls : Array (Call K)} : m.watermark ≤ m.len →
      m.grow c = .faulted fault left calls → Puts m c key value (.faulted fault) left []

theorem place_places (m : Map ks V) (c : Conditions) (reservations : Nat)
    {before : Transcript K V} (hbefore : before.releases = #[]) (key : K) (value : V) :
    m.Places c reservations key value (m.place c reservations before key value).answer
      (m.place c reservations before key value).map
      (m.place c reservations before key value).transcript.releases.toList := by
  have hf := locate_fits ks m.table (m.table.bucketOf (ks.hash key)) key
  -- of the walk only that its place fits is needed from here on
  unfold place
  generalize m.table.locate ks (m.table.bucketOf (ks.hash key)) key = located at hf
  obtain ⟨place, compared⟩ := located
  dsimp only at hf ⊢
  split
  next hc =>
    show m.Places c reservations key value _ _ before.releases.toList
    rw [hbefore]
    exact .reentered (Reentry.ne_never_of_cut hc)
  next =>
    cases place with
    | replace p old =>
      dsimp only
      rw [hbefore]
      exact .stored hf fun last h => by cases h
    | reuse p =>
      dsimp only
      rw [hbefore]
      exact .stored hf fun last h => by cases h
    | append last =>
      dsimp only
      split
      next hg =>
        dsimp only
        rw [hbefore]
        exact .stored hf fun _ _ => hg
      next hg =>
        dsimp only
        rw [hbefore]
        exact .noSlot hf (Bool.eq_false_iff.mpr hg)

/-- Below the watermark a put looks for a place at once. -/
theorem put_of_lt {m : Map ks V} (hlen : m.len < m.watermark) (c : Conditions) (key : K)
    (value : V) : m.put c key value = m.place c 0 {} key value := by
  unfold put
  rw [if_pos hlen]

/-- Else it goes by what its growth comes to. -/
theorem put_of_le {m : Map ks V} (hfull : m.watermark ≤ m.len) (c : Conditions) (key : K)
    (value : V) : m.put c key value =
      match m.grow c with
      | .refused error calls =>
        ⟨.rejected ⟨key, value, error⟩, m,
          { calls, events := #[.growthFailed m.bucketCount m.len error] }⟩
      | .faulted fault left calls => ⟨.faulted fault, left, { calls }⟩
      | .grown base calls reservations =>
        base.place c reservations
          { calls, events := #[.resized m.bucketCount base.bucketCount m.len base.watermark] }
          key value := by
  unfold put
  rw [if_neg (Nat.not_lt.mpr hfull)]
  cases m.grow c <;> rfl

theorem put_puts (m : Map ks V) (c : Conditions) (key : K) (value : V) :
    m.Puts c key value (m.put c key value).answer (m.put c key value).map
      (m.put c key value).transcript.releases.toList := by
  by_cases hlen : m.len < m.watermark
  · rw [put_of_lt hlen]
    exact .placed (.asIs hlen) (m.place_places c 0 rfl key value)
  · have hlen := Nat.not_lt.mp hlen
    rw [put_of_le hlen]
    cases hg : m.grow c with
    | refused error calls => exact .notGrown hlen hg
    | faulted fault left calls => exact .broken hlen hg
    | grown base calls reservations =>
      exact .placed (.grown hlen hg) (base.place_places c reservations rfl key value)

/-! ## Requests -/

/-- A request can come to that answer, leave that map and let go of that. -/
inductive Step (m : Map ks V) (c : Conditions) :
    Request K V → Answer K V → Map ks V → List (Release K V) → Prop where
  | put {key : K} {value : V} {result : PutResult K V} {after : Map ks V}
      {releases : List (Release K V)} : m.Puts c key value result after releases →
      Step m c (.put key value) (.put result) after releases
  | get (key : K) : Step m c (.get key) (.value (m.get? key)) m []
  | getPair (key : K) : Step m c (.getPair key) (.pair (m.getPair? key)) m []
  | contains (key : K) : Step m c (.contains key) (.flag (m.contains key)) m []
  | modifyNone {key : K} {f : V → V} : (m.search key).found = none →
      Step m c (.modify key f) (.value none) m []
  | modify {key : K} {f : V → V} {e : Entry K V} : (m.search key).found = some e →
      Step m c (.modify key f) (.value (some (f e.value))) (m.mapValueAt e.pos f) []
  | removeNone {key : K} : (m.search key).found = none →
      Step m c (.remove key) (.flag false) m []
  | remove {key : K} {e : Entry K V} : (m.search key).found = some e →
      Step m c (.remove key) (.flag true) (m.vacateAt e.pos) [.pair e.key e.value]
  | stealNone {key : K} : (m.search key).found = none →
      Step m c (.steal key) (.pair none) m []
  | steal {key : K} {e : Entry K V} : (m.search key).found = some e →
      Step m c (.steal key) (.pair (some e.pair)) (m.vacateAt e.pos) []
  | len : Step m c .len (.count m.len) m []
  | reentered {request : Request K V} : c.reentry ≠ .never →
      Step m c request (.faulted .reentered) m []

theorem lookup_cases (m : Map ks V) (c : Conditions) (key : K)
    (goOn : Map ks V → Option (Entry K V) → Answer K V × Map ks V × Array (Release K V)) :
    (c.reentry ≠ .never ∧ (m.lookup c key goOn).answer = .faulted .reentered ∧
      (m.lookup c key goOn).map = m ∧ (m.lookup c key goOn).transcript.releases = #[]) ∨
    ((m.lookup c key goOn).answer = (goOn m (m.search key).found).1 ∧
      (m.lookup c key goOn).map = (goOn m (m.search key).found).2.1 ∧
      (m.lookup c key goOn).transcript.releases = (goOn m (m.search key).found).2.2) := by
  unfold lookup
  dsimp only
  split
  next hc => exact Or.inl ⟨Reentry.ne_never_of_cut hc, rfl, rfl, rfl⟩
  next => exact Or.inr ⟨rfl, rfl, rfl⟩

/-- A request that goes on with what a lookup found comes to a step if each
outcome of the lookup does. -/
theorem lookup_step {m : Map ks V} {c : Conditions} {request : Request K V} {key : K}
    {goOn : Map ks V → Option (Entry K V) → Answer K V × Map ks V × Array (Release K V)}
    (h : m.Step c request (goOn m (m.search key).found).1 (goOn m (m.search key).found).2.1
      (goOn m (m.search key).found).2.2.toList) :
    m.Step c request (m.lookup c key goOn).answer (m.lookup c key goOn).map
      (m.lookup c key goOn).transcript.releases.toList := by
  rcases m.lookup_cases c key goOn with ⟨hc, ha, hm, hr⟩ | ⟨ha, hm, hr⟩
  · rw [ha, hm, hr]
    exact .reentered hc
  · rw [ha, hm, hr]
    exact h

/-- Every request comes to one of these. -/
theorem respond_step (m : Map ks V) (c : Conditions) (request : Request K V) :
    m.Step c request (m.respond c request).answer (m.respond c request).map
      (m.respond c request).transcript.releases.toList := by
  cases request with
  | put key value => exact .put (m.put_puts c key value)
  | get key => exact lookup_step (.get key)
  | getPair key => exact lookup_step (.getPair key)
  | contains key => exact lookup_step (.contains key)
  | len => exact .len
  | modify key f =>
    apply lookup_step
    cases hs : (m.search key).found with
    | none => exact .modifyNone hs
    | some e => exact .modify hs
  | remove key =>
    apply lookup_step
    cases hs : (m.search key).found with
    | none => exact .removeNone hs
    | some e => exact .remove hs
  | steal key =>
    apply lookup_step
    cases hs : (m.search key).found with
    | none => exact .stealNone hs
    | some e => exact .steal hs

/-! ## What an answer tells -/

section Answers

variable {m after : Map ks V} {c : Conditions} {key : K} {releases : List (Release K V)}

theorem Step.exists_of_removed (h : m.Step c (.remove key) (.flag true) after releases) :
    ∃ e, (m.search key).found = some e ∧ after = m.vacateAt e.pos := by
  cases h with
  | remove hs => exact ⟨_, hs, rfl⟩

theorem Step.exists_of_stolen {kv : K × V}
    (h : m.Step c (.steal key) (.pair (some kv)) after releases) :
    ∃ e, (m.search key).found = some e ∧ e.pair = kv ∧ after = m.vacateAt e.pos := by
  cases h with
  | steal hs => exact ⟨_, hs, rfl, rfl⟩

theorem Step.exists_of_modified {f : V → V} {value : V}
    (h : m.Step c (.modify key f) (.value (some value)) after releases) :
    ∃ e, (m.search key).found = some e ∧ value = f e.value ∧ after = m.mapValueAt e.pos f := by
  cases h with
  | modify hs => exact ⟨_, hs, rfl, rfl⟩

end Answers

end Map

end Chaining
