import Chaining.Proofs.Map.Room

/-!
# Histories: all that is done to a map

A run is made of requests; a history is made of `Deed`s, which are requests and the steps
of sweeps. The maps that there can be are those that some history leads to from a new map
(`reachable_iff_exists_later`), so what is said of all histories is said of all of them, and
may speak of the past as well.

Of the past two things are looked at. `Map.turnsIn` records the requests, each with what it
came to. `Map.growth?` is the growth that a deed begins with, if it is a put that finds the
pairs at the watermark, and `Map.grownTo?` the map that this makes.
-/

namespace Chaining

universe u v

/-- What can be done to a map. -/
inductive Deed (K : Type u) (V : Type v) where
  /-- It is sent a request. -/
  | request (conditions : Conditions) (request : Request K V)
  /-- A sweep, wherever it has come to, takes its next step over it. -/
  | visit (sweep : Sweep) (f : V → V)

/-- Whether a request is a put. -/
def Request.isPut {K : Type u} {V : Type v} : Request K V → Bool
  | .put _ _ => true
  | _ => false

namespace Map

variable {K : Type u} {V : Type v} {ks : Keying K} {m : Map ks V}

/-- The map after one deed. -/
def undergo (m : Map ks V) : Deed K V → Map ks V
  | .request c request => (m.respond c request).map
  | .visit s f => { m with table := (Sweep.visit f (s, m.table)).2.2 }

/-- The map after a history. -/
def later (m : Map ks V) (history : List (Deed K V)) : Map ks V :=
  history.foldl undergo m

/-- The turn that a deed makes, if it is a request. -/
def turn? (m : Map ks V) : Deed K V → Option (Turn ks V)
  | .request c request => some ⟨m, c, request, m.respond c request⟩
  | .visit _ _ => none

/-- The turns of a history. -/
def turnsIn (m : Map ks V) : List (Deed K V) → List (Turn ks V)
  | [] => []
  | deed :: rest => (m.turn? deed).toList ++ (m.undergo deed).turnsIn rest

theorem later_append (m : Map ks V) (front back : List (Deed K V)) :
    m.later (front ++ back) = (m.later front).later back :=
  List.foldl_append

theorem later_concat (m : Map ks V) (history : List (Deed K V)) (deed : Deed K V) :
    m.later (history ++ [deed]) = (m.later history).undergo deed :=
  List.foldl_concat ..

theorem Reachable.undergo (hm : m.Reachable) (deed : Deed K V) : (m.undergo deed).Reachable := by
  cases deed with
  | request c request => exact hm.responded c request
  | visit s f => exact hm.visited s f

theorem Reachable.later (hm : m.Reachable) (history : List (Deed K V)) :
    (m.later history).Reachable := by
  induction history generalizing m with
  | nil => exact hm
  | cons deed rest ih => exact ih (hm.undergo deed)

/-- Every map has a history, and what has a history can be. -/
theorem reachable_iff_exists_later :
    m.Reachable ↔ ∃ (sizing : Sizing) (history : List (Deed K V)),
      m = (ofSizing ks sizing).later history := by
  constructor
  · intro h
    induction h with
    | @created _ sizing _ h => exact ⟨sizing, [], eq_ofSizing_of_create h⟩
    | @responded m c request _ ih =>
      obtain ⟨sizing, history, rfl⟩ := ih
      have hlater := later_concat (ofSizing ks sizing) history (.request c request)
      exact ⟨sizing, _, hlater.symm⟩
    | @visited m s f _ ih =>
      obtain ⟨sizing, history, rfl⟩ := ih
      have hlater := later_concat (ofSizing ks sizing) history (.visit s f)
      exact ⟨sizing, _, hlater.symm⟩
  · rintro ⟨sizing, history, rfl⟩
    exact (Reachable.ofSizing ks sizing).later history

/-- A turn of a history is a request made of a map that there can be. -/
theorem of_mem_turnsIn (hm : m.Reachable) {history : List (Deed K V)} {turn : Turn ks V}
    (h : turn ∈ m.turnsIn history) :
    turn.before.Reachable ∧
      turn.outcome = turn.before.respond turn.conditions turn.request := by
  induction history generalizing m with
  | nil => cases h
  | cons deed rest ih =>
    rcases List.mem_append.mp h with h | h
    · cases deed with
      | request c request =>
        obtain rfl := List.mem_singleton.mp h
        exact ⟨hm, rfl⟩
      | visit s f => cases h
    · exact ih (hm.undergo deed) h

/-! ## What deeds leave alone -/

theorem sizing_undergo (m : Map ks V) (deed : Deed K V) : (m.undergo deed).sizing = m.sizing := by
  cases deed with
  | request c request => exact (m.respond_step c request).sizing_eq
  | visit s f => rfl

theorem sizing_later (m : Map ks V) (history : List (Deed K V)) :
    (m.later history).sizing = m.sizing := by
  induction history generalizing m with
  | nil => rfl
  | cons deed rest ih => exact (ih (m.undergo deed)).trans (m.sizing_undergo deed)

/-- Only requests change the counts. -/
theorem counts_visit (m : Map ks V) (s : Sweep) (f : V → V) :
    (m.undergo (.visit s f)).bucketCount = m.bucketCount ∧
      (m.undergo (.visit s f)).len = m.len :=
  ⟨bucketCount_visit f s m.table, len_visit f s m.table⟩

/-- The buckets are never fewer than before. -/
theorem Reachable.bucketCount_le_undergo (hm : m.Reachable) (deed : Deed K V) :
    m.bucketCount ≤ (m.undergo deed).bucketCount := by
  cases deed with
  | visit s f => exact Nat.le_of_eq (m.counts_visit s f).1.symm
  | request c request =>
    rcases (m.respond_step c request).bucketCount hm.wellFormed with h | h
    · exact Nat.le_of_eq h.symm
    · have hle : m.bucketCount ≤ m.bucketCount * growthFactor :=
        Nat.le_mul_of_pos_right _ (by decide)
      exact h ▸ hle

theorem Reachable.bucketCount_le_later (hm : m.Reachable) (history : List (Deed K V)) :
    m.bucketCount ≤ (m.later history).bucketCount := by
  induction history generalizing m with
  | nil => exact Nat.le_refl _
  | cons deed rest ih =>
    exact Nat.le_trans (hm.bucketCount_le_undergo deed) (ih (hm.undergo deed))

/-! ## Growth -/

/-- The growth that a deed begins with: a put that finds the pairs at the watermark lets the
map grow first. -/
def growth? (m : Map ks V) : Deed K V → Option (Growth ks V)
  | .request c (.put _ _) => if m.len < m.watermark then none else some (m.grow c)
  | _ => none

end Map

/-- The map to which a growth has been carried out. -/
def Growth.grown? {K : Type u} {V : Type v} {ks : Keying K} : Growth ks V → Option (Map ks V)
  | .grown map _ _ => some map
  | _ => none

namespace Map

variable {K : Type u} {V : Type v} {ks : Keying K} {m : Map ks V} {c : Conditions}
  {key : K} {value : V}

/-- The map to which a deed lets the map grow, if that is carried out. -/
def grownTo? (m : Map ks V) (deed : Deed K V) : Option (Map ks V) :=
  (m.growth? deed).bind Growth.grown?

theorem growth?_of_lt (h : m.len < m.watermark) : m.growth? (.request c (.put key value)) = none :=
  if_pos h

theorem growth?_of_le (h : m.watermark ≤ m.len) :
    m.growth? (.request c (.put key value)) = some (m.grow c) :=
  if_neg (Nat.not_lt.mpr h)

theorem grownTo?_of_lt (h : m.len < m.watermark) :
    m.grownTo? (.request c (.put key value)) = none := by
  rw [grownTo?, growth?_of_lt h, Option.bind_none]

theorem grownTo?_of_le (h : m.watermark ≤ m.len) :
    m.grownTo? (.request c (.put key value)) = (m.grow c).grown? := by
  rw [grownTo?, growth?_of_le h, Option.bind_some]

end Map

end Chaining
