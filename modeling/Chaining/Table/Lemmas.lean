import Chaining.Table

/-!
# What changes of content leave alone

Putting a pair into a slot, taking it out or changing its value touches no
link. So the chains of all buckets, and with them the order of traversal, stay
as they are (`positions_congr`). Of the contents only the slot's own changes
(`pair?_setPair`).
-/

namespace Chaining.Table

universe u v

variable {K : Type u} {V : Type v}

/-! ## The number of buckets -/

@[simp] theorem bucketCount_ofBuckets (n : Nat) :
    (ofBuckets n : Table K V).bucketCount = n := by
  simp [ofBuckets, bucketCount]

@[simp] theorem bucketCount_setPair (t : Table K V) (p : Pos) (pair : Option (K × V)) :
    (t.setPair p pair).bucketCount = t.bucketCount := by
  cases p <;> simp [setPair, bucketCount]

@[simp] theorem bucketCount_setNext (t : Table K V) (p : Pos) (next : Option Nat) :
    (t.setNext p next).bucketCount = t.bucketCount := by
  cases p <;> simp [setNext, bucketCount]

@[simp] theorem bucketCount_mapValue (t : Table K V) (p : Pos) (f : V → V) :
    (t.mapValue p f).bucketCount = t.bucketCount := by
  cases p <;> simp [mapValue, bucketCount]

@[simp] theorem bucketCount_fill (t : Table K V) (p : Pos) (pair : K × V) :
    (t.fill p pair).bucketCount = t.bucketCount :=
  bucketCount_setPair t p (some pair)

@[simp] theorem bucketCount_append (t : Table K V) (last : Pos) (pair : K × V) :
    (t.append last pair).bucketCount = t.bucketCount :=
  bucketCount_setNext t last (some t.arena.size)

@[simp] theorem bucketCount_vacate (t : Table K V) (p : Pos) :
    (t.vacate p).bucketCount = t.bucketCount := by
  unfold vacate
  split
  next => rfl
  next => exact bucketCount_setPair t p none

/-! ## Slots after a change of content -/

theorem slot?_setPair (t : Table K V) (p q : Pos) (pair : Option (K × V)) :
    (t.setPair p pair).slot? q =
      if p = q then (t.slot? q).map fun s => { s with pair } else t.slot? q := by
  cases p <;> cases q <;> simp [setPair, slot?, Array.getElem?_modify]

theorem slot?_fill (t : Table K V) (p q : Pos) (pair : K × V) :
    (t.fill p pair).slot? q = (t.setPair p (some pair)).slot? q := by
  cases q <;> rfl

theorem slot?_mapValue (t : Table K V) (p q : Pos) (f : V → V) :
    (t.mapValue p f).slot? q =
      if p = q then (t.slot? q).map (·.mapValue f) else t.slot? q := by
  cases p <;> cases q <;> simp [mapValue, slot?, Array.getElem?_modify]

/-- The slot itself holds the new content, if the table has it; all others hold
what they held. -/
theorem pair?_setPair (t : Table K V) (p q : Pos) (pair : Option (K × V)) :
    (t.setPair p pair).pair? q =
      if p = q then (t.slot? q).bind fun _ => pair else t.pair? q := by
  unfold pair?
  rw [slot?_setPair]
  split
  next => cases t.slot? q <;> rfl
  next => rfl

theorem pair?_fill (t : Table K V) (p q : Pos) (pair : K × V) :
    (t.fill p pair).pair? q = (t.setPair p (some pair)).pair? q :=
  congrArg (·.bind Slot.pair) (slot?_fill t p q pair)

@[simp] theorem next?_setPair (t : Table K V) (p q : Pos) (pair : Option (K × V)) :
    (t.setPair p pair).next? q = t.next? q := by
  unfold next?
  rw [slot?_setPair]
  split
  next => cases t.slot? q <;> rfl
  next => rfl

@[simp] theorem next?_fill (t : Table K V) (p q : Pos) (pair : K × V) :
    (t.fill p pair).next? q = t.next? q := by
  rw [next?, slot?_fill]
  exact next?_setPair t p q (some pair)

@[simp] theorem next?_mapValue (t : Table K V) (p q : Pos) (f : V → V) :
    (t.mapValue p f).next? q = t.next? q := by
  unfold next?
  rw [slot?_mapValue]
  split
  next => cases t.slot? q <;> rfl
  next => rfl

@[simp] theorem size_arena_setPair (t : Table K V) (p : Pos) (pair : Option (K × V)) :
    (t.setPair p pair).arena.size = t.arena.size := by
  cases p <;> simp [setPair]

@[simp] theorem size_arena_fill (t : Table K V) (p : Pos) (pair : K × V) :
    (t.fill p pair).arena.size = t.arena.size :=
  size_arena_setPair t p (some pair)

@[simp] theorem size_arena_mapValue (t : Table K V) (p : Pos) (f : V → V) :
    (t.mapValue p f).arena.size = t.arena.size := by
  cases p <;> simp [mapValue]

@[simp] theorem len_mapValue (t : Table K V) (p : Pos) (f : V → V) :
    (t.mapValue p f).len = t.len := by
  cases p <;> rfl

@[simp] theorem next?_vacate (t : Table K V) (p q : Pos) :
    (t.vacate p).next? q = t.next? q := by
  unfold vacate
  split
  next => rfl
  next => exact next?_setPair t p q none

@[simp] theorem size_arena_vacate (t : Table K V) (p : Pos) :
    (t.vacate p).arena.size = t.arena.size := by
  unfold vacate
  split
  next => rfl
  next => exact size_arena_setPair t p none

/-! ## Chains -/

/-- Tables with the same links have the same chains. -/
theorem chainFrom_congr {t u : Table K V} (h : ∀ p, t.next? p = u.next? p)
    (bound : Nat) (p : Pos) : t.chainFrom bound p = u.chainFrom bound p := by
  induction bound generalizing p with
  | zero => rfl
  | succ bound ih =>
    unfold chainFrom
    rw [h p]
    cases u.next? p with
    | none => rfl
    | some i => exact congrArg (p :: ·) (ih _)

/-- Tables with as many slots and the same links have the same positions. -/
theorem positions_congr {t u : Table K V} (hb : t.bucketCount = u.bucketCount)
    (ha : t.arena.size = u.arena.size) (h : ∀ p, t.next? p = u.next? p) :
    t.positions = u.positions := by
  have hc : t.chain = u.chain := by
    funext b
    unfold chain
    rw [ha]
    exact chainFrom_congr h _ _
  unfold positions
  rw [hb, hc]

@[simp] theorem positions_mapValue (t : Table K V) (p : Pos) (f : V → V) :
    (t.mapValue p f).positions = t.positions :=
  positions_congr (bucketCount_mapValue t p f) (size_arena_mapValue t p f)
    fun q => next?_mapValue t p q f

@[simp] theorem takeFirst_zero (t : Table K V) : t.takeFirst 0 = (#[], t) := by
  unfold takeFirst
  cases t.positions <;> rfl

end Chaining.Table
