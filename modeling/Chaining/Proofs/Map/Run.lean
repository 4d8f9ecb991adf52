import Chaining.Proofs.Map.Step

/-!
# Runs: requests one after the other

A run is a list of requests, each with the conditions under which it is carried
out. `Map.turns` records it request by request, and `Map.after` is the map at
its end. What every request keeps, every run keeps (`after_of_respond`).
-/

namespace Chaining

universe u v

/-- One request of a run: the map it was made to, and what it came to. -/
structure Turn {K : Type u} (ks : Keying K) (V : Type v) where
  before : Map ks V
  conditions : Conditions
  request : Request K V
  outcome : Outcome ks V (Answer K V)

namespace Map

variable {K : Type u} {V : Type v} {ks : Keying K}

/-- The turns of a run. -/
def turns (m : Map ks V) : List (Conditions × Request K V) → List (Turn ks V)
  | [] => []
  | (c, request) :: rest =>
    let o := m.respond c request
    ⟨m, c, request, o⟩ :: o.map.turns rest

/-- The map at the end of a run. -/
def after (m : Map ks V) : List (Conditions × Request K V) → Map ks V
  | [] => m
  | (c, request) :: rest => (m.respond c request).map.after rest

theorem after_of_respond {P : Map ks V → Prop}
    (hstep : ∀ m c request, P m → P (m.respond c request).map) {m : Map ks V} (hm : P m)
    (run : List (Conditions × Request K V)) : P (m.after run) := by
  induction run generalizing m with
  | nil => exact hm
  | cons r rest ih => exact ih (hstep m r.1 r.2 hm)

/-- What requests keep holds of the map before each turn, and the turn is one of
the run. -/
theorem of_mem_turns {P : Map ks V → Prop}
    (hstep : ∀ m c request, P m → P (m.respond c request).map) {m : Map ks V} (hm : P m)
    {run : List (Conditions × Request K V)} {turn : Turn ks V} (h : turn ∈ m.turns run) :
    P turn.before ∧ turn.outcome = turn.before.respond turn.conditions turn.request ∧
      (turn.conditions, turn.request) ∈ run := by
  induction run generalizing m with
  | nil => cases h
  | cons r rest ih =>
    rcases List.mem_cons.mp h with rfl | h
    · exact ⟨hm, rfl, List.mem_cons_self⟩
    · obtain ⟨hbefore, hout, hmem⟩ := ih (hstep m r.1 r.2 hm) h
      exact ⟨hbefore, hout, List.mem_cons_of_mem _ hmem⟩

end Map

end Chaining
