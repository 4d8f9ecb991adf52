/-!
# Asking for one thing after the other

A function `next` answers with the next thing, or none, and with the state to
go on from. `Walk.take` asks a given number of times, and goes on asking after
an answer of none; `Walk.drain` asks until the first such answer.
-/

namespace Chaining.Walk

universe u v

variable {σ : Type u} {α : Type v}

/-- The answers to `n` questions, behind those `given`. -/
def takeAfter (next : σ → Option α × σ) (given : Array (Option α)) :
    (n : Nat) → σ → Array (Option α) × σ
  | 0, s => (given, s)
  | n + 1, s =>
    let (answer, s) := next s
    takeAfter next (given.push answer) n s

/-- The answers to `n` questions. -/
def take (next : σ → Option α × σ) (n : Nat) (s : σ) : Array (Option α) × σ :=
  takeAfter next #[] n s

/-- The things answered before the first none, in at most `bound` questions,
behind those `given`. -/
def drainAfter (next : σ → Option α × σ) (given : Array α) : (bound : Nat) → σ → Array α × σ
  | 0, s => (given, s)
  | bound + 1, s =>
    match next s with
    | (none, s) => (given, s)
    | (some a, s) => drainAfter next (given.push a) bound s

/-- The things answered before the first none, in at most `bound` questions. -/
def drain (next : σ → Option α × σ) (bound : Nat) (s : σ) : Array α × σ :=
  drainAfter next #[] bound s

end Chaining.Walk
