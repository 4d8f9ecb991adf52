import Chaining.Allocator
import Chaining.Keying

/-!
# Conditions under which an operation runs

Besides its arguments, two things outside a table decide how an operation goes:
which of its reservations are granted, and whether one of the calls of its
keying looks into the very table that is being walked. Such a call is a fault;
so is a pair that meets an equal key while a table grows. A fault ends the
operation at once, and the table stays usable.

Both faults are reported by debug assertions, and the build that has them is the
one modelled. Without them there is no fault: the call looks into the table as it
stands at that moment, the pair that meets an equal key displaces the other
(`Chaining.Table.Migration`), and the operation goes on.
-/

namespace Chaining

universe u

/-- Why an operation broke off. -/
inductive Fault where
  /-- A pair moved during growth met an equal key. -/
  | duplicateKey
  /-- A call of the keying looked into the table it was made for. -/
  | reentered
  deriving DecidableEq, Repr

/-- The sentence that reports the fault. -/
def Fault.message : Fault → String
  | duplicateKey => "duplicate key found during resize"
  | reentered => "reentrancy detected: callback re-entered the map during a probe"

/-- Which call of an operation, numbered from zero, looks into the table it is
made for, if one does. -/
structure Reentry where
  call? : Option Nat

namespace Reentry

/-- No call does. -/
def never : Reentry := ⟨none⟩

/-- The call of that number does. -/
def atCall (number : Nat) : Reentry := ⟨some number⟩

/-- The calls up to the faulty one, if it is among those made so far. -/
def cut {K : Type u} (r : Reentry) (calls : Array (Call K)) : Option (Array (Call K)) :=
  match r.call? with
  | none => none
  | some number => if number < calls.size then some (calls.take (number + 1)) else none

/-- The calls of an operation whose call of that number makes the calls `inner` of
a lookup in another table before it answers. -/
def nest {K : Type u} (number : Nat) (inner calls : Array (Call K)) : Array (Call K) :=
  calls.take (number + 1) ++ inner ++ calls.drop (number + 1)

end Reentry

/-- What decides, besides its arguments, how an operation goes. -/
structure Conditions where
  /-- Which reservations are granted. -/
  allocator : Allocator := .addressable
  /-- Which call of the keying looks into the table. -/
  reentry : Reentry := .never

end Chaining
