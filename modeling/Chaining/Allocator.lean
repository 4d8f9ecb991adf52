/-!
# Reservations of memory

An operation that needs memory first reserves it, a number of slots at a time.
The reservations of one operation are numbered from one, and an `Allocator`
says which it grants. Whatever is not granted makes the operation fail, never
stop half-way.
-/

namespace Chaining

/-- Which reservations are granted. -/
structure Allocator where
  /-- Whether the reservation with that number, of that many slots, is granted. -/
  grants : (number slots : Nat) → Bool

namespace Allocator

/-- Grants everything. -/
def generous : Allocator :=
  ⟨fun _ _ => true⟩

/-- Grants what an address space can hold: fewer than 2^60 slots at a time. -/
def addressable : Allocator :=
  ⟨fun _ slots => slots < Nat.pow 2 60⟩

/-- As `addressable`, but the reservation with one number is refused. -/
def refusing (refused : Nat) : Allocator :=
  ⟨fun number slots => number != refused && addressable.grants number slots⟩

end Allocator

end Chaining
