import Chaining.Key.Bytes

/-!
# The FNV-1a hash, 64 bits wide

Each byte is mixed in by exclusive or and the result multiplied by the FNV
prime, modulo 2^64. `feed` goes on from any state.
-/

namespace Chaining.Fnv

/-- The offset basis, the state before the first byte. -/
def basis : UInt64 := 14695981039346656037

/-- The 64-bit FNV prime. -/
def prime : UInt64 := 1099511628211

/-- The state after some more bytes. -/
def feed (h : UInt64) (bytes : List UInt8) : UInt64 :=
  bytes.foldl (fun h b => (h ^^^ b.toUInt64) * prime) h

/-- The hash of a sequence of bytes. -/
def ofBytes (bytes : List UInt8) : UInt64 :=
  feed basis bytes

end Chaining.Fnv
