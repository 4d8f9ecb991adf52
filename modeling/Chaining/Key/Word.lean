/-!
# Keys that are one machine word

A key of one of these types is told apart by a single 64-bit word, its
`WordKey.word`: an unsigned integer by its value, a signed one by its
sign-extended two's complement, a truth value by 0 or 1, a character by its
code point and an address by itself. On every type below the word determines
the key, so comparing words compares keys.
-/

namespace Chaining

universe u

/-- Keys told apart by a single machine word. -/
class WordKey (K : Type u) where
  /-- The word of a key. -/
  word : K → UInt64

/-- A place in memory, never followed: only its number counts. -/
structure Address where
  word : UInt64
  deriving DecidableEq

instance : WordKey UInt8 := ⟨UInt8.toUInt64⟩
instance : WordKey UInt16 := ⟨UInt16.toUInt64⟩
instance : WordKey UInt32 := ⟨UInt32.toUInt64⟩
instance : WordKey UInt64 := ⟨id⟩

instance : WordKey Int8 := ⟨fun k => k.toInt64.toUInt64⟩
instance : WordKey Int16 := ⟨fun k => k.toInt64.toUInt64⟩
instance : WordKey Int32 := ⟨fun k => k.toInt64.toUInt64⟩
instance : WordKey Int64 := ⟨Int64.toUInt64⟩

instance : WordKey Bool := ⟨Bool.toUInt64⟩
instance : WordKey Char := ⟨fun c => c.val.toUInt64⟩
instance : WordKey Address := ⟨Address.word⟩

end Chaining
