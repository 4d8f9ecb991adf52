/-!
# Keys as sequences of bytes

What a byte-wise hash function is fed for a key: an integer its own width in
little-endian order, a truth value one byte, a character its code point as a
four-byte integer, a text its UTF-8 bytes closed by `0xff`. The closing byte
occurs in no UTF-8 text, so no text's bytes begin another's.
-/

namespace Chaining

universe u

/-- The lowest `width` bytes of a number, the lowest first. -/
def littleEndian : (width : Nat) → Nat → List UInt8
  | 0, _ => []
  | width + 1, n => UInt8.ofNat (n % 256) :: littleEndian width (n / 256)

/-- The UTF-8 bytes of a text. -/
def textBytes (s : String) : List UInt8 :=
  s.toUTF8.data.toList

/-- Keys that a byte-wise hash function can read. -/
class ByteKey (K : Type u) where
  /-- The bytes of a key, in the order in which they are read. -/
  bytes : K → List UInt8

instance : ByteKey UInt8 := ⟨fun k => [k]⟩
instance : ByteKey UInt16 := ⟨fun k => littleEndian 2 k.toNat⟩
instance : ByteKey UInt32 := ⟨fun k => littleEndian 4 k.toNat⟩
instance : ByteKey UInt64 := ⟨fun k => littleEndian 8 k.toNat⟩

instance : ByteKey Int8 := ⟨fun k => [k.toUInt8]⟩
instance : ByteKey Int16 := ⟨fun k => littleEndian 2 k.toUInt16.toNat⟩
instance : ByteKey Int32 := ⟨fun k => littleEndian 4 k.toUInt32.toNat⟩
instance : ByteKey Int64 := ⟨fun k => littleEndian 8 k.toUInt64.toNat⟩

instance : ByteKey Bool := ⟨fun b => [b.toUInt8]⟩
instance : ByteKey Char := ⟨fun c => littleEndian 4 c.val.toNat⟩
instance : ByteKey String := ⟨fun s => textBytes s ++ [0xff]⟩

end Chaining
