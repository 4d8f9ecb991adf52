import Chaining.Key.Bytes

/-!
# The times-33 hash of a text

Each byte, read as a signed eight-bit integer, is added to 33 times the hash so
far, in 32-bit arithmetic that wraps. A byte of an ASCII text is its own value;
the bytes of all other characters count negative.
-/

namespace Chaining.Times33

/-- The hash of the empty text. -/
def seed : UInt32 := 5381

/-- One byte more: 33 times the hash so far, plus the signed byte. -/
def step (h : UInt32) (b : UInt8) : UInt32 :=
  (h <<< 5) + h + b.toInt8.toInt32.toUInt32

/-- The hash of a sequence of bytes. -/
def ofBytes (bytes : List UInt8) : UInt32 :=
  bytes.foldl step seed

/-- The hash of a text, widened to 64 bits. -/
def ofText (s : String) : UInt64 :=
  (ofBytes (textBytes s)).toUInt64

end Chaining.Times33
