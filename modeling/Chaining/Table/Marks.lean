/-!
# Marks: one bit for each bucket

`Marks` remembers of each of some buckets whether it has been marked, in words of
sixty-four bits. The mark of a bucket is the bit `Marks.bitOf` of the word `Marks.wordOf`;
the last word may have bits to spare.
-/

namespace Chaining

/-- Marks of buckets, sixty-four to a word. -/
structure Marks where
  words : Array UInt64
  deriving Repr

namespace Marks

/-- The word that the mark of a bucket is in. -/
def wordOf (bucket : Nat) : Nat :=
  bucket / 64

/-- The bit of its word that is the mark of a bucket. -/
def bitOf (bucket : Nat) : UInt64 :=
  1 <<< UInt64.ofNat (bucket % 64)

/-- Words for that many buckets, none of which is marked. -/
def clear (buckets : Nat) : Marks :=
  ⟨Array.replicate ((buckets + 63) / 64) 0⟩

/-- Whether a bucket is marked. -/
def has (m : Marks) (bucket : Nat) : Bool :=
  m.words.getD (wordOf bucket) 0 &&& bitOf bucket != 0

/-- A bucket marked. -/
def set (m : Marks) (bucket : Nat) : Marks :=
  ⟨m.words.modify (wordOf bucket) (· ||| bitOf bucket)⟩

end Marks

end Chaining
