import Chaining.Key.Word
import Chaining.Hash.Times33
import Chaining.Hash.Fnv

/-!
# Keyings: how keys are hashed and compared

A `Keying` is the pair of functions by which a table places and recognises
keys. Nothing is assumed of them: the functions need not agree with each other,
and the comparison need not be an equivalence. A table always passes the stored
key first and the given key second, which shows as soon as the comparison is
not symmetric; `Call` records each use of either function.
-/

namespace Chaining

universe u

/-- The hash and the comparison by which a table places and recognises keys. -/
structure Keying (K : Type u) where
  /-- The hash of a key; it chooses the key's bucket. -/
  hash : K → UInt64
  /-- Whether a stored key (first) is the given key (second). -/
  equals : K → K → Bool

/-- One use of a keying. -/
inductive Call (K : Type u) where
  /-- The hash of `key` was asked for. -/
  | hash (key : K)
  /-- The key `stored` in a table was compared with the `given` one. -/
  | equals (stored given : K)
  deriving DecidableEq, Repr

namespace Keying

/-- Keys hashed by their machine word and compared by it. -/
def word {K : Type u} [WordKey K] : Keying K where
  hash := WordKey.word
  equals a b := WordKey.word a == WordKey.word b

/-- Texts under the times-33 hash, compared character by character. -/
def text : Keying String where
  hash := Times33.ofText
  equals a b := a == b

/-- Keys hashed by FNV-1a over their bytes, compared as values. -/
def bytes {K : Type u} [ByteKey K] [BEq K] : Keying K where
  hash k := Fnv.ofBytes (ByteKey.bytes k)
  equals a b := a == b

/-- How a keying made of two given functions shows itself. -/
def functionsLabel : String := "FnOps"

end Keying

end Chaining
