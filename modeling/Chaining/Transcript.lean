import Chaining.Keying
import Chaining.StorageError

/-!
# What an operation leaves behind besides its answer

An operation on a table calls the keying, lets go of keys and values, and
reports events. All three are recorded in order in its `Transcript`; nothing
else of the operation can be seen from outside.

A `Disposer` is told of each key, value or pair that is let go of. It may keep
a state, and what it says of a release is a list of notes of its own.
-/

namespace Chaining

universe u v

/-- What a table let go of. -/
inductive Release (K : Type u) (V : Type v) where
  /-- A key alone. -/
  | key (key : K)
  /-- A value alone. -/
  | value (value : V)
  /-- A pair. -/
  | pair (key : K) (value : V)
  deriving DecidableEq, Repr

/-- What a table reports about its work. -/
inductive Event where
  /-- A pair went into a new slot behind its chain. -/
  | appended
  /-- A pair went into a vacant slot. -/
  | reused
  /-- The table grew. -/
  | resized (old new entries watermark : Nat)
  /-- The table should have grown but could not. -/
  | growthFailed (buckets entries : Nat) (error : StorageError)
  /-- There was no room for one more slot. -/
  | putRejected (error : StorageError)
  deriving DecidableEq, Repr

/-- How much an event matters. -/
inductive Level where
  | warning
  | detail
  | step
  deriving DecidableEq, Repr

/-- The word that stands for a level at the start of a line. -/
def Level.word : Level → String
  | warning => "WARN"
  | detail => "DEBUG"
  | step => "TRACE"

namespace Event

/-- How much the event matters. -/
def level : Event → Level
  | appended | reused => .step
  | resized .. => .detail
  | growthFailed .. | putRejected _ => .warning

/-- The sentence that reports the event. -/
def message : Event → String
  | appended => "appending extension slot"
  | reused => "reusing tombstone"
  | resized old new entries watermark =>
    s!"resized {old} -> {new} buckets ({entries} entries, watermark {watermark})"
  | growthFailed buckets entries error =>
    s!"resize from {buckets} buckets failed with {entries} entries: " ++ error.message
  | putRejected error => "put rejected: " ++ error.message

/-- The line that reports the event. -/
def line (e : Event) : String :=
  e.level.word ++ " " ++ e.message

end Event

/-- Calls, releases and events of one operation, each in order. -/
structure Transcript (K : Type u) (V : Type v) where
  calls : Array (Call K) := #[]
  releases : Array (Release K V) := #[]
  events : Array Event := #[]

end Chaining
