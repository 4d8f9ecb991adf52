import Chaining.Transcript

/-!
# Disposers: who is told of what a table lets go of

A table does not act on what it lets go of, it only records it. A `Disposer`
reads such a record. It says what it does with a key, with a value and with a
pair; unless it says otherwise a pair is its key and then its value. Disposers
carry a state from one release to the next and answer with notes.
-/

namespace Chaining

universe u v w x

/-- Told of each key, value or pair that is let go of; `σ` is what it remembers
and `ε` the kind of note it makes. -/
structure Disposer (K : Type u) (V : Type v) (σ : Type w) (ε : Type x) where
  /-- How the disposer shows itself, if it does. -/
  label : Option String
  /-- What it does with a key. -/
  onKey : K → σ → List ε × σ
  /-- What it does with a value. -/
  onValue : V → σ → List ε × σ
  /-- What it does with a pair. -/
  onPair : K → V → σ → List ε × σ := fun key value s =>
    let (ofKey, s) := onKey key s
    let (ofValue, s) := onValue value s
    (ofKey ++ ofValue, s)

namespace Disposer

variable {K : Type u} {V : Type v} {σ : Type w} {ε : Type x}

/-- Lets everything pass in silence. -/
def silent : Disposer K V σ ε where
  label := some "Dropper"
  onKey _ s := ([], s)
  onValue _ s := ([], s)

/-- Made of one function for keys and one for values. -/
def ofFunctions (onKey : K → σ → List ε × σ) (onValue : V → σ → List ε × σ) :
    Disposer K V σ ε where
  label := some "FnDisposer"
  onKey := onKey
  onValue := onValue

/-- Made of a function for keys; values pass in silence. -/
def keysOnly (onKey : K → σ → List ε × σ) : Disposer K V σ ε :=
  ofFunctions onKey fun _ s => ([], s)

/-- Made of a function for values; keys pass in silence. -/
def valuesOnly (onValue : V → σ → List ε × σ) : Disposer K V σ ε :=
  ofFunctions (fun _ s => ([], s)) onValue

/-- What it does with one release. -/
def receive (d : Disposer K V σ ε) : Release K V → σ → List ε × σ
  | .key k => d.onKey k
  | .value v => d.onValue v
  | .pair k v => d.onPair k v

/-- What it does with some releases, one after the other. -/
def receiveAll (d : Disposer K V σ ε) : List (Release K V) → σ → List ε × σ
  | [], s => ([], s)
  | r :: rest, s =>
    let (notes, s) := d.receive r s
    let (more, s) := d.receiveAll rest s
    (notes ++ more, s)

end Disposer

end Chaining
