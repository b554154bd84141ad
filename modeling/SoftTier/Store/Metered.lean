import SoftTier.Store
import SoftTier.Tally

/-!
# Layers that forward

- `Metered`: counts what it is asked and reports the hit ratio after every lookup. Writes and
  removals are counted when they arrive, whether or not they succeed; a lookup is counted once it
  has an answer.
- `Wrapped`: hands every request on and changes nothing.
-/

namespace SoftTier

variable {σ κ ν α : Type}

/-- A store whose requests are counted. -/
structure Metered (σ : Type) where
  tally : Tally
  below : σ

namespace Metered

/-- Runs an operation on the store below. -/
def onBelow (x : Op σ α) : Op (Metered σ) α := fun env s =>
  match s with
  | ⟨tally, below⟩ =>
    let o := x env below
    ⟨o.result, ⟨tally, o.state⟩, o.events⟩

/-- Changes the counters. -/
def count (f : Tally → Tally) : Op (Metered σ) Unit :=
  Op.update fun s => { s with tally := f s.tally }

instance [Keeper σ] : Keeper (Metered σ) := ⟨fun s => keeps s.below⟩

instance [Store σ κ ν] : Store (Metered σ) κ ν where
  id s := Store.id s.below
  hasLock s := Store.hasLock s.below
  size := onBelow Store.size
  write k a := do
    count (·.addWrites 1)
    onBelow (Store.write k a)
  writeMiss k := do
    count (·.addWrites 1)
    onBelow (Store.writeMiss k)
  read k := do
    let found ← onBelow (Store.read k)
    count (·.addLookup found.isSome)
    let s ← Op.read id
    Op.emit (.lookedUp (Store.id s.below) s.tally.hitRatio)
    return found
  erase k := do
    count (·.addRemovals 1)
    onBelow (Store.erase k)
  clear := onBelow Store.clear

end Metered

/-- A store behind a layer that hands every request on. -/
structure Wrapped (σ : Type) where
  below : σ

namespace Wrapped

/-- Runs an operation on the store below. -/
def onBelow (x : Op σ α) : Op (Wrapped σ) α := fun env s =>
  match s with
  | ⟨below⟩ =>
    let o := x env below
    ⟨o.result, ⟨o.state⟩, o.events⟩

instance [Keeper σ] : Keeper (Wrapped σ) := ⟨fun s => keeps s.below⟩

instance [Store σ κ ν] : Store (Wrapped σ) κ ν where
  id s := Store.id s.below
  hasLock s := Store.hasLock s.below
  size := onBelow Store.size
  write k a := onBelow (Store.write k a)
  writeMiss k := onBelow (Store.writeMiss k)
  read k := onBelow (Store.read k)
  erase k := onBelow (Store.erase k)
  clear := onBelow Store.clear

end Wrapped

end SoftTier
