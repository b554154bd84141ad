import SoftTier.Assoc
import SoftTier.Value

/-!
# Values of a caller

A caller makes values, holds on to some of them under names, and lets them go again. What a caller
holds stays alive.

- `Source`: where a caller takes a value from.
- `Held`: the values held, and the supply of new ones.
-/

namespace SoftTier.Scene

/-- Where a caller takes a value from. -/
inductive Source where
  /-- A new value with this text. -/
  | fresh (text : String)
  /-- The value held under this name. -/
  | held (name : String)

/-- The values that a caller holds on to, and the tag of the next new one. -/
structure Held where
  values : Assoc String Value := []
  nextTag : Nat := 0

namespace Held

instance : Keeper Held := ⟨fun h => keeps h.values⟩

/-- The value held under a name. -/
def get? (name : String) (h : Held) : Option Value := h.values.get? name

/-- Holds on to a value under a name, in place of the one that was there. -/
def put (name : String) (v : Value) (h : Held) : Held :=
  { h with values := h.values.insert name v }

/-- Holds on to a value, if a name for it is given. -/
def putIf (name : Option String) (v : Value) (h : Held) : Held :=
  match name with
  | some name => h.put name v
  | none => h

/-- Lets the value under a name go; tells whether there was one. -/
def drop (name : String) (h : Held) : Bool × Held :=
  (h.values.has name, { h with values := h.values.erase name })

/-- Takes a value, unless it is to be one under a name that holds none. -/
def take? (source : Source) (h : Held) : Option (Value × Held) :=
  match source with
  | .fresh text => some (⟨h.nextTag, text⟩, { h with nextTag := h.nextTag + 1 })
  | .held name => (h.get? name).map (·, h)

/-- Takes `n` new values at once; gives the tag of the first. -/
def reserve (n : Nat) (h : Held) : Nat × Held := (h.nextTag, { h with nextTag := h.nextTag + n })

end Held

end SoftTier.Scene
