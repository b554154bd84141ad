/-!
# Shared values and the handles that do not keep them

Values are shared between a cache, its sessions and its callers, and two values with one text are
still two values. So a `Value` carries a tag: equality of values is identity.

- `Handle`: what a soft layer stores in place of a value. It does not keep the value alive, and it
  gives the value back only as long as something else does.
- `Keeper`: what a piece of state keeps alive. Whether a value is alive is never stored: it is asked
  of all the keepers there are.
-/

namespace SoftTier

/-- A shared value. Two values are the same one when their tags and texts agree; whoever makes
values gives each a tag of its own. -/
structure Value where
  tag : Nat
  text : String
  deriving DecidableEq, Inhabited

/-- A reference to a value that does not keep it alive; `none` refers to nothing. -/
structure Handle where
  target : Option Value
  deriving DecidableEq, Inhabited

namespace Handle

/-- The handle of a live value. -/
def ofValue (v : Value) : Handle := ⟨some v⟩

/-- The handle that never had a value. -/
def dead : Handle := ⟨none⟩

/-- The value behind the handle, if it is among the values still alive. -/
def upgrade (alive : Value → Bool) (h : Handle) : Option Value := h.target.filter alive

/-- Whether the value behind the handle is gone. -/
def isReclaimed (alive : Value → Bool) (h : Handle) : Bool := (h.upgrade alive).isNone

/-- How the handle shows itself to someone inspecting it. -/
def describe (alive : Value → Bool) (h : Handle) : String :=
  "SoftEntry \x7b reclaimed: " ++ (if h.isReclaimed alive then "true" else "false") ++ " \x7d"

@[simp] theorem upgrade_dead (alive : Value → Bool) : dead.upgrade alive = none := rfl

@[simp] theorem upgrade_ofValue (alive : Value → Bool) (v : Value) :
    (ofValue v).upgrade alive = if alive v then some v else none := by
  cases h : alive v <;> simp [ofValue, upgrade, h]

/-- A handle gives back the value it refers to, and only while that value is alive. -/
theorem upgrade_eq_some_iff {alive : Value → Bool} {h : Handle} {v : Value} :
    h.upgrade alive = some v ↔ h.target = some v ∧ alive v = true := by
  simp [upgrade, Option.filter_eq_some_iff]

end Handle

/-- State that keeps values alive. -/
class Keeper (α : Type) where
  /-- Whether this state holds a strong reference to the value. -/
  keeps : α → Value → Bool

export Keeper (keeps)

/-- A value keeps itself. -/
instance : Keeper Value := ⟨fun v w => v == w⟩

/-- A handle keeps nothing. -/
instance : Keeper Handle := ⟨fun _ _ => false⟩

/-- An entry with no value keeps nothing. -/
instance {α : Type} [Keeper α] : Keeper (Option α) := ⟨fun o v => o.any (keeps · v)⟩

/-- An entry keeps what its value keeps. -/
instance {κ α : Type} [Keeper α] : Keeper (κ × α) := ⟨fun e => keeps e.2⟩

/-- A list keeps what its elements keep. -/
instance {α : Type} [Keeper α] : Keeper (List α) := ⟨fun l v => l.any (keeps · v)⟩

end SoftTier
