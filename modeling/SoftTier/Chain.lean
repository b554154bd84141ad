import SoftTier.Stack
import SoftTier.Store.Soft

/-!
# Chains of layers

A chain is all that stands under the callers of a cache: a base store and the layers on top of it,
at most one of them soft. Above the soft layer, and everywhere in a chain without one, values are
stored themselves; below it, their handles.

- `Chain.Shape`: the layers of a chain.
- `Chain κ base shape`: the states of a chain with these layers over base stores.
- the `Store` instance: every chain over base stores is a store of values.
- `Chain.onSoft`: an operation on the soft layer, as seen through the layers above it.
-/

namespace SoftTier

/-- The layers of a chain, the topmost first: without a soft layer, or above and below it. -/
inductive Chain.Shape where
  | plain (layers : List Layer)
  | soft (upper lower : List Layer)

/-- The states of a chain: of layers over a base store of values, or over a soft layer that stands
on layers over a base store of handles. -/
def Chain (κ : Type) [Ord κ] (base : Type → Type) : Chain.Shape → Type
  | .plain layers => Stack κ Value (base Value) layers
  | .soft upper lower => Stack κ Value (Soft κ (Stack κ Handle (base Handle) lower)) upper

namespace Chain

variable {κ : Type} [Ord κ] {base : Type → Type} {α : Type}

/-- The counters of the metered layers, the lowest first. -/
def tallies : (shape : Shape) → Chain κ base shape → List Tally
  | .plain layers, c => Stack.tallies layers c
  | .soft upper lower, c =>
    Stack.tallies lower (Stack.base upper c).below ++ Stack.tallies upper c

/-- Sets every counter back to zero. -/
def resetTallies : (shape : Shape) → Chain κ base shape → Chain κ base shape
  | .plain layers, c => Stack.resetTallies layers c
  | .soft upper lower, c =>
    let below := Op.update fun s => { s with below := Stack.resetTallies lower s.below }
    (Stack.onBase below upper .alone (Stack.resetTallies upper c)).state

variable [DecidableEq κ] [Std.TransOrd κ] [Store (base Value) κ Value]
  [Store (base Handle) κ Handle]

/-- A chain over base stores is a store. -/
instance store : (shape : Shape) → Store (Chain κ base shape) κ Value
  | .plain layers => inferInstanceAs (Store (Stack κ Value (base Value) layers) κ Value)
  | .soft upper lower =>
    inferInstanceAs
      (Store (Stack κ Value (Soft κ (Stack κ Handle (base Handle) lower)) upper) κ Value)

/-- Runs an operation on the soft layer, if there is one. -/
def onSoft (x : {σ : Type} → [Store σ κ Handle] → Op (Soft κ σ) α) :
    (shape : Shape) → Op (Chain κ base shape) (Option α)
  | .plain _ => pure none
  | .soft upper lower =>
    show Op (Stack κ Value (Soft κ (Stack κ Handle (base Handle) lower)) upper) (Option α) from do
      return some (← Stack.onBase x upper)

end Chain

end SoftTier
