import SoftTier.Session
import SoftTier.Store.Metered

/-!
# Stacks of layers

A stack puts any number of forwarding layers and sessions on top of a base store, in any order.

- `Layer`: the kinds of layer.
- `Stack β layers`: the states of a stack with these layers, the topmost first, over a base `β`.
- the `Store` instance: every stack over a store is a store.
- `Stack.onBase`: an operation on the base, as seen through the layers.
-/

namespace SoftTier

/-- A kind of layer. -/
inductive Layer where
  | metered
  | wrapped
  | session
  deriving DecidableEq

/-- The states of a stack of layers, the topmost first, over a base store. -/
def Stack (κ ν β : Type) : List Layer → Type
  | [] => β
  | .metered :: layers => Metered (Stack κ ν β layers)
  | .wrapped :: layers => Wrapped (Stack κ ν β layers)
  | .session :: layers => Session κ ν (Stack κ ν β layers)

namespace Stack

variable {κ ν β α : Type}

/-- A stack whose counters and buffers are empty. -/
def fresh (base : β) : (layers : List Layer) → Stack κ ν β layers
  | [] => base
  | .metered :: layers => Metered.mk {} (fresh base layers)
  | .wrapped :: layers => Wrapped.mk (fresh base layers)
  | .session :: layers => Session.mk {} (fresh base layers)

/-- The base store. -/
def base : (layers : List Layer) → Stack κ ν β layers → β
  | [], s => s
  | .metered :: layers, s => base layers (Metered.below s)
  | .wrapped :: layers, s => base layers (Wrapped.below s)
  | .session :: layers, s => base layers (Session.below s)

/-- The counters of the metered layers, the lowest first. -/
def tallies : (layers : List Layer) → Stack κ ν β layers → List Tally
  | [], _ => []
  | .metered :: layers, s => tallies layers (Metered.below s) ++ [Metered.tally s]
  | .wrapped :: layers, s => tallies layers (Wrapped.below s)
  | .session :: layers, s => tallies layers (Session.below s)

/-- Sets every counter back to zero. -/
def resetTallies : (layers : List Layer) → Stack κ ν β layers → Stack κ ν β layers
  | [], s => s
  | .metered :: layers, s => Metered.mk {} (resetTallies layers (Metered.below s))
  | .wrapped :: layers, s => Wrapped.mk (resetTallies layers (Wrapped.below s))
  | .session :: layers, s =>
    Session.mk (Session.buffer s) (resetTallies layers (Session.below s))

/-- Runs an operation on the base. -/
def onBase [Keeper ν] (x : Op β α) : (layers : List Layer) → Op (Stack κ ν β layers) α
  | [] => x
  | .metered :: layers => Metered.onBelow (onBase x layers)
  | .wrapped :: layers => Wrapped.onBelow (onBase x layers)
  | .session :: layers => Session.onBelow (onBase x layers)

/-- A stack over a store is a store. -/
instance store [DecidableEq κ] [Keeper ν] [Store β κ ν] :
    (layers : List Layer) → Store (Stack κ ν β layers) κ ν
  | [] => inferInstanceAs (Store β κ ν)
  | .metered :: layers =>
    letI := store layers
    inferInstanceAs (Store (Metered (Stack κ ν β layers)) κ ν)
  | .wrapped :: layers =>
    letI := store layers
    inferInstanceAs (Store (Wrapped (Stack κ ν β layers)) κ ν)
  | .session :: layers =>
    letI := store layers
    inferInstanceAs (Store (Session κ ν (Stack κ ν β layers)) κ ν)

/-! ## Sessions inside sessions -/

/-- The layers of `n` sessions inside each other. -/
abbrev nested (n : Nat) : List Layer := .replicate n .session

/-- Sessions inside each other over a base store, given their buffers, the innermost first. -/
def ofBuffers (base : β) : (buffers : List (Buffer κ ν)) → Stack κ ν β (nested buffers.length)
  | [] => base
  | b :: buffers => Session.mk b (ofBuffers base buffers)

/-- The buffers of sessions inside each other, the innermost first, and the base store. -/
def toBuffers : (n : Nat) → Stack κ ν β (nested n) → List (Buffer κ ν) × β
  | 0, s => ([], s)
  | n + 1, s =>
    let (buffers, base) := toBuffers n (Session.below s)
    (Session.buffer s :: buffers, base)

/-- Sessions inside each other have the buffers that they were given. -/
@[simp] theorem toBuffers_ofBuffers (base : β) (buffers : List (Buffer κ ν)) :
    toBuffers buffers.length (ofBuffers base buffers) = (buffers, base) := by
  induction buffers with
  | nil => rfl
  | cons b buffers ih =>
    show (b :: (toBuffers buffers.length (ofBuffers base buffers)).1,
      (toBuffers buffers.length (ofBuffers base buffers)).2) = (b :: buffers, base)
    rw [ih]

end Stack

end SoftTier
