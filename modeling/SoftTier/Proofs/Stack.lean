import SoftTier.Proofs.Op
import SoftTier.Stack

/-!
# Requests through forwarding layers

Layers that forward hand every request to the store below and change nothing but their own
counters. So what a request does to a stack of them is told from what it does to the base, however
many there are.

- `Stack.change`: a stack with another base, and its counters changed.
- `Stack.read_yields`, `Stack.send_yields`, `Stack.size_yields`, `Stack.onBase_yields`: one
  statement for each request.
-/

namespace SoftTier

namespace Metered

variable {σ α : Type} {env : Ambient} {s : Metered σ} {x : Op σ α} {a : α} {t : σ}

theorem onBelow_yields (hx : x.Yields env s.below a t) :
    (onBelow x).Yields env s a { s with below := t } := by
  obtain ⟨hresult, rfl⟩ := hx
  exact ⟨hresult, rfl⟩

end Metered

namespace Wrapped

variable {σ α : Type} {env : Ambient} {s : Wrapped σ} {x : Op σ α} {a : α} {t : σ}

theorem onBelow_yields (hx : x.Yields env s.below a t) : (onBelow x).Yields env s a ⟨t⟩ := by
  obtain ⟨hresult, rfl⟩ := hx
  exact ⟨hresult, rfl⟩

end Wrapped

namespace Stack

variable {κ ν β α : Type} {layers : List Layer} {env : Ambient}

/-- The stack over another base, with its counters changed. -/
def change (f : Tally → Tally) (b : β) :
    (layers : List Layer) → Stack κ ν β layers → Stack κ ν β layers
  | [], _ => b
  | .metered :: layers, s => Metered.mk (f (Metered.tally s)) (change f b layers (Metered.below s))
  | .wrapped :: layers, s => Wrapped.mk (change f b layers (Wrapped.below s))
  | .session :: layers, s => Session.mk (Session.buffer s) (change f b layers (Session.below s))

@[simp] theorem base_change (f : Tally → Tally) (b : β) (layers : List Layer)
    (s : Stack κ ν β layers) : base layers (change f b layers s) = b := by
  induction layers with
  | nil => rfl
  | cons layer layers ih => cases layer <;> exact ih _

@[simp] theorem tallies_change (f : Tally → Tally) (b : β) (layers : List Layer)
    (s : Stack κ ν β layers) :
    tallies layers (change f b layers s) = (tallies layers s).map f := by
  induction layers with
  | nil => rfl
  | cons layer layers ih =>
    cases layer with
    | metered =>
      have hmap : (tallies layers (Metered.below s)).map f ++ [f (Metered.tally s)] =
          (tallies layers (Metered.below s) ++ [Metered.tally s]).map f := by
        rw [List.map_append, List.map_singleton]
      exact (congrArg (· ++ [f (Metered.tally s)]) (ih (Metered.below s))).trans hmap
    | wrapped => exact ih _
    | session => exact ih _

@[simp] theorem base_fresh (b : β) (layers : List Layer) :
    base layers (fresh b layers : Stack κ ν β layers) = b := by
  induction layers with
  | nil => rfl
  | cons layer layers ih => cases layer <;> exact ih

/-- Every counter of a new stack is zero. -/
theorem tallies_fresh (b : β) {layers : List Layer} :
    ∀ t ∈ tallies layers (fresh b layers : Stack κ ν β layers), t = {} := by
  induction layers with
  | nil => exact fun _ ht => absurd ht List.not_mem_nil
  | cons layer layers ih =>
    cases layer with
    | metered =>
      intro t ht
      exact (List.mem_append.mp ht).elim (ih t) List.mem_singleton.mp
    | wrapped => exact ih
    | session => exact ih

/-- There is a counter for every metered layer. -/
theorem length_tallies (s : Stack κ ν β layers) :
    (tallies layers s).length = layers.count .metered := by
  induction layers with
  | nil => rfl
  | cons layer layers ih =>
    cases layer with
    | metered =>
      show (tallies layers _ ++ [_]).length = _
      rw [List.length_append, ih, List.count_cons_self]
      rfl
    | wrapped => exact (ih _).trans (List.count_cons_of_ne (by decide)).symm
    | session => exact (ih _).trans (List.count_cons_of_ne (by decide)).symm

section Requests

variable [DecidableEq κ] [Keeper ν] [Store β κ ν] {s : Stack κ ν β layers} {b : β}

/-- Layers show the name of the base. -/
theorem id_eq (s : Stack κ ν β layers) : Store.id s = Store.id (base layers s) := by
  induction layers with
  | nil => rfl
  | cons layer layers ih => cases layer <;> exact ih _

theorem id_change (f : Tally → Tally) (b : β) (s : Stack κ ν β layers) :
    Store.id (change f b layers s) = Store.id b := by
  rw [id_eq, base_change]

theorem read_yields (hl : .session ∉ layers) {k : κ} {found : Option ν}
    (hx : (Store.read k : Op β (Option ν)).Yields env (base layers s) found b) :
    (Store.read k : Op (Stack κ ν β layers) (Option ν)).Yields env s found
      (change (·.addLookup found.isSome) b layers s) := by
  induction layers with
  | nil => exact hx
  | cons layer layers ih =>
    have hrest : .session ∉ layers := fun h => hl (List.mem_cons_of_mem _ h)
    cases layer with
    | metered =>
      refine (Metered.onBelow_yields (ih hrest hx)).bind ?_
      exact (Op.yields_update _).bind
        ((Op.yields_read _).bind ((Op.yields_emit _).bind (Op.yields_pure _)))
    | wrapped => exact Wrapped.onBelow_yields (ih hrest hx)
    | session => exact absurd List.mem_cons_self hl

theorem send_yields (hl : .session ∉ layers) {e : κ × Option ν}
    (hx : (Buffer.send e : Op β Unit).Yields env (base layers s) () b) :
    (Buffer.send e : Op (Stack κ ν β layers) Unit).Yields env s ()
      (change (·.addWrites 1) b layers s) := by
  induction layers with
  | nil => exact hx
  | cons layer layers ih =>
    have hrest : .session ∉ layers := fun h => hl (List.mem_cons_of_mem _ h)
    obtain ⟨k, entry⟩ := e
    cases layer with
    | metered =>
      have hcount : (Metered.count (·.addWrites 1)).Yields env s ()
          ⟨(Metered.tally s).addWrites 1, Metered.below s⟩ := Op.yields_update _
      have hbelow := Metered.onBelow_yields (s := ⟨(Metered.tally s).addWrites 1, Metered.below s⟩)
        (ih hrest hx)
      cases entry with
      | some a => exact hcount.bind (f := fun _ => Metered.onBelow (Buffer.send (k, some a))) hbelow
      | none => exact hcount.bind (f := fun _ => Metered.onBelow (Buffer.send (k, none))) hbelow
    | wrapped =>
      cases entry with
      | some a => exact Wrapped.onBelow_yields (ih hrest hx)
      | none => exact Wrapped.onBelow_yields (ih hrest hx)
    | session => exact absurd List.mem_cons_self hl

theorem size_yields (hl : .session ∉ layers) {n : Nat}
    (hx : (Store.size : Op β Nat).Yields env (base layers s) n b) :
    (Store.size : Op (Stack κ ν β layers) Nat).Yields env s n (change id b layers s) := by
  induction layers with
  | nil => exact hx
  | cons layer layers ih =>
    have hrest : .session ∉ layers := fun h => hl (List.mem_cons_of_mem _ h)
    cases layer with
    | metered => exact Metered.onBelow_yields (ih hrest hx)
    | wrapped => exact Wrapped.onBelow_yields (ih hrest hx)
    | session => exact absurd List.mem_cons_self hl

end Requests

theorem onBase_yields [Keeper ν] (hl : .session ∉ layers) {s : Stack κ ν β layers} {x : Op β α}
    {a : α} {b : β} (hx : x.Yields env (base layers s) a b) :
    (onBase x layers : Op (Stack κ ν β layers) α).Yields env s a (change id b layers s) := by
  induction layers with
  | nil => exact hx
  | cons layer layers ih =>
    have hrest : .session ∉ layers := fun h => hl (List.mem_cons_of_mem _ h)
    cases layer with
    | metered => exact Metered.onBelow_yields (ih hrest hx)
    | wrapped => exact Wrapped.onBelow_yields (ih hrest hx)
    | session => exact absurd List.mem_cons_self hl

end Stack

end SoftTier
