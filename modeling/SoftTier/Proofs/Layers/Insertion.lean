import SoftTier.Proofs.Layers.Acts
import SoftTier.Proofs.Recorded

/-!
# Layers put in

Layers that forward can be put in at any places of a chain. Taking them out again is a map of
states, and it shows the longer chain as the shorter one: whatever happens, the results and failures
are the same, and the layers that both have come to the same states, as does the base store.

- `Layer.Insertion`, `Chain.Insertion`: which layers are put in, and where.
- `Stack.without`, `Chain.without`: the states with these layers taken out.
- `Stack.projection_without`, `Chain.projection_without`: no request tells the difference.
- `Chain.Act.perform_without`: nor does anything else that happens.
-/

namespace SoftTier

/-- Whether an event is reported by another layer than a metered one. -/
def Event.unmetered : Event → Bool
  | .lookedUp .. => false
  | _ => true

/-- The ways to put forwarding layers into a list of layers. -/
inductive Layer.Insertion : List Layer → List Layer → Type where
  | done : Insertion [] []
  | keep {layers layers' : List Layer} (layer : Layer) (e : Insertion layers layers') :
    Insertion (layer :: layers) (layer :: layers')
  | metered {layers layers' : List Layer} (e : Insertion layers layers') :
    Insertion layers (.metered :: layers')
  | wrapped {layers layers' : List Layer} (e : Insertion layers layers') :
    Insertion layers (.wrapped :: layers')

/-- No session is put in. -/
theorem Layer.Insertion.count_session {layers layers' : List Layer}
    (e : Insertion layers layers') : layers'.count .session = layers.count .session := by
  induction e with
  | done => rfl
  | keep layer e ih => rw [List.count_cons, List.count_cons, ih]
  | metered e ih => rw [List.count_cons_of_ne (by decide), ih]
  | wrapped e ih => rw [List.count_cons_of_ne (by decide), ih]

/-! ## Stacks -/

namespace Stack

variable {κ ν β γ α : Type} {layers layers' : List Layer} {f : β → γ}

/-- The stack without the layers that were put in, over the base that `f` shows. -/
def without (f : β → γ) : {layers layers' : List Layer} → Layer.Insertion layers layers' →
    Stack κ ν β layers' → Stack κ ν γ layers
  | _, _, .done, s => f s
  | _, _, .keep .metered e, s => Metered.map (without f e) s
  | _, _, .keep .wrapped e, s => Wrapped.map (without f e) s
  | _, _, .keep .session e, s => Session.map (without f e) s
  | _, _, .metered e, s => without f e (Metered.below s)
  | _, _, .wrapped e, s => without f e (Wrapped.below s)

/-- The base store is kept. -/
theorem base_without (e : Layer.Insertion layers layers') (s : Stack κ ν β layers') :
    base layers (without f e s) = f (base layers' s) := by
  induction e with
  | done => rfl
  | keep layer e ih => cases layer <;> exact ih _
  | metered e ih => exact ih _
  | wrapped e ih => exact ih _

variable [Keeper ν]

theorem onBase_without {x : Op β α} {y : Op γ α} (hx : x.Projects Event.unmetered f y)
    (e : Layer.Insertion layers layers') :
    (onBase x layers' : Op (Stack κ ν β layers') α).Projects Event.unmetered (without f e)
      (onBase y layers) := by
  induction e with
  | done => exact hx
  | keep layer e ih =>
    cases layer with
    | metered => exact Metered.onBelow_projects ih
    | wrapped => exact Wrapped.onBelow_projects ih
    | session => exact Session.onBelow_projects ih
  | metered e ih => exact Metered.onBelow_projects_below ih
  | wrapped e ih => exact Wrapped.onBelow_projects_below ih

variable [DecidableEq κ] [Store β κ ν] [Store γ κ ν]

/-- No request tells whether the layers are there. -/
theorem projection_without (h : Projection Event.unmetered f)
    (e : Layer.Insertion layers layers') :
    Projection Event.unmetered (without f e : Stack κ ν β layers' → Stack κ ν γ layers) := by
  induction e with
  | done => exact h
  | keep layer e ih =>
    cases layer with
    | metered => exact Metered.projection_map ih
    | wrapped => exact Wrapped.projection_map ih
    | session => exact Session.projection_map ih
  | metered e ih => exact ih.comp (Metered.projection_below fun _ _ => rfl)
  | wrapped e ih => exact ih.comp Wrapped.projection_below

theorem onSession_without {x : {σ : Type} → [Store σ κ ν] → Op (Session κ ν σ) Unit}
    (hx : ∀ {τ σ : Type} [Store τ κ ν] [Store σ κ ν] {f : τ → σ}, Projection Event.unmetered f →
      (x : Op (Session κ ν τ) Unit).Projects Event.unmetered (Session.map f) x)
    (h : Projection Event.unmetered f) (e : Layer.Insertion layers layers') (i : Nat) :
    (onSession x layers' i : Op (Stack κ ν β layers') Unit).Projects Event.unmetered (without f e)
      (onSession x layers i) := by
  induction e generalizing i with
  | done => exact Op.projects_pure ()
  | keep layer e ih =>
    cases layer with
    | metered => exact Metered.onBelow_projects (ih i)
    | wrapped => exact Wrapped.onBelow_projects (ih i)
    | session =>
      -- either this session is meant, and what it stands on is shown, or one further down
      cases i with
      | zero => exact hx (projection_without h e)
      | succ i => exact Session.onBelow_projects (ih i)
  -- no session is put in, so the count goes on
  | metered e ih => exact Metered.onBelow_projects_below (ih i)
  | wrapped e ih => exact Wrapped.onBelow_projects_below (ih i)

end Stack

/-! ## Chains -/

namespace Chain

/-- The ways to put forwarding layers into a chain. -/
inductive Insertion : Shape → Shape → Type where
  | plain {layers layers' : List Layer} (e : Layer.Insertion layers layers') :
    Insertion (.plain layers) (.plain layers')
  | soft {upper upper' lower lower' : List Layer} (above : Layer.Insertion upper upper')
    (below : Layer.Insertion lower lower') : Insertion (.soft upper lower) (.soft upper' lower')

variable {κ : Type} [Ord κ] {base : Type → Type} {shape shape' : Shape}

/-- The chain without the layers that were put in. -/
def without : {shape shape' : Shape} → Insertion shape shape' → Chain κ base shape' →
    Chain κ base shape
  | _, _, .plain e, c => Stack.without id e c
  | _, _, .soft above below, c => Stack.without (Soft.map (Stack.without id below)) above c

variable [DecidableEq κ] [Std.TransOrd κ] [Store (base Value) κ Value]
  [Store (base Handle) κ Handle]

/-- No request tells whether the layers are there. -/
theorem projection_without (e : Insertion shape shape') :
    Projection Event.unmetered (without e : Chain κ base shape' → Chain κ base shape) := by
  cases e with
  | plain e => exact Stack.projection_without Projection.refl e
  | soft above below =>
    have hbelow := Stack.projection_without (κ := κ) (β := base Handle) Projection.refl below
    exact Stack.projection_without (Soft.projection_map hbelow) above

theorem onSession_without {x : {ν σ : Type} → [Keeper ν] → [Store σ κ ν] → Op (Session κ ν σ) Unit}
    (hx : ∀ {ν τ σ : Type} [Keeper ν] [Store τ κ ν] [Store σ κ ν] {f : τ → σ},
      Projection Event.unmetered f →
      (x : Op (Session κ ν τ) Unit).Projects Event.unmetered (Session.map f) x)
    (e : Insertion shape shape') (i : Nat) :
    (onSession x shape' i : Op (Chain κ base shape') Unit).Projects Event.unmetered (without e)
      (onSession x shape i) := by
  cases e with
  | plain e => exact Stack.onSession_without hx Projection.refl e i
  | @soft upper _ _ _ above below =>
    have hcount := above.count_session
    by_cases hi : i < upper.count .session
    · rw [onSession_upper x hi, onSession_upper x (hcount ▸ hi)]
      have hbelow := Stack.projection_without (κ := κ) (β := base Handle) Projection.refl below
      exact Stack.onSession_without hx (Soft.projection_map hbelow) above i
    · rw [onSession_lower x hi, onSession_lower x (hcount ▸ hi), hcount]
      refine Stack.onBase_without (Soft.onBelow_projects ?_) above
      exact Stack.onSession_without hx Projection.refl below _

/-- Nothing that happens to a chain is told by whether the layers are there. -/
theorem Act.perform_without (e : Insertion shape shape') (act : Act κ) :
    (act.perform shape' : Op (Chain κ base shape') (Sharing.Answer Value)).Projects Event.unmetered
      (without e) (act.perform shape) := by
  cases act with
  | ask q => exact (projection_without e).perform q
  | finish i ending =>
    refine Op.Projects.bind ?_ fun _ => Op.projects_pure _
    exact onSession_without (x := ending.perform) ending.perform_projects e i
  | upkeep task =>
    refine Op.Projects.bind ?_ fun _ => Op.projects_pure _
    cases e with
    | plain e => exact Op.projects_pure none
    | soft above below =>
      refine Op.Projects.bind ?_ fun a => Op.projects_pure (some a)
      exact Stack.onBase_without task.perform_projects above

end Chain

end SoftTier
