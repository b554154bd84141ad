import SoftTier.Proofs.Blocking.Stranding
import SoftTier.Proofs.Layers.Courses
import SoftTier.Proofs.Layers.Projections

/-!
# What happens to a chain

A chain is asked for things at its top. Apart from that, each of its sessions can be ended, wherever
it stands, and its soft layer has upkeep of its own. What happens so comes one thing after the
other, whether or not it fails.

- `Op.after`: the state after many operations, each in surroundings of its own.
- `Session.Ending`: the two ends of a session.
- `Stack.onSession`, `Chain.onSession`: an operation on one of the sessions.
- `Chain.Act`: what can happen to a chain.
-/

namespace SoftTier

namespace Op

variable {σ τ α ι : Type} {heed : Event → Bool} {f : τ → σ}

/-- The state after many operations, whether or not they fail, each in surroundings of its own. -/
def after (x : ι → Op σ α) (acts : List (Ambient × ι)) (s : σ) : σ :=
  acts.foldl (fun s act => (x act.2 act.1 s).state) s

theorem Projects.after {x : ι → Op τ α} {y : ι → Op σ α}
    (h : ∀ i, (x i).Projects heed f (y i)) (acts : List (Ambient × ι)) (s : τ) :
    Op.after y acts (f s) = f (Op.after x acts s) := by
  induction acts generalizing s with
  | nil => rfl
  | cons act acts ih =>
    obtain ⟨env, i⟩ := act
    show Op.after y acts (y i env (f s)).state = f (Op.after x acts (x i env s).state)
    rw [(h i env s).state_eq, ih]

theorem follows_after {x : ι → Op σ α} {I : σ → Prop} (h : ∀ i, (x i).Follows (.keeping I))
    (acts : List (Ambient × ι)) {s : σ} (hs : I s) : I (after x acts s) := by
  induction acts generalizing s with
  | nil => exact hs
  | cons act acts ih => exact ih (h act.2 act.1 s hs)

end Op

/-! ## Sessions -/

/-- How a session ends. -/
inductive Session.Ending where
  | commit
  | rollback

/-- Ends a session. -/
def Session.Ending.perform {κ ν σ : Type} [DecidableEq κ] [Keeper ν] [Store σ κ ν] :
    Session.Ending → Op (Session κ ν σ) Unit
  | .commit => Session.commit
  | .rollback => Session.rollback

theorem Session.Ending.perform_projects {κ ν τ σ : Type} [DecidableEq κ] [Keeper ν] [Store τ κ ν]
    [Store σ κ ν] {heed : Event → Bool} {f : τ → σ} (ending : Session.Ending)
    (h : Projection heed f) :
    (ending.perform : Op (Session κ ν τ) Unit).Projects heed (Session.map f) ending.perform := by
  cases ending with
  | commit => exact Session.commit_projects h
  | rollback => exact Session.rollback_projects h

theorem Session.Ending.perform_follows {κ ν σ : Type} [DecidableEq κ] [Keeper ν] [Store σ κ ν]
    {I : σ → Prop} (ending : Session.Ending) (h : Abiding (.keeping I)) :
    (ending.perform : Op (Session κ ν σ) Unit).Follows
      (Course.comap Session.below (.keeping I)) := by
  cases ending with
  | commit => exact Session.commit_follows h
  | rollback => exact Session.rollback_follows h

namespace Stack

variable {κ ν β : Type} [DecidableEq κ] [Keeper ν] [Store β κ ν]

/-- Runs an operation on a session of the stack, counted from the topmost on. If there are not so
many, nothing is done. -/
def onSession (x : {σ : Type} → [Store σ κ ν] → Op (Session κ ν σ) Unit) :
    (layers : List Layer) → Nat → Op (Stack κ ν β layers) Unit
  | [], _ => show Op β Unit from pure ()
  | .metered :: layers, i => Metered.onBelow (onSession x layers i)
  | .wrapped :: layers, i => Wrapped.onBelow (onSession x layers i)
  | .session :: layers, 0 => (x : Op (Session κ ν (Stack κ ν β layers)) Unit)
  | .session :: layers, i + 1 => Session.onBelow (onSession x layers i)

end Stack

/-! ## Chains -/

/-- Upkeep does the same whatever stands below. -/
theorem Sharing.Upkeep.perform_projects {κ τ σ : Type} [DecidableEq κ] [Ord κ] [Std.TransOrd κ]
    {heed : Event → Bool} {f : τ → σ} (task : Sharing.Upkeep) :
    (task.perform : Op (Soft κ τ) Unit).Projects heed (Soft.map f) task.perform := by
  cases task with
  | sweep => exact (Soft.sweeping_projects _).bind fun _ => Op.projects_pure ()
  | shrink target => exact (Soft.sweeping_projects _).bind fun _ => Op.projects_pure ()
  | setCapacity n => exact (Soft.setCapacity_projects n).bind fun _ => Op.projects_pure ()
  | setPinCapacity n => exact Op.projects_update fun _ => rfl

namespace Chain

variable {κ : Type} [DecidableEq κ] [Ord κ] [Std.TransOrd κ] {base : Type → Type}
  [Store (base Value) κ Value] [Store (base Handle) κ Handle]

/-- Runs an operation on a session of the chain, counted from the topmost on. If there are not so
many, nothing is done. -/
def onSession (x : {ν σ : Type} → [Keeper ν] → [Store σ κ ν] → Op (Session κ ν σ) Unit) :
    (shape : Shape) → Nat → Op (Chain κ base shape) Unit
  | .plain layers, i => Stack.onSession x layers i
  | .soft upper lower, i =>
    if i < upper.count .session then Stack.onSession x upper i
    else Stack.onBase (Soft.onBelow (Stack.onSession x lower (i - upper.count .session))) upper

/-- Above a soft layer the sessions are found first. -/
theorem onSession_upper (x : {ν σ : Type} → [Keeper ν] → [Store σ κ ν] → Op (Session κ ν σ) Unit)
    {upper lower : List Layer} {i : Nat} (hi : i < upper.count .session) :
    (onSession x (.soft upper lower) i : Op (Chain κ base (.soft upper lower)) Unit) =
      Stack.onSession x upper i := if_pos hi

/-- When there are no more sessions above a soft layer, they are found below it. -/
theorem onSession_lower (x : {ν σ : Type} → [Keeper ν] → [Store σ κ ν] → Op (Session κ ν σ) Unit)
    {upper lower : List Layer} {i : Nat} (hi : ¬i < upper.count .session) :
    (onSession x (.soft upper lower) i : Op (Chain κ base (.soft upper lower)) Unit) =
      Stack.onBase (Soft.onBelow (Stack.onSession x lower (i - upper.count .session))) upper :=
  if_neg hi

/-- Something that happens to a chain. -/
inductive Act (κ : Type) where
  | ask (q : Request κ Value)
  | finish (i : Nat) (ending : Session.Ending)
  | upkeep (task : Sharing.Upkeep)

/-- Lets it happen. -/
def Act.perform (shape : Shape) : Act κ → Op (Chain κ base shape) (Sharing.Answer Value)
  | .ask q => q.perform
  | .finish i ending => do
    onSession ending.perform shape i
    return .done
  | .upkeep task => do
    let _ ← onSoft task.perform shape
    return .done

end Chain

end SoftTier
