import SoftTier.Proofs.Layers.Audit
import SoftTier.Proofs.Layers.Insertion

/-!
# Layers that forward are transparent, and their counters are exact

Forwarding layers can be put in at any places of a chain. Whatever then happens to the chain, be it
that calls on the base store fail, the results and failures are those that there were without them,
and the base store is asked for the same. Each metered layer counts the calls that the layer above
it makes, be these the calls of a caller, of a session that ends or of a soft layer that drains.

- `Chain.Audited`: a chain with a log above each metered layer; `Chain.Audited.meters` for the
  counters and logs.
- `Chain.Audited.perform_projects`: the logs go unnoticed.
- `Chain.Audited.perform_holds`: every counter goes with its log.
- `Chain.forwarding_layers_transparent`: the statement for every chain.
-/

namespace SoftTier

/-! ## Chains under audit -/

namespace Chain

/-- The states of a chain with a log above each of its metered layers. -/
def Audited (κ : Type) [Ord κ] (base : Type → Type) : Shape → Type
  | .plain layers => Audit κ Value (base Value) layers
  | .soft upper lower => Audit κ Value (Soft κ (Audit κ Handle (base Handle) lower)) upper

namespace Audited

variable {κ : Type} [Ord κ] {base : Type → Type}

/-- The chain without the logs. -/
def toChain : (shape : Shape) → Audited κ base shape → Chain κ base shape
  | .plain layers, a => Audit.toStack id layers a
  | .soft upper lower, a => Audit.toStack (Soft.map (Audit.toStack id lower)) upper a

/-- Starts logs over a chain. -/
def ofChain : (shape : Shape) → Chain κ base shape → Audited κ base shape
  | .plain layers, c => Audit.ofStack id layers c
  | .soft upper lower, c => Audit.ofStack (Soft.map (Audit.ofStack id lower)) upper c

/-- The counters of the metered layers with the logs of the calls on them, the lowest first. -/
def meters : (shape : Shape) → Audited κ base shape → List (Tally × Log κ)
  | .plain layers, a => Audit.meters layers a
  | .soft upper lower, a =>
    Audit.meters lower (Audit.base upper a).below ++ Audit.meters upper a

/-- All counters go with their logs. -/
def Holds : (shape : Shape) → Audited κ base shape → Prop
  | .plain layers => Audit.Holds (fun _ => True) layers
  | .soft upper lower => Audit.Holds (fun s => Audit.Holds (fun _ => True) lower s.below) upper

theorem toChain_ofChain (shape : Shape) (c : Chain κ base shape) :
    toChain shape (ofChain shape c) = c := by
  cases shape with
  | plain layers => exact Audit.toStack_ofStack (fun _ => rfl) layers c
  | soft upper lower =>
    refine Audit.toStack_ofStack (fun s => ?_) upper c
    exact congrArg (Soft.mk s.pinned s.pinCapacity s.reclaimer)
      (Audit.toStack_ofStack (fun _ => rfl) lower s.below)

/-- The counters in the audit are those of the chain. -/
theorem tallies_toChain (shape : Shape) (a : Audited κ base shape) :
    tallies shape (toChain shape a) = (meters shape a).map Prod.fst := by
  cases shape with
  | plain layers => exact Audit.tallies_toStack layers a
  | soft upper lower =>
    have hbase : Stack.base upper (toChain (.soft upper lower) a) =
        Soft.map (Audit.toStack id lower) (Audit.base upper a) := Audit.base_toStack upper a
    have hlower := Audit.tallies_toStack (f := id) lower (Audit.base upper a).below
    have hupper := Audit.tallies_toStack (f := Soft.map (Audit.toStack id lower)) upper a
    rw [meters, tallies, List.map_append, hbase]
    exact congrArg₂ (· ++ ·) hlower hupper

/-- New counters go with new logs. -/
theorem holds_ofChain {shape : Shape} {c : Chain κ base shape}
    (hnew : ∀ t ∈ tallies shape c, t = {}) : Holds shape (ofChain shape c) := by
  cases shape with
  | plain layers => exact Audit.holds_ofStack hnew trivial
  | soft upper lower =>
    obtain ⟨hlower, hupper⟩ := List.forall_mem_append.mp hnew
    exact Audit.holds_ofStack hupper (Audit.holds_ofStack hlower trivial)

/-- So the counters are exact, as long as the calls are not too many. -/
theorem Holds.exact {shape : Shape} {a : Audited κ base shape} (h : Holds shape a) :
    ∀ m ∈ meters shape a, m.2.length < UInt64.size → m.1.Exact m.2 := by
  have hagrees : ∀ m ∈ meters shape a, m.1 = .ofLog m.2 := by
    cases shape with
    | plain layers => exact h.agrees
    | soft upper lower => exact List.forall_mem_append.mpr ⟨h.base.agrees, h.agrees⟩
  intro m hm hlength
  rw [hagrees m hm]
  exact Tally.ofLog_exact hlength

variable [DecidableEq κ] [Std.TransOrd κ] [Store (base Value) κ Value]
  [Store (base Handle) κ Handle]

/-- An audited chain over base stores is a store. -/
instance store : (shape : Shape) → Store (Audited κ base shape) κ Value
  | .plain layers => inferInstanceAs (Store (Audit κ Value (base Value) layers) κ Value)
  | .soft upper lower =>
    inferInstanceAs
      (Store (Audit κ Value (Soft κ (Audit κ Handle (base Handle) lower)) upper) κ Value)

/-- Ends a session of the chain, counted from the topmost on. If there are not so many, nothing is
done. -/
def finish (ending : Session.Ending) : (shape : Shape) → Nat → Op (Audited κ base shape) Unit
  | .plain layers, i => Audit.onSession ending.perform layers i
  | .soft upper lower, i =>
    if i < upper.count .session then Audit.onSession ending.perform upper i
    else
      Audit.onBase (Soft.onBelow (Audit.onSession ending.perform lower (i - upper.count .session)))
        upper

theorem finish_upper (ending : Session.Ending) {upper lower : List Layer} {i : Nat}
    (hi : i < upper.count .session) :
    (finish ending (.soft upper lower) i : Op (Audited κ base (.soft upper lower)) Unit) =
      Audit.onSession ending.perform upper i := if_pos hi

theorem finish_lower (ending : Session.Ending) {upper lower : List Layer} {i : Nat}
    (hi : ¬i < upper.count .session) :
    (finish ending (.soft upper lower) i : Op (Audited κ base (.soft upper lower)) Unit) =
      Audit.onBase (Soft.onBelow (Audit.onSession ending.perform lower (i - upper.count .session)))
        upper := if_neg hi

/-- Has the soft layer do its upkeep, if there is one. -/
def upkeep (task : Sharing.Upkeep) : (shape : Shape) → Op (Audited κ base shape) (Option Unit)
  | .plain _ => pure none
  | .soft upper lower =>
    show Op (Audit κ Value (Soft κ (Audit κ Handle (base Handle) lower)) upper) (Option Unit) from
      do return some (← Audit.onBase task.perform upper)

/-- Lets something happen to the chain under audit. -/
def perform (shape : Shape) : Act κ → Op (Audited κ base shape) (Sharing.Answer Value)
  | .ask q => q.perform
  | .finish i ending => do
    finish ending shape i
    return .done
  | .upkeep task => do
    let _ ← upkeep task shape
    return .done

section Projections

variable {heed : Event → Bool}

omit [Store (base Value) κ Value] in
/-- Seen from above a soft layer, the logs below it go unnoticed. -/
theorem projection_soft (lower : List Layer) :
    Projection heed (Soft.map (Audit.toStack id lower) :
      Soft κ (Audit κ Handle (base Handle) lower) → Soft κ (Stack κ Handle (base Handle) lower)) :=
  Soft.projection_map (Audit.projection_toStack Projection.refl lower)

theorem projection_toChain (shape : Shape) :
    Projection heed (toChain shape : Audited κ base shape → Chain κ base shape) := by
  cases shape with
  | plain layers => exact Audit.projection_toStack Projection.refl layers
  | soft upper lower => exact Audit.projection_toStack (projection_soft lower) upper

theorem finish_projects (ending : Session.Ending) (shape : Shape) (i : Nat) :
    (finish ending shape i : Op (Audited κ base shape) Unit).Projects heed (toChain shape)
      (onSession ending.perform shape i) := by
  cases shape with
  | plain layers =>
    exact Audit.onSession_projects ending.perform_projects Projection.refl layers i
  | soft upper lower =>
    by_cases hi : i < upper.count .session
    · rw [onSession_upper _ hi, finish_upper ending hi]
      exact Audit.onSession_projects ending.perform_projects (projection_soft lower) upper i
    · rw [onSession_lower _ hi, finish_lower ending hi]
      refine Audit.onBase_projects (Soft.onBelow_projects ?_) upper
      exact Audit.onSession_projects ending.perform_projects Projection.refl lower _

/-- Nothing that happens to a chain is told by whether there is an audit. -/
theorem perform_projects (heed : Event → Bool) (shape : Shape) (act : Act κ) :
    (perform shape act : Op (Audited κ base shape) (Sharing.Answer Value)).Projects heed
      (toChain shape) (act.perform shape) := by
  cases act with
  | ask q => exact (projection_toChain shape).perform q
  | finish i ending => exact (finish_projects ending shape i).bind fun _ => Op.projects_pure _
  | upkeep task =>
    refine Op.Projects.bind ?_ fun _ => Op.projects_pure _
    cases shape with
    | plain layers => exact Op.projects_pure none
    | soft upper lower =>
      refine Op.Projects.bind ?_ fun a => Op.projects_pure (some a)
      exact Audit.onBase_projects task.perform_projects upper

end Projections

/-- Whatever happens, all counters go with their logs. -/
theorem perform_holds (shape : Shape) (act : Act κ) :
    (perform shape act : Op (Audited κ base shape) (Sharing.Answer Value)).Follows
      (.keeping (Holds shape)) := by
  -- nothing has to be kept of a base store
  have htrivial : ∀ {σ ν : Type} [Store σ κ ν], Abiding (.keeping fun _ : σ => True) := by
    refine ⟨?_, ?_, ?_, ?_, ?_, ?_⟩ <;> intros <;> exact fun _ _ h => h
  cases shape with
  | plain layers =>
    have hholds := Audit.abiding_holds (κ := κ) (ν := Value) (β := base Value) htrivial layers
    cases act with
    | ask q => exact hholds.perform q
    | finish i ending =>
      exact (Audit.onSession_holds ending.perform_follows htrivial layers i).bind fun _ =>
        Op.follows_pure _
    | upkeep task => exact Op.follows_pure _
  | soft upper lower =>
    -- for the layers above the soft one, the counters below it are what is kept of the base
    have hlower := Audit.abiding_holds (κ := κ) (ν := Handle) (β := base Handle) htrivial lower
    have hsoft := Soft.abiding hlower
    cases act with
    | ask q => exact (Audit.abiding_holds hsoft upper).perform q
    | finish i ending =>
      refine Op.Follows.bind ?_ fun _ => Op.follows_pure _
      by_cases hi : i < upper.count .session
      · rw [finish_upper ending hi]
        exact Audit.onSession_holds ending.perform_follows hsoft upper i
      · rw [finish_lower ending hi]
        have hsession : (Audit.onSession ending.perform lower (i - upper.count .session) :
            Op (Audit κ Handle (base Handle) lower) Unit).Follows
              (.keeping (Audit.Holds (fun _ => True) lower)) :=
          Audit.onSession_holds ending.perform_follows htrivial lower _
        exact Audit.onBase_holds (Soft.lifts.follows hsession) upper
    | upkeep task =>
      refine Op.Follows.bind ?_ fun _ => Op.follows_pure _
      refine Op.Follows.bind ?_ fun a => Op.follows_pure (some a)
      exact Audit.onBase_holds (task.perform_follows (T := .keeping _)) upper

end Audited

/-! ## Transparency -/

section Transparency

variable {κ : Type} [Ord κ] {base : Type → Type} {shape shape' : Shape}

/-- What the base store of a chain has heard: of values, or of handles below a soft layer. -/
def heard : (shape : Shape) → Chain κ (fun ν => Recorded κ ν (base ν)) shape →
    List (Heard κ Value) × List (Heard κ Handle)
  | .plain layers, c => ((Stack.base layers c).heard, [])
  | .soft upper lower, c => ([], (Stack.base lower (Stack.base upper c).below).heard)

/-- Layers that are put in leave the record of the base store alone. -/
theorem heard_without (e : Insertion shape shape')
    (c : Chain κ (fun ν => Recorded κ ν (base ν)) shape') :
    heard shape (without e c) = heard shape' c := by
  cases e with
  | plain e => exact congrArg (fun b => (Recorded.heard b, [])) (Stack.base_without e c)
  | @soft upper upper' lower lower' above below =>
    have hupper : Stack.base upper (without (.soft above below) c) =
        Soft.map (Stack.without id below) (Stack.base upper' c) := Stack.base_without above c
    have hlower : Stack.base lower (Stack.without id below (Stack.base upper' c).below) =
        Stack.base lower' (Stack.base upper' c).below := Stack.base_without below _
    rw [heard, hupper]
    exact congrArg (fun b => ([], Recorded.heard b)) hlower

variable [DecidableEq κ] [Std.TransOrd κ] [Store (base Value) κ Value]
  [Store (base Handle) κ Handle]

/-- **Forwarding layers are transparent, and their counters are exact.** Put any number of counting
and wrapping layers into a chain, at any places, over base stores of any kind, and let anything
happen to it: requests, ends of its sessions, upkeep of its soft layer, each in surroundings of its
own, and whatever calls fail on the way.

Then whatever happens next has the result or the failure that it has without the layers, and
reports the same, but for hit ratios. The chain offers a lock if it does so without them, and its
base store has heard the same.

Put a log above each metered layer, too. That makes no difference either, and the logs tell which
calls each of these layers has been asked for. If all counters were new at first, each of them is
the number of such calls, as long as there were less than 2^64. -/
theorem forwarding_layers_transparent (e : Insertion shape shape')
    (c : Chain κ (fun ν => Recorded κ ν (base ν)) shape') (acts : List (Ambient × Act κ)) :
    let full := Op.after (Act.perform shape') acts c
    let bare := Op.after (Act.perform shape) acts (without e c)
    let audited := Op.after (Audited.perform shape') acts (Audited.ofChain shape' c)
    (∀ env act,
      let o := Act.perform shape' act env full
      let o' := Act.perform shape act env bare
      o'.result = o.result ∧
        o'.events.filter Event.unmetered = o.events.filter Event.unmetered) ∧
    Store.hasLock bare = Store.hasLock full ∧
    heard shape bare = heard shape' full ∧
    Audited.toChain shape' audited = full ∧
    (Audited.meters shape' audited).map Prod.fst = tallies shape' full ∧
    ((∀ t ∈ tallies shape' c, t = {}) →
      ∀ m ∈ Audited.meters shape' audited, m.2.length < UInt64.size → m.1.Exact m.2) := by
  intro full bare audited
  -- the shorter chain and the chain under audit are kept in step with the chain itself
  have hbare : bare = without e full := Op.Projects.after (Act.perform_without e) acts c
  have haudited : Audited.toChain shape' audited = full := by
    have hafter := Op.Projects.after (Audited.perform_projects (fun _ => true) shape') acts
      (Audited.ofChain shape' c)
    rw [Audited.toChain_ofChain] at hafter
    exact hafter.symm
  refine ⟨fun env act => ?_, ?_, ?_, haudited, ?_, fun hnew => ?_⟩
  · rw [hbare]
    obtain ⟨hresult, -, hevents⟩ := act.perform_without e env full
    exact ⟨hresult, hevents⟩
  · rw [hbare]
    exact (projection_without e).hasLock_eq full
  · rw [hbare]
    exact heard_without e full
  · rw [← haudited]
    exact (Audited.tallies_toChain shape' audited).symm
  · exact (Op.follows_after (Audited.perform_holds shape') acts (Audited.holds_ofChain hnew)).exact

/-- Counting layers are put in above and below a soft layer. A value is reclaimed and drained, a key
is looked up whose miss is a dead handle below, and a lookup fails. Above the soft layer there were
two writes and a lookup that found nothing; below it the handles were written, found and removed. -/
theorem counters_around_soft :
    let faults : Faults Nat := fun n _ => if n = 6 then some (.backend "down") else none
    let shape : Shape := .soft [] []
    let shape' : Shape := .soft [.metered] [.wrapped, .metered]
    let e : Insertion shape shape' := .soft (.metered .done) (.wrapped (.metered .done))
    ∃ layer, Soft.ofSettings ⟨1, 8⟩
        (Stack.fresh ⟨.named "users" false false faults, []⟩ [.wrapped, .metered]) = .ok layer ∧
      let c : Chain Nat (fun ν => Recorded Nat ν (Probe Nat ν)) shape' :=
        Stack.fresh layer [.metered]
      let acts : List (Ambient × Act Nat) :=
        [.ask (.write 1 ⟨0, "a"⟩), .ask (.writeMiss 2), .upkeep (.shrink 0), .ask .size,
          .ask (.read 2), .ask (.read 3)].map (.alone, ·)
      let full := Op.after (Act.perform shape') acts c
      let bare := Op.after (Act.perform shape) acts (without e c)
      let audited := Op.after (Audited.perform shape') acts (Audited.ofChain shape' c)
      (∀ t ∈ tallies shape' c, t = {}) ∧ heard shape bare = heard shape' full ∧
        tallies shape' full = [⟨1, 0, 2, 2⟩, ⟨0, 1, 2, 0⟩] ∧
        (Audited.meters shape' audited).map (·.2.map (·.1)) =
          [[.read 3, .erase 2, .read 2, .size, .erase 1, .write 2, .write 1],
            [.read 3, .read 2, .size, .writeMiss 2, .write 1]] ∧
        ∀ m ∈ Audited.meters shape' audited, m.1.Exact m.2 := by
  intro faults shape shape' e
  refine ⟨_, rfl, ?_⟩
  intro c acts full bare audited
  have hnew : ∀ t ∈ tallies shape' c, t = {} := by decide
  obtain ⟨-, -, hheard, -, -, hexact⟩ := forwarding_layers_transparent e c acts
  have hshort : ∀ m ∈ Audited.meters shape' audited, m.2.length < UInt64.size := by decide
  exact ⟨hnew, hheard, by decide, by decide, fun m hm => hexact hnew m hm (hshort m hm)⟩

end Transparency

end Chain

end SoftTier
