import SoftTier.Store.Probe
import SoftTier.Proofs.Layers.Courses
import SoftTier.Proofs.Layers.Projections

/-!
# Failures come from the base store

A request to a chain of layers can lead to many calls on the base store. The first of them that
fails is the last that is made, and the request fails as it did; no layer fails by itself, none
hides a failure and none changes it. A lookup that fails leaves no trace in the sessions of the
chain, as a session notes a key only when it is told that nothing was found.

- `Log.Relays`: how the calls made and a failure go together.
- `Monitored.relaying`: the course that a store with a log keeps to.
- `Discreet`: what is left alone by removals, and by lookups unless they find nothing.
- `Stack.discreet`: the buffers of all sessions are.
- `Chain.failures_relayed`: all of this, for every chain.
-/

namespace SoftTier

/-! ## Calls and failures -/

namespace Log

variable {κ : Type} {calls calls' : Log κ} {failure : Option Failure}

/-- None of the calls failed. -/
def Served (calls : Log κ) : Prop := ∀ call ∈ calls, ∃ gave, call.2 = .ok gave

/-- The calls were served, and if there is a failure then it is that of one call more, the last. -/
def Relays (calls : Log κ) : Option Failure → Prop
  | none => Served calls
  | some e => ∃ call earlier, calls = (call, .error e) :: earlier ∧ Served earlier

theorem Served.append (h : Served calls) (h' : Served calls') : Served (calls' ++ calls) := by
  intro call hcall
  rcases List.mem_append.mp hcall with hcall | hcall
  · exact h' call hcall
  · exact h call hcall

/-- Calls that were served may come before. -/
theorem Relays.append (h : Served calls) (h' : Relays calls' failure) :
    Relays (calls' ++ calls) failure := by
  cases failure with
  | none => exact h.append h'
  | some e =>
    obtain ⟨call, earlier, rfl, hearlier⟩ := h'
    exact ⟨call, earlier ++ calls, rfl, h.append hearlier⟩

/-- The failure is the one among the calls. -/
theorem Relays.eq_some_iff (h : Relays calls failure) {e : Failure} :
    failure = some e ↔ ∃ call, (call, .error e) ∈ calls := by
  have hserved : ∀ {earlier : Log κ} {call : Call κ}, Served earlier →
      (call, .error e) ∉ earlier := by
    intro earlier call hearlier hmem
    obtain ⟨gave, hgave⟩ := hearlier _ hmem
    exact absurd hgave nofun
  cases failure with
  | none =>
    constructor
    · exact nofun
    · rintro ⟨call, hmem⟩
      exact absurd hmem (hserved h)
  | some e' =>
    obtain ⟨last, earlier, rfl, hearlier⟩ := h
    constructor
    · rintro heq
      cases heq
      exact ⟨last, List.mem_cons_self⟩
    · rintro ⟨call, hmem⟩
      rcases List.mem_cons.mp hmem with heq | hmem
      · cases heq
        rfl
      · exact absurd hmem (hserved hearlier)

/-- Nothing is asked after a failure. -/
theorem Relays.tail (h : Relays calls failure) : Served calls.tail := by
  cases failure with
  | none => exact fun call hcall => h call (List.mem_of_mem_tail hcall)
  | some e =>
    obtain ⟨call, earlier, rfl, hearlier⟩ := h
    exact hearlier

end Log

namespace Monitored

variable {σ κ ν α : Type}

/-- What is logged goes with the failure. -/
def relaying : Course (Monitored κ σ) where
  leads s failure s' := ∃ calls, s'.log = calls ++ s.log ∧ Log.Relays calls failure
  refl _ := ⟨[], rfl, fun _ hcall => absurd hcall List.not_mem_nil⟩
  trans := by
    rintro s s' s'' failure ⟨calls, hlog, hserved⟩ ⟨calls', hlog', hrelays⟩
    refine ⟨calls' ++ calls, ?_, hrelays.append hserved⟩
    rw [hlog', hlog, List.append_assoc]

/-- A call is logged, and it is the one to fail if it does. -/
theorem watch_relays (call : Call κ) (gave : α → Bool) (x : Op σ α) :
    (watch call gave x).Follows (relaying : Course (Monitored κ σ)) := by
  intro env s
  show ∃ calls, (call, (x env s.below).result.map gave) :: s.log = calls ++ s.log ∧
    Log.Relays calls (Op.failure? (x env s.below).result)
  refine ⟨[(call, (x env s.below).result.map gave)], rfl, ?_⟩
  cases (x env s.below).result with
  | ok a =>
    intro answered hmem
    rw [List.mem_singleton.mp hmem]
    exact ⟨gave a, rfl⟩
  | error e => exact ⟨call, [], rfl, fun _ hmem => absurd hmem List.not_mem_nil⟩

theorem abiding_relaying [Store σ κ ν] : Abiding (relaying : Course (Monitored κ σ)) where
  size := watch_relays _ _ _
  write _ _ := watch_relays _ _ _
  writeMiss _ := watch_relays _ _ _
  read _ := watch_relays _ _ _
  erase _ := watch_relays _ _ _
  clear := watch_relays _ _ _

end Monitored

/-! ## What lookups leave alone -/

namespace Op

variable {σ τ α β γ : Type} {view : σ → γ}

/-- The operation leaves a part of the state alone, unless it answers that nothing was found. -/
def Discreet (view : σ → γ) (x : Op σ (Option α)) : Prop :=
  ∀ env s, x.Leaves env s fun r s' => r = .ok none ∨ view s' = view s

theorem Discreet.bind {x : Op σ (Option α)} {f : Option α → Op σ (Option β)}
    (hx : x.Discreet view) (hnone : ∀ env s, (f none).Leaves env s fun r _ => r = .ok none)
    (hsome : ∀ a, (f (some a)).Follows (.fixing view)) : (x >>= f).Discreet view := by
  intro env s
  refine (hx env s).bind ?_ ?_
  · intro found s' hs'
    cases found with
    | none => exact (hnone env s').imp fun _ _ hr => .inl hr
    | some a =>
      have hview := hs'.resolve_left nofun
      refine (hsome a env s').imp fun r s'' hs'' => .inr ?_
      exact Eq.trans hs'' hview
  · intro e s' hs'
    exact .inr (hs'.resolve_left nofun)

theorem Lifts.discreet {below : τ → σ} {lift : {α : Type} → Op σ α → Op τ α}
    (h : Lifts below lift) {x : Op σ (Option α)} (hx : x.Discreet view) :
    (lift x).Discreet fun t => view (below t) := fun env t =>
  h.leaves (Q := fun s r s' => r = .ok none ∨ view s' = view s) hx env t

end Op

/-- A part of a store that removals leave alone, and lookups too unless they answer that nothing was
found. -/
structure Discreet {σ κ ν γ : Type} [Store σ κ ν] (view : σ → γ) : Prop where
  read : ∀ k, (Store.read k : Op σ (Option ν)).Discreet view
  erase : ∀ k, (Store.erase k : Op σ (Option ν)).Follows (.fixing view)

section Forwarding

variable {σ κ ν γ : Type} [Store σ κ ν] {view : σ → γ}

theorem Metered.discreet (h : Discreet view) : Discreet fun s : Metered σ => view s.below where
  read k := by
    refine (Metered.lifts.discreet (h.read k)).bind (fun _ _ => rfl) fun a => ?_
    refine (Op.follows_update fun _ => rfl).bind fun _ => (Op.follows_read _).bind fun _ => ?_
    exact (Op.follows_emit _).bind fun _ => Op.follows_pure _
  erase k := (Op.follows_update fun _ => rfl).bind fun _ => Metered.lifts.follows (h.erase k)

theorem Wrapped.discreet (h : Discreet view) : Discreet fun s : Wrapped σ => view s.below where
  read k := Wrapped.lifts.discreet (h.read k)
  erase k := Wrapped.lifts.follows (h.erase k)

end Forwarding

/-- A session notes a key only when it is told that there is nothing. -/
theorem Session.discreet {σ κ ν γ : Type} [DecidableEq κ] [Keeper ν] [Store σ κ ν] {view : σ → γ}
    (h : Discreet view) : Discreet fun s : Session κ ν σ => (s.buffer, view s.below) where
  read k := by
    have hbelow : (onBelow (Store.read k) : Op (Session κ ν σ) (Option ν)).Discreet
        fun s => (s.buffer, view s.below) := by
      intro env s
      exact (h.read k (env.also s.buffer) s.below).imp_right (congrArg (Prod.mk s.buffer))
    refine hbelow.bind (fun env s => ?_) fun a => ?_
    · exact congrArg Except.ok (ite_self none)
    · exact (Op.follows_read _).bind fun _ => Op.follows_pure _
  erase _ := Op.follows_pure _

/-- A soft layer goes on after a lookup only if a handle was found, and then only removes. -/
theorem Soft.discreet {κ σ γ : Type} [DecidableEq κ] [Ord κ] [Std.TransOrd κ] [Store σ κ Handle]
    {view : σ → γ} (h : Discreet view) : Discreet fun s : Soft κ σ => view s.below where
  read k := by
    refine (lifts.discreet (h.read k)).bind (fun _ _ => rfl) fun handle => ?_
    exact found_follows (T := .fixing view) h.erase k handle
  erase := erase_follows (T := .fixing view) h.erase

namespace Stack

variable {κ ν β γ : Type}

/-- The buffers of the sessions, the topmost first. -/
def buffers : (layers : List Layer) → Stack κ ν β layers → List (Buffer κ ν)
  | [], _ => []
  | .metered :: layers, s => buffers layers (Metered.below s)
  | .wrapped :: layers, s => buffers layers (Wrapped.below s)
  | .session :: layers, s => Session.buffer s :: buffers layers (Session.below s)

theorem discreet [DecidableEq κ] [Keeper ν] [Store β κ ν] {view : β → γ} (h : Discreet view)
    (layers : List Layer) :
    Discreet fun s : Stack κ ν β layers => (buffers layers s, view (base layers s)) := by
  induction layers with
  | nil =>
    refine ⟨fun k env s => ?_, fun k env s => ?_⟩
    · exact (h.read k env s).imp_right (congrArg (Prod.mk []))
    · exact congrArg (Prod.mk []) (h.erase k env s)
  | cons layer layers ih =>
    cases layer with
    | metered => exact Metered.discreet ih
    | wrapped => exact Wrapped.discreet ih
    | session =>
      -- the buffer of this session comes before those below it
      have hthis := Session.discreet ih
      refine ⟨fun k env s => ?_, fun k env s => ?_⟩
      · refine (hthis.read k env s).imp_right fun heq => ?_
        exact congrArg (fun p => (p.1 :: p.2.1, p.2.2)) heq
      · exact congrArg (fun p => (p.1 :: p.2.1, p.2.2)) (hthis.erase k env s)

end Stack

/-! ## Chains -/

namespace Chain

variable {κ : Type} [Ord κ] {base : Type → Type}

/-- The calls that the base store of a chain was asked for. -/
def log : (shape : Shape) → Chain κ (fun ν => Monitored κ (base ν)) shape → Log κ
  | .plain layers, c => (Stack.base layers c).log
  | .soft upper lower, c => (Stack.base lower (Stack.base upper c).below).log

/-- The buffers of the sessions of a chain: those of values and those of handles. -/
def buffers : (shape : Shape) → Chain κ base shape → List (Buffer κ Value) × List (Buffer κ Handle)
  | .plain layers, c => (Stack.buffers layers c, [])
  | .soft upper lower, c =>
    (Stack.buffers upper c, Stack.buffers lower (Stack.base upper c).below)

variable [DecidableEq κ] [Std.TransOrd κ] [Store (base Value) κ Value]
  [Store (base Handle) κ Handle]

/-- Whatever is asked of a chain, its base store is asked for some calls, the last of which fails if
the request does, as the request does. -/
theorem perform_relays (shape : Shape) (env : Ambient)
    (c : Chain κ (fun ν => Monitored κ (base ν)) shape) (q : Request κ Value) :
    q.perform.Leaves env c fun r c' =>
      ∃ calls, log shape c' = calls ++ log shape c ∧ Log.Relays calls (Op.failure? r) := by
  have h : Abiding (course Monitored.relaying shape :
      Course (Chain κ (fun ν => Monitored κ (base ν)) shape)) :=
    abiding Monitored.abiding_relaying Monitored.abiding_relaying shape
  have hperform := h.perform q env c
  cases shape with
  | plain layers => exact hperform
  | soft upper lower => exact hperform

/-- A lookup that fails leaves the buffers of all sessions alone. -/
theorem read_discreet (shape : Shape) (k : κ) :
    (Store.read k : Op (Chain κ base shape) (Option Value)).Discreet (buffers shape) := by
  have hnothing : ∀ {σ ν : Type} [Store σ κ ν], Discreet fun _ : σ => () :=
    ⟨fun _ _ _ => .inr rfl, fun _ _ _ => rfl⟩
  cases shape with
  | plain layers =>
    intro env c
    refine ((Stack.discreet hnothing layers).read k env c).imp_right fun heq => ?_
    exact congrArg (fun p => (p.1, [])) heq
  | soft upper lower =>
    intro env c
    have hsoft := Soft.discreet (Stack.discreet (κ := κ) (β := base Handle) hnothing lower)
    refine ((Stack.discreet hsoft upper).read k env c).imp_right fun heq => ?_
    exact congrArg (fun p => (p.1, p.2.1)) heq

/-- **Failures come from the base store and pass unchanged.** Let a chain of any layers stand over a
base store of any kind, whose calls are logged, and let it be in any state. Whatever is asked of it,
some calls are made on the base store. The request fails if and only if one of them does, and with
the same failure. No call is made after one that fails. A lookup that fails leaves the buffers of
all sessions as they are. And the log is not noticed: without it the answer is the same. -/
theorem failures_relayed (shape : Shape) (env : Ambient)
    (c : Chain κ (fun ν => Monitored κ (base ν)) shape) (q : Request κ Value) :
    let o := q.perform env c
    ∃ calls, log shape o.state = calls ++ log shape c ∧
      (∀ e, o.result = .error e ↔ ∃ call, (call, .error e) ∈ calls) ∧
      Log.Served calls.tail ∧
      (∀ k e, q = .read k → o.result = .error e → buffers shape o.state = buffers shape c) ∧
      (q.perform env (map Monitored.below shape c)).result = o.result := by
  intro o
  obtain ⟨calls, hlog, hrelays⟩ := perform_relays shape env c q
  refine ⟨calls, hlog, fun e => ?_, hrelays.tail, ?_, ?_⟩
  · exact Op.failure?_eq_some_iff.symm.trans hrelays.eq_some_iff
  · rintro k e rfl hfailed
    -- a failure is not the answer that nothing was found
    have hread : (Request.read k : Request κ Value).perform.Leaves env c fun r c' =>
        r = .error e → buffers shape c' = buffers shape c := by
      refine (read_discreet shape k env c).bind (fun _ _ _ => nofun) fun e' c' hc' _ => ?_
      exact hc'.resolve_left nofun
    exact hread hfailed
  · have h : Projection (fun _ => true) (map Monitored.below shape :
        Chain κ (fun ν => Monitored κ (base ν)) shape → Chain κ base shape) :=
      projection_map Monitored.projection_below Monitored.projection_below shape
    exact (h.perform q env c).result_eq

/-- A session on a soft layer has noted a missed key when it looks up a key with a dead handle. The
lookup finds the handle and fails on taking it out, and the session's notes are as before. -/
theorem removal_of_dead_fails :
    let faults : Faults Nat := fun n _ => if n = 3 then some (.backend "down") else none
    let shape : Shape := .soft [.session] [.metered]
    ∃ layer, Soft.ofSettings ⟨1, 8⟩
        (Stack.fresh ⟨.named "users" false false faults, []⟩ [.metered]) = .ok layer ∧
      let initial : Chain Nat (fun ν => Monitored Nat (Probe Nat ν)) shape :=
        Stack.fresh layer [.session]
      let noted := (Store.read 2 .alone initial).state
      let c := (onSoft (Store.writeMiss 1) shape .alone noted).state
      let o := (Request.read 1).perform .alone c
      o.result = .error (.backend "down") ∧
        (∃ calls, log shape o.state = calls ++ log shape c ∧
          (∃ call, (call, .error (.backend "down")) ∈ calls) ∧ Log.Served calls.tail) ∧
        log shape o.state =
          [(.erase 1, .error (.backend "down")), (.read 1, .ok true)] ++ log shape c ∧
        (buffers shape c).1.map Buffer.missed = [[2]] ∧
        buffers shape o.state = buffers shape c := by
  intro faults shape
  refine ⟨_, rfl, ?_⟩
  intro initial noted c o
  have hfailed : o.result = .error (.backend "down") := rfl
  obtain ⟨calls, hlog, hfailures, hserved, hbuffers, -⟩ := failures_relayed shape .alone c (.read 1)
  refine ⟨hfailed, ⟨calls, hlog, (hfailures _).mp hfailed, hserved⟩, rfl, rfl, ?_⟩
  exact hbuffers 1 _ rfl hfailed

end Chain

end SoftTier
