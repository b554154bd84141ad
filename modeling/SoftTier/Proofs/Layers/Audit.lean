import SoftTier.Proofs.Layers.Acts
import SoftTier.Proofs.Layers.Courses

/-!
# Counters and the calls they count

A metered layer counts what it is asked for by the layer above it. An audit of a chain puts a log
above each metered layer, of the calls on that layer and what came of them. It changes nothing else,
and each counter is the number of the logged calls that it stands for.

- `Log.hits`, `Log.misses`, `Log.writes`, `Log.removals`: numbers of logged calls.
- `Tally.Exact`: the counters are these numbers.
- `Audit`: a stack with a log above each metered layer; `Audit.meters` for the counters and logs.
- `Audit.projection_toStack`: the logs go unnoticed.
- `Audit.Holds`: every counter goes with its log; `Audit.abiding_holds` for requests.
-/

namespace SoftTier

/-! ## Numbers of calls -/

namespace Log

variable {κ : Type}

/-- The lookups that found a value. -/
def hits (log : Log κ) : Nat := log.countP fun
  | (.read _, .ok true) => true
  | _ => false

/-- The lookups that found none. Those that failed are left out. -/
def misses (log : Log κ) : Nat := log.countP fun
  | (.read _, .ok false) => true
  | _ => false

/-- The writes, of values or of misses, those that failed included. -/
def writes (log : Log κ) : Nat := log.countP fun
  | (.write _, _) | (.writeMiss _, _) => true
  | _ => false

/-- The removals, those that failed included. -/
def removals (log : Log κ) : Nat := log.countP fun
  | (.erase _, _) => true
  | _ => false

end Log

namespace Tally

variable {κ : Type}

/-- The counters are the numbers of the calls in the log. -/
structure Exact (t : Tally) (log : Log κ) : Prop where
  hits_eq : t.hits.toNat = log.hits
  misses_eq : t.misses.toNat = log.misses
  writes_eq : t.writes.toNat = log.writes
  removals_eq : t.removals.toNat = log.removals

/-- What a call adds to the counters, told from whether it failed, gave a value or gave none. -/
def add (t : Tally) : Call κ × Except Failure Bool → Tally
  | (.write _, _) | (.writeMiss _, _) => t.addWrites 1
  | (.read _, .ok found) => t.addLookup found
  | (.erase _, _) => t.addRemovals 1
  | _ => t

/-- What all calls in a log add up to. -/
def ofLog : Log κ → Tally
  | [] => {}
  | call :: log => (ofLog log).add call

/-- A counter that can hold the number of all calls does not overflow on the next one. -/
theorem toNat_add_one {n : UInt64} {counted : Call κ × Except Failure Bool → Bool}
    {call : Call κ × Except Failure Bool} {log : Log κ} (h : n.toNat = log.countP counted)
    (hcounted : counted call = true) (hlength : log.length + 1 < UInt64.size) :
    (n + 1).toNat = (call :: log).countP counted := by
  have hone : (1 : UInt64).toNat = 1 := rfl
  have hle : log.countP counted ≤ log.length := List.countP_le_length
  rw [List.countP_cons_of_pos hcounted, UInt64.toNat_add, hone, h]
  exact Nat.mod_eq_of_lt (Nat.lt_of_le_of_lt (Nat.succ_le_succ hle) hlength)

/-- Up to as many calls as can be counted, what they add up to is their numbers. -/
theorem ofLog_exact {log : Log κ} (h : log.length < UInt64.size) : (ofLog log).Exact log := by
  induction log with
  | nil => exact ⟨rfl, rfl, rfl, rfl⟩
  | cons call log ih =>
    rw [List.length_cons] at h
    obtain ⟨hhits, hmisses, hwrites, hremovals⟩ := ih (Nat.lt_of_succ_lt h)
    obtain ⟨call, r⟩ := call
    cases call with
    | size => exact ⟨hhits, hmisses, hwrites, hremovals⟩
    | clear => exact ⟨hhits, hmisses, hwrites, hremovals⟩
    | write k => exact ⟨hhits, hmisses, toNat_add_one hwrites rfl h, hremovals⟩
    | writeMiss k => exact ⟨hhits, hmisses, toNat_add_one hwrites rfl h, hremovals⟩
    | erase k => exact ⟨hhits, hmisses, hwrites, toNat_add_one hremovals rfl h⟩
    | read k =>
      match r with
      | .error e => exact ⟨hhits, hmisses, hwrites, hremovals⟩
      | .ok true => exact ⟨toNat_add_one hhits rfl h, hmisses, hwrites, hremovals⟩
      | .ok false => exact ⟨hhits, toNat_add_one hmisses rfl h, hwrites, hremovals⟩

end Tally

/-! ## One metered layer -/

namespace Metered

variable {σ κ ν α : Type} {I : σ → Prop}

/-- The operation counts as this call, and keeps what is so of the store below. -/
def Counts (I : σ → Prop) (call : Call κ) (gave : α → Bool) (x : Op (Metered σ) α) : Prop :=
  ∀ env s, x.Leaves env s fun r s' =>
    s'.tally = s.tally.add (call, r.map gave) ∧ (I s.below → I s'.below)

/-- An operation of the store below, without a count. -/
theorem onBelow_leaves {x : Op σ α} (hx : x.Follows (.keeping I)) (env : Ambient) (s : Metered σ) :
    (onBelow x).Leaves env s fun _ s' => s'.tally = s.tally ∧ (I s.below → I s'.below) :=
  ⟨rfl, hx env s.below⟩

variable [Store σ κ ν]

theorem write_counts (h : Abiding (.keeping I)) (k : κ) (a : ν) :
    Counts I (.write k) (fun _ => false) (Store.write k a : Op (Metered σ) Unit) := fun env _ =>
  (Op.yields_update _).bind_leaves (onBelow_leaves (h.write k a) env _)

theorem writeMiss_counts (h : Abiding (.keeping I)) (k : κ) :
    Counts I (.writeMiss k) (fun _ => false) (Store.writeMiss k : Op (Metered σ) Unit) :=
  fun env _ => (Op.yields_update _).bind_leaves (onBelow_leaves (h.writeMiss k) env _)

theorem erase_counts (h : Abiding (.keeping I)) (k : κ) :
    Counts I (.erase k) Option.isSome (Store.erase k : Op (Metered σ) (Option ν)) := fun env _ =>
  (Op.yields_update _).bind_leaves (onBelow_leaves (h.erase k) env _)

/-- A lookup is counted when it has its answer, and so one that fails is not. -/
theorem read_counts (h : Abiding (.keeping I)) (k : κ) :
    Counts I (.read k) Option.isSome (Store.read k : Op (Metered σ) (Option ν)) := by
  intro env s
  refine (onBelow_leaves (h.read k) env s).bind ?_ fun e s' hs' => hs'
  rintro found s' ⟨htally, hkept⟩
  refine (Op.yields_update _).bind_leaves ((Op.yields_read _).bind_leaves ?_)
  refine (Op.yields_emit _).bind_leaves ((Op.yields_pure found).leaves ⟨?_, hkept⟩)
  show s'.tally.addLookup found.isSome = s.tally.addLookup found.isSome
  rw [htally]

end Metered

namespace Monitored

variable {σ κ ν α : Type} {I : σ → Prop}

/-- The counters of a metered layer go with the log of the calls on it. -/
def Agrees (s : Monitored κ (Metered σ)) : Prop := s.below.tally = .ofLog s.log

/-- A call that is counted and logged. -/
theorem watch_agrees {call : Call κ} {gave : α → Bool} {x : Op (Metered σ) α}
    (hx : Metered.Counts I call gave x) :
    (watch call gave x).Follows (.keeping fun s => s.Agrees ∧ I s.below.below) := by
  rintro env s ⟨hagrees, hI⟩
  -- the log grows by the call and its outcome, by which the operation has counted
  obtain ⟨htally, hkept⟩ := hx env s.below
  refine ⟨?_, hkept hI⟩
  show (x env s.below).state.tally =
    (Tally.ofLog s.log).add (call, (x env s.below).result.map gave)
  rw [htally, hagrees]

/-- A metered layer with a log keeps the two together, and so does what stands on it. -/
theorem abiding_agrees [Store σ κ ν] (h : Abiding (.keeping I)) :
    Abiding (.keeping fun s : Monitored κ (Metered σ) => s.Agrees ∧ I s.below.below) where
  size := watch_agrees (Metered.onBelow_leaves h.size)
  write k a := watch_agrees (Metered.write_counts h k a)
  writeMiss k := watch_agrees (Metered.writeMiss_counts h k)
  read k := watch_agrees (Metered.read_counts h k)
  erase k := watch_agrees (Metered.erase_counts h k)
  clear := watch_agrees (Metered.onBelow_leaves h.clear)

/-- Runs an operation below the log that is no call. -/
def onBelow (x : Op σ α) : Op (Monitored κ σ) α := fun env s =>
  let o := x env s.below
  ⟨o.result, { s with below := o.state }, o.events⟩

/-- Seen without the log, an operation on the store below is the operation itself. -/
theorem onBelow_projects_below {τ : Type} {heed : Event → Bool} {f : σ → τ} {x : Op σ α}
    {y : Op τ α} (hx : x.Projects heed f y) :
    (onBelow x : Op (Monitored κ σ) α).Projects heed (fun s => f s.below) y := by
  intro env s
  obtain ⟨hresult, hstate, hevents⟩ := hx env s.below
  exact ⟨hresult, hstate, hevents⟩

/-- What is done under a metered layer is neither counted nor logged. -/
theorem onBelow_agrees {x : Op σ α} (hx : x.Follows (.keeping I)) :
    (onBelow (Metered.onBelow x) : Op (Monitored κ (Metered σ)) α).Follows
      (.keeping fun s => s.Agrees ∧ I s.below.below) :=
  fun env s hs => ⟨hs.1, hx env s.below.below hs.2⟩

end Monitored

/-! ## Stacks -/

/-- The states of a stack with a log above each of its metered layers. -/
def Audit (κ ν β : Type) : List Layer → Type
  | [] => β
  | .metered :: layers => Monitored κ (Metered (Audit κ ν β layers))
  | .wrapped :: layers => Wrapped (Audit κ ν β layers)
  | .session :: layers => Session κ ν (Audit κ ν β layers)

namespace Audit

variable {κ ν β γ α : Type}

/-- The stack without the logs, over the base that `f` shows. -/
def toStack (f : β → γ) : (layers : List Layer) → Audit κ ν β layers → Stack κ ν γ layers
  | [], s => f s
  | .metered :: layers, s => Metered.map (toStack f layers) (Monitored.below s)
  | .wrapped :: layers, s => Wrapped.map (toStack f layers) s
  | .session :: layers, s => Session.map (toStack f layers) s

/-- Starts logs over a stack, and over the base what `f` starts there. -/
def ofStack (f : γ → β) : (layers : List Layer) → Stack κ ν γ layers → Audit κ ν β layers
  | [], s => f s
  | .metered :: layers, s => Monitored.mk (Metered.map (ofStack f layers) s) []
  | .wrapped :: layers, s => Wrapped.map (ofStack f layers) s
  | .session :: layers, s => Session.map (ofStack f layers) s

/-- The base store. -/
def base : (layers : List Layer) → Audit κ ν β layers → β
  | [], s => s
  | .metered :: layers, s => base layers (Metered.below (Monitored.below s))
  | .wrapped :: layers, s => base layers (Wrapped.below s)
  | .session :: layers, s => base layers (Session.below s)

/-- The counters of the metered layers with the logs of the calls on them, the lowest first. -/
def meters : (layers : List Layer) → Audit κ ν β layers → List (Tally × Log κ)
  | [], _ => []
  | .metered :: layers, s =>
    meters layers (Metered.below (Monitored.below s)) ++
      [(Metered.tally (Monitored.below s), Monitored.log s)]
  | .wrapped :: layers, s => meters layers (Wrapped.below s)
  | .session :: layers, s => meters layers (Session.below s)

/-- All counters go with their logs, and something is so of the base store. -/
def Holds (I : β → Prop) : (layers : List Layer) → Audit κ ν β layers → Prop
  | [], s => I s
  | .metered :: layers, s =>
    Monitored.Agrees s ∧ Holds I layers (Metered.below (Monitored.below s))
  | .wrapped :: layers, s => Holds I layers (Wrapped.below s)
  | .session :: layers, s => Holds I layers (Session.below s)

section Holds

variable {I : β → Prop} {layers : List Layer}

theorem Holds.agrees {s : Audit κ ν β layers} (h : Holds I layers s) :
    ∀ m ∈ meters layers s, m.1 = .ofLog m.2 := by
  induction layers with
  | nil => exact fun _ hm => absurd hm List.not_mem_nil
  | cons layer layers ih =>
    cases layer with
    | metered =>
      -- the counters of this layer come last
      obtain ⟨hagrees, hbelow⟩ := h
      intro m hm
      rcases List.mem_append.mp hm with hm | hm
      · exact ih hbelow m hm
      · rw [List.mem_singleton.mp hm]
        exact hagrees
    | wrapped => exact ih h
    | session => exact ih h

theorem Holds.base {s : Audit κ ν β layers} (h : Holds I layers s) : I (Audit.base layers s) := by
  induction layers with
  | nil => exact h
  | cons layer layers ih =>
    cases layer with
    | metered => exact ih h.2
    | wrapped => exact ih h
    | session => exact ih h

/-- New counters go with new logs. -/
theorem holds_ofStack {f : γ → β} {s : Stack κ ν γ layers}
    (hnew : ∀ t ∈ Stack.tallies layers s, t = {}) (h : I (f (Stack.base layers s))) :
    Holds I layers (ofStack f layers s) := by
  induction layers with
  | nil => exact h
  | cons layer layers ih =>
    cases layer with
    | metered =>
      obtain ⟨hbelow, hthis⟩ := List.forall_mem_append.mp hnew
      exact ⟨hthis _ (List.mem_singleton_self _), ih hbelow h⟩
    | wrapped => exact ih hnew h
    | session => exact ih hnew h

end Holds

section Forgetting

variable {f : β → γ} {g : γ → β}

/-- The counters in the audit are those of the stack. -/
theorem tallies_toStack (layers : List Layer) (s : Audit κ ν β layers) :
    Stack.tallies layers (toStack f layers s) = (meters layers s).map Prod.fst := by
  induction layers with
  | nil => rfl
  | cons layer layers ih =>
    cases layer with
    | metered =>
      have hmap : (meters layers (Metered.below (Monitored.below s))).map Prod.fst ++
          [Metered.tally (Monitored.below s)] =
            (meters layers (Metered.below (Monitored.below s)) ++
              [(Metered.tally (Monitored.below s), Monitored.log s)]).map Prod.fst := by
        rw [List.map_append, List.map_singleton]
      exact (congrArg (· ++ [Metered.tally (Monitored.below s)]) (ih _)).trans hmap
    | wrapped => exact ih _
    | session => exact ih _

theorem base_toStack (layers : List Layer) (s : Audit κ ν β layers) :
    Stack.base layers (toStack f layers s) = f (base layers s) := by
  induction layers with
  | nil => rfl
  | cons layer layers ih => cases layer <;> exact ih _

/-- Logs that are started and left out again leave the stack. -/
theorem toStack_ofStack (h : ∀ b, f (g b) = b) (layers : List Layer) (s : Stack κ ν γ layers) :
    toStack f layers (ofStack g layers s) = s := by
  induction layers with
  | nil => exact h s
  | cons layer layers ih =>
    cases layer with
    | metered => exact congrArg (Metered.mk (Metered.tally s)) (ih (Metered.below s))
    | wrapped => exact congrArg Wrapped.mk (ih (Wrapped.below s))
    | session => exact congrArg (Session.mk (Session.buffer s)) (ih (Session.below s))

end Forgetting

variable [Keeper ν]

/-- Runs an operation on the base. -/
def onBase (x : Op β α) : (layers : List Layer) → Op (Audit κ ν β layers) α
  | [] => x
  | .metered :: layers => Monitored.onBelow (Metered.onBelow (onBase x layers))
  | .wrapped :: layers => Wrapped.onBelow (onBase x layers)
  | .session :: layers => Session.onBelow (onBase x layers)

theorem onBase_projects {heed : Event → Bool} {f : β → γ} {x : Op β α} {y : Op γ α}
    (hx : x.Projects heed f y) (layers : List Layer) :
    (onBase x layers : Op (Audit κ ν β layers) α).Projects heed (toStack f layers)
      (Stack.onBase y layers) := by
  induction layers with
  | nil => exact hx
  | cons layer layers ih =>
    cases layer with
    | metered => exact Monitored.onBelow_projects_below (Metered.onBelow_projects ih)
    | wrapped => exact Wrapped.onBelow_projects ih
    | session => exact Session.onBelow_projects ih

theorem onBase_holds {I : β → Prop} {x : Op β α} (hx : x.Follows (.keeping I))
    (layers : List Layer) :
    (onBase x layers : Op (Audit κ ν β layers) α).Follows (.keeping (Holds I layers)) := by
  induction layers with
  | nil => exact hx
  | cons layer layers ih =>
    cases layer with
    | metered => exact Monitored.onBelow_agrees ih
    | wrapped => exact Wrapped.lifts.follows ih
    | session => exact Session.lifts.follows ih

variable [DecidableEq κ] [Store β κ ν]

/-- An audited stack over a store is a store. -/
instance store : (layers : List Layer) → Store (Audit κ ν β layers) κ ν
  | [] => inferInstanceAs (Store β κ ν)
  | .metered :: layers =>
    letI := store layers
    inferInstanceAs (Store (Monitored κ (Metered (Audit κ ν β layers))) κ ν)
  | .wrapped :: layers =>
    letI := store layers
    inferInstanceAs (Store (Wrapped (Audit κ ν β layers)) κ ν)
  | .session :: layers =>
    letI := store layers
    inferInstanceAs (Store (Session κ ν (Audit κ ν β layers)) κ ν)

/-- The logs go unnoticed. -/
theorem projection_toStack [Store γ κ ν] {heed : Event → Bool} {f : β → γ}
    (h : Projection heed f) (layers : List Layer) :
    Projection heed (toStack f layers : Audit κ ν β layers → Stack κ ν γ layers) := by
  induction layers with
  | nil => exact h
  | cons layer layers ih =>
    cases layer with
    | metered => exact (Metered.projection_map ih).comp Monitored.projection_below
    | wrapped => exact Wrapped.projection_map ih
    | session => exact Session.projection_map ih

/-- Whatever is asked for, all counters go with their logs. -/
theorem abiding_holds {I : β → Prop} (h : Abiding (.keeping I)) (layers : List Layer) :
    Abiding (.keeping (Holds I layers : Audit κ ν β layers → Prop)) := by
  induction layers with
  | nil => exact h
  | cons layer layers ih =>
    cases layer with
    | metered => exact Monitored.abiding_agrees ih
    | wrapped => exact Wrapped.abiding ih
    | session => exact Session.abiding ih

/-- Runs an operation on a session of the stack, counted from the topmost on. If there are not so
many, nothing is done. -/
def onSession (x : {σ : Type} → [Store σ κ ν] → Op (Session κ ν σ) Unit) :
    (layers : List Layer) → Nat → Op (Audit κ ν β layers) Unit
  | [], _ => show Op β Unit from pure ()
  | .metered :: layers, i => Monitored.onBelow (Metered.onBelow (onSession x layers i))
  | .wrapped :: layers, i => Wrapped.onBelow (onSession x layers i)
  | .session :: layers, 0 => (x : Op (Session κ ν (Audit κ ν β layers)) Unit)
  | .session :: layers, i + 1 => Session.onBelow (onSession x layers i)

theorem onSession_projects [Store γ κ ν] {heed : Event → Bool} {f : β → γ}
    {x : {σ : Type} → [Store σ κ ν] → Op (Session κ ν σ) Unit}
    (hx : ∀ {τ σ : Type} [Store τ κ ν] [Store σ κ ν] {f : τ → σ}, Projection heed f →
      (x : Op (Session κ ν τ) Unit).Projects heed (Session.map f) x)
    (h : Projection heed f) (layers : List Layer) (i : Nat) :
    (onSession x layers i : Op (Audit κ ν β layers) Unit).Projects heed (toStack f layers)
      (Stack.onSession x layers i) := by
  induction layers generalizing i with
  | nil => exact Op.projects_pure ()
  | cons layer layers ih =>
    cases layer with
    | metered => exact Monitored.onBelow_projects_below (Metered.onBelow_projects (ih i))
    | wrapped => exact Wrapped.onBelow_projects (ih i)
    | session =>
      cases i with
      | zero => exact hx (projection_toStack h layers)
      | succ i => exact Session.onBelow_projects (ih i)

theorem onSession_holds {I : β → Prop} {x : {σ : Type} → [Store σ κ ν] → Op (Session κ ν σ) Unit}
    (hx : ∀ {σ : Type} [Store σ κ ν] {I : σ → Prop}, Abiding (.keeping I) →
      (x : Op (Session κ ν σ) Unit).Follows (Course.comap Session.below (.keeping I)))
    (h : Abiding (.keeping I)) (layers : List Layer) (i : Nat) :
    (onSession x layers i : Op (Audit κ ν β layers) Unit).Follows (.keeping (Holds I layers)) := by
  induction layers generalizing i with
  | nil => exact Op.follows_pure ()
  | cons layer layers ih =>
    cases layer with
    | metered => exact Monitored.onBelow_agrees (ih i)
    | wrapped => exact Wrapped.lifts.follows (ih i)
    | session =>
      cases i with
      | zero => exact hx (abiding_holds h layers)
      | succ i => exact Session.lifts.follows (ih i)

end Audit

end SoftTier
