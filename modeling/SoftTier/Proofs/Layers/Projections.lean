import SoftTier.Chain
import SoftTier.Proofs.Layers.Requests
import SoftTier.Proofs.Op

/-!
# Stores seen through a map

A map of states shows one store as another if every request does the same to both: the results are
equal, and the map takes what becomes of the first store to what becomes of the second. Layers
respect that. If the store below a layer is shown as another, then the layer over the first is shown
as the layer over the second. What is reported counts as far as it is *heeded*; the hit ratios that
counting layers report may be passed over.

- `Outcome.Shows`, `Op.Projects`: one outcome, one operation and another.
- `Op.Projects.bind`, `Op.Projects.foldl`: blocks of steps and runs over lists.
- `Projection`: a map that shows one store as another.
- `Metered.projection_below`, `Wrapped.projection_below`, `Monitored.projection_below`: a layer that
  forwards is shown as the store below it.
- `Metered.projection_map`, `Wrapped.projection_map`, `Session.projection_map`,
  `Soft.projection_map`: every layer respects a projection.
- `Stack.projection_map`, `Chain.projection_map`: so does any number of layers.
-/

namespace SoftTier

/-! ## Outcomes and operations -/

/-- The second outcome is the first, seen through `f`, as far as its events are heeded. -/
structure Outcome.Shows {σ τ α : Type} (heed : Event → Bool) (f : τ → σ) (o : Outcome τ α)
    (o' : Outcome σ α) : Prop where
  result_eq : o'.result = o.result
  state_eq : o'.state = f o.state
  events_eq : o'.events.filter heed = o.events.filter heed

namespace Op

variable {σ τ υ α β : Type} {heed : Event → Bool} {f : τ → σ}

/-- What the first operation does, seen through `f`, is what the second does. -/
def Projects (heed : Event → Bool) (f : τ → σ) (x : Op τ α) (y : Op σ α) : Prop :=
  ∀ env s, (x env s).Shows heed f (y env (f s))

theorem Projects.comp {g : υ → τ} {w : Op υ α} {x : Op τ α} {y : Op σ α}
    (hy : x.Projects heed f y) (hx : w.Projects heed g x) :
    w.Projects heed (fun s => f (g s)) y := by
  intro env s
  obtain ⟨hresult, hstate, hevents⟩ := hx env s
  obtain ⟨hresult', hstate', hevents'⟩ := hy env (g s)
  refine ⟨hresult'.trans hresult, ?_, hevents'.trans hevents⟩
  rw [hstate', hstate]

theorem projects_pure (a : α) : (pure a : Op τ α).Projects heed f (pure a) :=
  fun _ _ => ⟨rfl, rfl, rfl⟩

theorem projects_emit (e : Event) : (emit e : Op τ Unit).Projects heed f (emit e) :=
  fun _ _ => ⟨rfl, rfl, rfl⟩

theorem projects_fail (e : Failure) : (fail e : Op τ α).Projects heed f (fail e) :=
  fun _ _ => ⟨rfl, rfl, rfl⟩

theorem projects_visiting (l : List α) :
    (visiting l : Op τ (List α)).Projects heed f (visiting l) := fun _ _ => ⟨rfl, rfl, rfl⟩

theorem projects_read {g : τ → α} {g' : σ → α} (hg : ∀ s, g' (f s) = g s) :
    (read g).Projects heed f (read g') := fun _ s => ⟨congrArg Except.ok (hg s), rfl, rfl⟩

theorem projects_update {g : τ → τ} {g' : σ → σ} (hg : ∀ s, g' (f s) = f (g s)) :
    (update g).Projects heed f (update g') := fun _ s => ⟨rfl, hg s, rfl⟩

namespace Projects

theorem bind {x : Op τ α} {y : Op σ α} {g : α → Op τ β} {g' : α → Op σ β}
    (hx : x.Projects heed f y) (hg : ∀ a, (g a).Projects heed f (g' a)) :
    (x >>= g).Projects heed f (y >>= g') := by
  intro env s
  rw [bind_run, bind_run]
  obtain ⟨hresult, hstate, hevents⟩ := hx env s
  generalize x env s = o at hresult hstate hevents ⊢
  generalize y env (f s) = o' at hresult hstate hevents ⊢
  obtain ⟨r, t, events⟩ := o
  obtain ⟨r', t', events'⟩ := o'
  dsimp only at hresult hstate hevents
  subst hresult hstate
  -- both first parts have the same result, so either both blocks end or both go on from it
  cases r' with
  | error e => exact ⟨rfl, rfl, hevents⟩
  | ok a =>
    obtain ⟨hresult', hstate', hevents'⟩ := hg a env t
    refine ⟨hresult', hstate', ?_⟩
    show (events' ++ (g' a env (f t)).events).filter heed =
      (events ++ (g a env t).events).filter heed
    rw [List.filter_append, List.filter_append, hevents, hevents']

theorem attempt {x : Op τ α} {y : Op σ α} (hx : x.Projects heed f y) :
    (Op.attempt x).Projects heed f (Op.attempt y) := by
  intro env s
  obtain ⟨hresult, hstate, hevents⟩ := hx env s
  exact ⟨congrArg Except.ok hresult, hstate, hevents⟩

theorem holding {x : Op τ α} {y : Op σ α} (hx : x.Projects heed f y) (v : Value) :
    (Op.holding v x).Projects heed f (Op.holding v y) := fun env s => hx (env.also v) s

theorem foldl {g : β → α → Op τ β} {g' : β → α → Op σ β}
    (hg : ∀ b a, (g b a).Projects heed f (g' b a)) (b : β) (l : List α) :
    (Op.foldl g b l).Projects heed f (Op.foldl g' b l) := by
  induction l generalizing b with
  | nil => exact projects_pure b
  | cons a l ih =>
    rw [foldl_cons, foldl_cons]
    exact (hg b a).bind ih

theorem each {g : α → Op τ Unit} {g' : α → Op σ Unit} (hg : ∀ a, (g a).Projects heed f (g' a))
    (l : List α) : (Op.each g l).Projects heed f (Op.each g' l) := foldl (fun _ => hg) () l

end Projects

end Op

/-! ## Stores -/

/-- Seen through the map, the first store is the second. -/
structure Projection {τ σ κ ν : Type} [Store τ κ ν] [Store σ κ ν] (heed : Event → Bool)
    (f : τ → σ) : Prop where
  id_eq : ∀ s, Store.id (f s) = Store.id s
  hasLock_eq : ∀ s, Store.hasLock (f s) = Store.hasLock s
  size : (Store.size : Op τ Nat).Projects heed f Store.size
  write : ∀ k a, (Store.write k a : Op τ Unit).Projects heed f (Store.write k a)
  writeMiss : ∀ k, (Store.writeMiss k : Op τ Unit).Projects heed f (Store.writeMiss k)
  read : ∀ k, (Store.read k : Op τ (Option ν)).Projects heed f (Store.read k)
  erase : ∀ k, (Store.erase k : Op τ (Option ν)).Projects heed f (Store.erase k)
  clear : (Store.clear : Op τ Unit).Projects heed f Store.clear

namespace Projection

variable {υ τ σ κ ν : Type} [Store υ κ ν] [Store τ κ ν] [Store σ κ ν] {heed : Event → Bool}
  {f : τ → σ} {g : υ → τ}

theorem refl : Projection heed (fun s : σ => s) where
  id_eq _ := rfl
  hasLock_eq _ := rfl
  size _ _ := ⟨rfl, rfl, rfl⟩
  write _ _ _ _ := ⟨rfl, rfl, rfl⟩
  writeMiss _ _ _ := ⟨rfl, rfl, rfl⟩
  read _ _ _ := ⟨rfl, rfl, rfl⟩
  erase _ _ _ := ⟨rfl, rfl, rfl⟩
  clear _ _ := ⟨rfl, rfl, rfl⟩

theorem comp (h : Projection heed f) (h' : Projection heed g) :
    Projection heed fun s => f (g s) where
  id_eq s := (h.id_eq (g s)).trans (h'.id_eq s)
  hasLock_eq s := (h.hasLock_eq (g s)).trans (h'.hasLock_eq s)
  size := h.size.comp h'.size
  write k a := (h.write k a).comp (h'.write k a)
  writeMiss k := (h.writeMiss k).comp (h'.writeMiss k)
  read k := (h.read k).comp (h'.read k)
  erase k := (h.erase k).comp (h'.erase k)
  clear := h.clear.comp h'.clear

/-- Whatever is asked of the first store is answered as by the second. -/
theorem perform (h : Projection heed f) (q : Request κ ν) :
    (q.perform : Op τ (Sharing.Answer ν)).Projects heed f q.perform := by
  cases q with
  | size => exact h.size.bind fun _ => Op.projects_pure _
  | write k a => exact (h.write k a).bind fun _ => Op.projects_pure _
  | writeMiss k => exact (h.writeMiss k).bind fun _ => Op.projects_pure _
  | read k => exact (h.read k).bind fun _ => Op.projects_pure _
  | erase k => exact (h.erase k).bind fun _ => Op.projects_pure _
  | clear => exact h.clear.bind fun _ => Op.projects_pure _

end Projection

/-! ## Layers that forward -/

namespace Monitored

variable {σ κ ν : Type} [Store σ κ ν] {heed : Event → Bool}

/-- A log goes unnoticed. -/
theorem projection_below : Projection heed (below : Monitored κ σ → σ) where
  id_eq _ := rfl
  hasLock_eq _ := rfl
  size _ _ := ⟨rfl, rfl, rfl⟩
  write _ _ _ _ := ⟨rfl, rfl, rfl⟩
  writeMiss _ _ _ := ⟨rfl, rfl, rfl⟩
  read _ _ _ := ⟨rfl, rfl, rfl⟩
  erase _ _ _ := ⟨rfl, rfl, rfl⟩
  clear _ _ := ⟨rfl, rfl, rfl⟩

end Monitored

namespace Wrapped

variable {τ σ κ ν α : Type} {heed : Event → Bool} {f : τ → σ}

/-- The layer over another store. -/
def map (f : τ → σ) (s : Wrapped τ) : Wrapped σ := ⟨f s.below⟩

theorem onBelow_projects {x : Op τ α} {y : Op σ α} (hx : x.Projects heed f y) :
    (onBelow x).Projects heed (map f) (onBelow y) := by
  intro env s
  obtain ⟨hresult, hstate, hevents⟩ := hx env s.below
  exact ⟨hresult, congrArg mk hstate, hevents⟩

/-- Seen without the layer, an operation on the store below is the operation itself. -/
theorem onBelow_projects_below {x : Op τ α} {y : Op σ α} (hx : x.Projects heed f y) :
    (onBelow x).Projects heed (fun s => f s.below) y := by
  intro env s
  obtain ⟨hresult, hstate, hevents⟩ := hx env s.below
  exact ⟨hresult, hstate, hevents⟩

variable [Store τ κ ν] [Store σ κ ν]

theorem projection_below : Projection heed (below : Wrapped σ → σ) where
  id_eq _ := rfl
  hasLock_eq _ := rfl
  size _ _ := ⟨rfl, rfl, rfl⟩
  write _ _ _ _ := ⟨rfl, rfl, rfl⟩
  writeMiss _ _ _ := ⟨rfl, rfl, rfl⟩
  read _ _ _ := ⟨rfl, rfl, rfl⟩
  erase _ _ _ := ⟨rfl, rfl, rfl⟩
  clear _ _ := ⟨rfl, rfl, rfl⟩

theorem projection_map (h : Projection heed f) : Projection heed (map f) where
  id_eq s := h.id_eq s.below
  hasLock_eq s := h.hasLock_eq s.below
  size := onBelow_projects h.size
  write k a := onBelow_projects (h.write k a)
  writeMiss k := onBelow_projects (h.writeMiss k)
  read k := onBelow_projects (h.read k)
  erase k := onBelow_projects (h.erase k)
  clear := onBelow_projects h.clear

end Wrapped

namespace Metered

variable {τ σ κ ν α : Type} {heed : Event → Bool} {f : τ → σ}

/-- The layer over another store. -/
def map (f : τ → σ) (s : Metered τ) : Metered σ := ⟨s.tally, f s.below⟩

theorem onBelow_projects {x : Op τ α} {y : Op σ α} (hx : x.Projects heed f y) :
    (onBelow x).Projects heed (map f) (onBelow y) := by
  intro env s
  obtain ⟨hresult, hstate, hevents⟩ := hx env s.below
  exact ⟨hresult, congrArg (mk s.tally) hstate, hevents⟩

/-- Seen without the layer, an operation on the store below is the operation itself. -/
theorem onBelow_projects_below {x : Op τ α} {y : Op σ α} (hx : x.Projects heed f y) :
    (onBelow x).Projects heed (fun s => f s.below) y := by
  intro env s
  obtain ⟨hresult, hstate, hevents⟩ := hx env s.below
  exact ⟨hresult, hstate, hevents⟩

theorem count_projects (g : Tally → Tally) :
    (count g).Projects heed (map f) (count g) := Op.projects_update fun _ => rfl

variable [Store τ κ ν] [Store σ κ ν]

/-- Counting goes unnoticed, but for the hit ratios that are reported. -/
theorem projection_below (hheed : ∀ name ratio, heed (.lookedUp name ratio) = false) :
    Projection heed (below : Metered σ → σ) where
  id_eq _ := rfl
  hasLock_eq _ := rfl
  size _ _ := ⟨rfl, rfl, rfl⟩
  write _ _ _ _ := ⟨rfl, rfl, rfl⟩
  writeMiss _ _ _ := ⟨rfl, rfl, rfl⟩
  read k := by
    have hbelow : Op.Projects heed below (onBelow (Store.read k) : Op (Metered σ) (Option ν))
        (Store.read k) := fun _ _ => ⟨rfl, rfl, rfl⟩
    -- what follows the lookup counts and reports, of which nothing is seen from below
    rw [← bind_pure (Store.read k : Op σ (Option ν))]
    refine hbelow.bind fun found env s => ⟨rfl, rfl, ?_⟩
    show [].filter heed = [Event.lookedUp _ _].filter heed
    rw [List.filter_cons_of_neg (by rw [hheed]; exact Bool.false_ne_true)]
  erase _ _ _ := ⟨rfl, rfl, rfl⟩
  clear _ _ := ⟨rfl, rfl, rfl⟩

theorem projection_map (h : Projection heed f) : Projection heed (map f) where
  id_eq s := h.id_eq s.below
  hasLock_eq s := h.hasLock_eq s.below
  size := onBelow_projects h.size
  write k a := (count_projects _).bind fun _ => onBelow_projects (h.write k a)
  writeMiss k := (count_projects _).bind fun _ => onBelow_projects (h.writeMiss k)
  read k := by
    refine (onBelow_projects (h.read k)).bind fun found => (count_projects _).bind fun _ => ?_
    intro env s
    refine ⟨rfl, rfl, ?_⟩
    show [Event.lookedUp (Store.id (f s.below)) s.tally.hitRatio].filter heed =
      [Event.lookedUp (Store.id s.below) s.tally.hitRatio].filter heed
    rw [h.id_eq]
  erase k := (count_projects _).bind fun _ => onBelow_projects (h.erase k)
  clear := onBelow_projects h.clear

end Metered

/-! ## Sessions -/

namespace Buffer

variable {τ σ κ ν : Type} [Store τ κ ν] [Store σ κ ν] {heed : Event → Bool} {f : τ → σ}

theorem send_projects (h : Projection heed f) (e : κ × Option ν) :
    (send e : Op τ Unit).Projects heed f (send e) := by
  obtain ⟨k, entry⟩ := e
  cases entry with
  | none => exact h.writeMiss k
  | some a => exact h.write k a

theorem flush_projects (h : Projection heed f) (b : Buffer κ ν) :
    (b.flush : Op τ Unit).Projects heed f b.flush := by
  have hsend : Op.Projects heed f (do Op.each send (← Op.visiting b.pending))
      (do Op.each send (← Op.visiting b.pending)) :=
    (Op.projects_visiting _).bind fun l => .each (send_projects h) l
  rw [flush, flush]
  cases b.clears with
  | true => exact h.clear.bind fun _ => hsend
  | false => exact hsend

theorem freeAll_projects (h : Projection heed f) (b : Buffer κ ν) :
    (b.freeAll : Op τ Unit).Projects heed f b.freeAll :=
  (Op.projects_visiting _).bind fun l => .each h.writeMiss l

theorem freeMissed_projects [DecidableEq κ] (h : Projection heed f) (b : Buffer κ ν) :
    (b.freeMissed : Op τ Unit).Projects heed f b.freeMissed :=
  (Op.projects_visiting _).bind fun _ => .each h.writeMiss _

end Buffer

namespace Session

variable {τ σ κ ν α : Type} {heed : Event → Bool} {f : τ → σ}

/-- The session over another store. -/
def map (f : τ → σ) (s : Session κ ν τ) : Session κ ν σ := ⟨s.buffer, f s.below⟩

theorem note_projects (g : Buffer κ ν → Buffer κ ν) :
    (note g).Projects heed (map f) (note g) := Op.projects_update fun _ => rfl

theorem readBuffer_projects (g : Buffer κ ν → α) :
    Op.Projects heed (map f) (Op.read fun s => g s.buffer) (Op.read fun s => g s.buffer) :=
  Op.projects_read fun _ => rfl

theorem readId_projects [Store τ κ ν] [Store σ κ ν] (h : Projection heed f) :
    Op.Projects heed (map f : Session κ ν τ → Session κ ν σ) (Op.read fun s => Store.id s.below)
      (Op.read fun s => Store.id s.below) := Op.projects_read fun s => h.id_eq s.below

variable [Keeper ν]

theorem onBelow_projects {x : Op τ α} {y : Op σ α} (hx : x.Projects heed f y) :
    (onBelow x : Op (Session κ ν τ) α).Projects heed (map f) (onBelow y) := by
  rintro env ⟨b, s⟩
  obtain ⟨hresult, hstate, hevents⟩ := hx (env.also b) s
  exact ⟨hresult, congrArg (mk b) hstate, hevents⟩

variable [Store τ κ ν] [Store σ κ ν]

theorem rollback_projects (h : Projection heed f) :
    (rollback : Op (Session κ ν τ) Unit).Projects heed (map f) rollback := by
  refine (readBuffer_projects fun b => b).bind fun b => ?_
  refine (readId_projects h).bind fun name => ?_
  refine (onBelow_projects (b.freeAll_projects h)).bind fun _ => ?_
  exact (Op.projects_emit _).bind fun _ => note_projects _

variable [DecidableEq κ]

theorem projection_map (h : Projection heed f) :
    Projection heed (map f : Session κ ν τ → Session κ ν σ) where
  id_eq s := h.id_eq s.below
  hasLock_eq _ := rfl
  size := onBelow_projects h.size
  write _ _ := note_projects _
  writeMiss _ := note_projects _
  read k := by
    refine (onBelow_projects (h.read k)).bind fun found => ?_
    have hlast : ∀ cleared : Bool, Op.Projects heed (map f : Session κ ν τ → Session κ ν σ)
        (pure (if cleared then none else found)) (pure (if cleared then none else found)) :=
      fun _ => Op.projects_pure _
    cases found.isNone with
    | true => exact (note_projects _).bind fun _ => (readBuffer_projects Buffer.clears).bind hlast
    | false => exact (readBuffer_projects Buffer.clears).bind hlast
  erase _ := Op.projects_pure _
  clear := note_projects _

theorem commit_projects (h : Projection heed f) :
    (commit : Op (Session κ ν τ) Unit).Projects heed (map f) commit := by
  refine (readBuffer_projects fun b => b).bind fun b => ?_
  refine (readId_projects h).bind fun name => ?_
  have hfree : Op.Projects heed (map f : Session κ ν τ → Session κ ν σ) (onBelow b.freeMissed)
      (onBelow b.freeMissed) := onBelow_projects (b.freeMissed_projects h)
  refine (onBelow_projects (b.flush_projects h)).attempt.bind fun published => ?_
  cases published with
  | error e =>
    refine hfree.attempt.bind fun freed => ?_
    cases freed with
    | error e' => exact (Op.projects_emit _).bind fun _ => Op.projects_fail e
    | ok _ => exact (Op.projects_pure ()).bind fun _ => Op.projects_fail e
  | ok _ =>
    exact hfree.bind fun _ => (Op.projects_emit _).bind fun _ => note_projects _

end Session

/-- What a session does is shown as what the session over the other store does. -/
theorem Sharing.Act.perform_projects {τ σ κ ν : Type} [DecidableEq κ] [Keeper ν] [Store τ κ ν]
    [Store σ κ ν] {heed : Event → Bool} {f : τ → σ} (act : Sharing.Act κ ν)
    (h : Projection heed f) :
    (act.perform : Op (Session κ ν τ) (Sharing.Answer ν)).Projects heed (Session.map f)
      act.perform := by
  have hsession := Session.projection_map (κ := κ) (ν := ν) h
  cases act with
  | write k a => exact (hsession.write k a).bind fun _ => Op.projects_pure _
  | writeMiss k => exact (hsession.writeMiss k).bind fun _ => Op.projects_pure _
  | read k => exact (hsession.read k).bind fun _ => Op.projects_pure _
  | erase k => exact (hsession.erase k).bind fun _ => Op.projects_pure _
  | clear => exact hsession.clear.bind fun _ => Op.projects_pure _
  | size => exact hsession.size.bind fun _ => Op.projects_pure _
  | commit => exact (Session.commit_projects h).bind fun _ => Op.projects_pure _
  | rollback => exact (Session.rollback_projects h).bind fun _ => Op.projects_pure _

/-! ## The soft layer -/

namespace Soft

variable {κ τ σ α : Type} [Ord κ] {heed : Event → Bool} {f : τ → σ}

/-- The layer over another store. -/
def map (f : τ → σ) (s : Soft κ τ) : Soft κ σ :=
  { s with below := f s.below }

theorem onBelow_projects {x : Op τ α} {y : Op σ α} (hx : x.Projects heed f y) :
    (onBelow x : Op (Soft κ τ) α).Projects heed (map f) (onBelow y) := by
  rintro env ⟨pinned, pinCapacity, reclaimer, s⟩
  obtain ⟨hresult, hstate, hevents⟩ := hx ((env.also pinned).also reclaimer) s
  exact ⟨hresult, congrArg (mk pinned pinCapacity reclaimer) hstate, hevents⟩

theorem ask_projects (g : Ambient → Reclaimer κ → α) :
    (ask g : Op (Soft κ τ) α).Projects heed (map f) (ask g) := fun _ _ => ⟨rfl, rfl, rfl⟩

theorem tell_projects (g : Ambient → Reclaimer κ → α × Reclaimer κ) :
    (tell g : Op (Soft κ τ) α).Projects heed (map f) (tell g) := fun _ _ => ⟨rfl, rfl, rfl⟩

theorem sweeping_projects (g : Ambient → Reclaimer κ → Nat × Reclaimer κ) :
    (sweeping g : Op (Soft κ τ) Nat).Projects heed (map f) (sweeping g) := by
  refine (tell_projects g).bind fun reclaimed => ?_
  split
  · exact (Op.projects_emit _).bind fun _ => Op.projects_pure _
  · exact Op.projects_pure _

theorem pin_projects (v : Value) :
    (Op.update (pin v) : Op (Soft κ τ) Unit).Projects heed (map f) (Op.update (pin v)) :=
  Op.projects_update fun _ => rfl

theorem unpin_projects : Op.Projects heed (map f : Soft κ τ → Soft κ σ)
    (Op.update fun s => { s with pinned := [] }) (Op.update fun s => { s with pinned := [] }) :=
  Op.projects_update fun _ => rfl

theorem readId_projects [Store τ κ Handle] [Store σ κ Handle] (h : Projection heed f) :
    Op.Projects heed (map f : Soft κ τ → Soft κ σ) (Op.read fun s => Store.id s.below)
      (Op.read fun s => Store.id s.below) := Op.projects_read fun s => h.id_eq s.below

variable [DecidableEq κ] [Std.TransOrd κ]

theorem setCapacity_projects (n : Nat) :
    (setCapacity n : Op (Soft κ τ) (Except Fault Unit)).Projects heed (map f) (setCapacity n) := by
  refine (tell_projects _).bind fun reclaimed => ?_
  cases reclaimed with
  | error e => exact Op.projects_pure _
  | ok reclaimed =>
    dsimp only
    split
    · exact (Op.projects_emit _).bind fun _ => Op.projects_pure _
    · exact Op.projects_pure _

theorem retain_projects (k : κ) (v : Value) :
    (retain k v : Op (Soft κ τ) Unit).Projects heed (map f) (retain k v) :=
  (sweeping_projects _).bind fun _ => Op.projects_pure _

theorem refresh_projects (k : κ) (v : Value) :
    (refresh k v : Op (Soft κ τ) Unit).Projects heed (map f) (refresh k v) :=
  (sweeping_projects _).bind fun _ => Op.projects_pure _

theorem forget_projects (k : κ) :
    (forget k : Op (Soft κ τ) Unit).Projects heed (map f) (forget k) := tell_projects _

variable [Store τ κ Handle] [Store σ κ Handle]

theorem drainKey_projects (h : Projection heed f) (removed : Nat) (k : κ) :
    (drainKey removed k : Op (Soft κ τ) Nat).Projects heed (map f) (drainKey removed k) := by
  refine (tell_projects _).bind fun _ => (ask_projects _).bind fun hasLive => ?_
  split
  · exact Op.projects_pure _
  · exact (onBelow_projects (h.erase k)).bind fun _ => Op.projects_pure _

theorem drain_projects (h : Projection heed f) :
    (drain : Op (Soft κ τ) Unit).Projects heed (map f) drain := by
  refine (ask_projects _).bind fun posted => ?_
  refine (Op.Projects.foldl (drainKey_projects h) 0 posted).bind fun removed => ?_
  split
  · exact (readId_projects h).bind fun _ => Op.projects_emit _
  · exact Op.projects_pure _

theorem projection_map (h : Projection heed f) :
    Projection heed (map f : Soft κ τ → Soft κ σ) where
  id_eq s := h.id_eq s.below
  hasLock_eq _ := rfl
  size := (drain_projects h).bind fun _ => onBelow_projects h.size
  write k v := by
    refine Op.Projects.holding ?_ v
    refine (drain_projects h).bind fun _ => (retain_projects k v).bind fun _ => ?_
    exact onBelow_projects (h.write k _)
  writeMiss k := by
    refine (drain_projects h).bind fun _ => (forget_projects k).bind fun _ => ?_
    exact onBelow_projects (h.write k _)
  read k := by
    refine (onBelow_projects (h.read k)).bind fun found => ?_
    cases found with
    | none => exact Op.projects_pure _
    | some handle =>
      refine (ask_projects _).bind fun alive => ?_
      split
      · exact (refresh_projects k _).bind fun _ => (pin_projects _).bind fun _ => Op.projects_pure _
      · refine (forget_projects k).bind fun _ => ?_
        exact (onBelow_projects (h.erase k)).bind fun _ => Op.projects_pure _
  erase k := by
    refine (drain_projects h).bind fun _ => (onBelow_projects (h.erase k)).bind fun _ => ?_
    exact (ask_projects _).bind fun _ => (forget_projects k).bind fun _ => Op.projects_pure _
  clear := by
    refine unpin_projects.bind fun _ => (drain_projects h).bind fun _ => ?_
    exact (tell_projects _).bind fun _ => onBelow_projects h.clear

end Soft

/-! ## Stacks and chains -/

namespace Stack

variable {κ ν β γ : Type} {heed : Event → Bool} {f : β → γ}

/-- The stack over another base. -/
def map (f : β → γ) : (layers : List Layer) → Stack κ ν β layers → Stack κ ν γ layers
  | [], s => f s
  | .metered :: layers, s => Metered.map (map f layers) s
  | .wrapped :: layers, s => Wrapped.map (map f layers) s
  | .session :: layers, s => Session.map (map f layers) s

variable [Keeper ν]

theorem projection_map [DecidableEq κ] [Store β κ ν] [Store γ κ ν] (h : Projection heed f)
    (layers : List Layer) :
    Projection heed (map f layers : Stack κ ν β layers → Stack κ ν γ layers) := by
  induction layers with
  | nil => exact h
  | cons layer layers ih =>
    cases layer with
    | metered => exact Metered.projection_map ih
    | wrapped => exact Wrapped.projection_map ih
    | session => exact Session.projection_map ih

end Stack

namespace Chain

variable {κ : Type} [Ord κ] {base base' : Type → Type} {heed : Event → Bool}
  {f : {ν : Type} → base ν → base' ν}

/-- The chain over other base stores. -/
def map (f : {ν : Type} → base ν → base' ν) :
    (shape : Shape) → Chain κ base shape → Chain κ base' shape
  | .plain layers, c => Stack.map f layers c
  | .soft upper lower, c => Stack.map (Soft.map (Stack.map f lower)) upper c

theorem projection_map [DecidableEq κ] [Std.TransOrd κ] [Store (base Value) κ Value]
    [Store (base Handle) κ Handle] [Store (base' Value) κ Value] [Store (base' Handle) κ Handle]
    (hvalue : Projection heed (f : base Value → base' Value))
    (hhandle : Projection heed (f : base Handle → base' Handle)) (shape : Shape) :
    Projection heed (map f shape : Chain κ base shape → Chain κ base' shape) := by
  cases shape with
  | plain layers => exact Stack.projection_map hvalue layers
  | soft upper lower =>
    exact Stack.projection_map (Soft.projection_map (Stack.projection_map hhandle lower)) upper

end Chain

end SoftTier
