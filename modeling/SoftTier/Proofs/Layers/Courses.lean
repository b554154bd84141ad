import SoftTier.Chain
import SoftTier.Proofs.Layers.Requests
import SoftTier.Proofs.Op

/-!
# What every layer hands on

Whatever a layer does to the store below it, it does by requests, one after the other up to the
first that fails. So what holds of each request, as far as it is told from the states before and
after and from the failure, holds of every request to the layer. Such a relation is a *course*: it
allows that nothing is done, and it allows one step after another.

- `Course`: what may become of a state, with a failure or without one.
- `Op.Follows`: an operation keeps to a course; `Op.Follows.bind`, `Op.follows_foldl` for blocks of
  steps and runs over lists.
- `Op.Lifts`: an operation of the store below, done by a layer.
- `Abiding`: every request to a store keeps to a course.
- `Metered.abiding`, `Wrapped.abiding`, `Session.abiding`, `Soft.abiding`: each layer hands that on.
- `Stack.abiding`, `Chain.abiding`: so does any number of layers.
- `Chain.onSoft_follows`: what is done with a soft layer apart from requests.
-/

namespace SoftTier

/-! ## Courses -/

/-- What may become of a state, with a failure or without one. -/
structure Course (σ : Type) where
  leads : σ → Option Failure → σ → Prop
  refl : ∀ s, leads s none s
  trans : ∀ {s s' s'' failure}, leads s none s' → leads s' failure s'' → leads s failure s''

namespace Course

variable {σ τ : Type}

/-- A course for a part of the state. -/
def comap (f : τ → σ) (T : Course σ) : Course τ where
  leads t failure t' := T.leads (f t) failure (f t')
  refl t := T.refl (f t)
  trans := T.trans

/-- Whether or not there is a failure, what is so stays so. -/
def keeping (I : σ → Prop) : Course σ where
  leads s _ s' := I s → I s'
  refl _ h := h
  trans hfirst hsecond h := hsecond (hfirst h)

/-- Whether or not there is a failure, a part of the state stays as it is. -/
def fixing {γ : Type} (view : σ → γ) : Course σ where
  leads s _ s' := view s' = view s
  refl _ := rfl
  trans hfirst hsecond := hsecond.trans hfirst

/-- Whether or not there is a failure, nothing is added to a list. -/
def narrowing {κ : Type} (keys : σ → List κ) : Course σ where
  leads s _ s' := keys s' ⊆ keys s
  refl _ := List.Subset.refl _
  trans hfirst hsecond := List.Subset.trans hsecond hfirst

end Course

namespace Op

variable {σ τ α β : Type} {T : Course σ}

/-- The failure, if that is what came of an operation. -/
def failure? : Except Failure α → Option Failure
  | .ok _ => none
  | .error e => some e

theorem failure?_eq_some_iff {r : Except Failure α} {e : Failure} :
    failure? r = some e ↔ r = .error e := by
  cases r with
  | ok a => simp [failure?]
  | error e' => simp [failure?]

/-- The operation keeps to a course. -/
def Follows (T : Course σ) (x : Op σ α) : Prop :=
  ∀ env s, x.Leaves env s fun r s' => T.leads s (failure? r) s'

theorem follows_pure (a : α) : (pure a : Op σ α).Follows T := fun _ s => T.refl s

theorem follows_read (f : σ → α) : (read f).Follows T := fun _ s => T.refl s

theorem follows_emit (e : Event) : (emit e : Op σ Unit).Follows T := fun _ s => T.refl s

theorem follows_visiting (l : List α) : (visiting l : Op σ (List α)).Follows T :=
  fun _ s => T.refl s

theorem follows_update {f : σ → σ} (hf : ∀ s, T.leads s none (f s)) : (update f).Follows T :=
  fun _ s => hf s

theorem Follows.bind {x : Op σ α} {f : α → Op σ β} (hx : x.Follows T)
    (hf : ∀ a, (f a).Follows T) : (x >>= f).Follows T := by
  intro env s
  refine (hx env s).bind ?_ ?_
  · intro a s' hfirst
    exact (hf a env s').imp fun r s'' hsecond => T.trans hfirst hsecond
  · intro e s' hfailed
    exact hfailed

theorem Follows.holding {x : Op σ α} (hx : x.Follows T) (v : Value) :
    (holding v x).Follows T := fun env s => (hx (env.also v) s).holding

/-- By induction on the list, as a course allows one step after another. -/
theorem follows_foldl {g : β → α → Op σ β} (hg : ∀ b a, (g b a).Follows T) (b : β) (l : List α) :
    (foldl g b l).Follows T := by
  induction l generalizing b with
  | nil => exact follows_pure b
  | cons a l ih =>
    rw [foldl_cons]
    exact (hg b a).bind ih

theorem follows_each {g : α → Op σ Unit} (hg : ∀ a, (g a).Follows T) (l : List α) :
    (each g l).Follows T := follows_foldl (fun _ => hg) () l

theorem follows_fail {I : σ → Prop} (e : Failure) : (fail e : Op σ α).Follows (.keeping I) :=
  fun _ _ h => h

/-- What is tried does not fail, so the course has to allow what it did without a failure. -/
theorem Follows.attempt {I : σ → Prop} {x : Op σ α} (hx : x.Follows (.keeping I)) :
    (attempt x).Follows (.keeping I) := hx

/-! ## Operations of the store below -/

/-- A lifted operation does to the store below what it is, in surroundings of the layer's choice. -/
def Lifts (below : τ → σ) (lift : {α : Type} → Op σ α → Op τ α) : Prop :=
  ∀ env t, ∃ env', ∀ {α : Type} (x : Op σ α),
    (lift x env t).result = (x env' (below t)).result ∧
      below (lift x env t).state = (x env' (below t)).state

variable {below : τ → σ} {lift : {α : Type} → Op σ α → Op τ α}

theorem Lifts.leaves (h : Lifts below lift) {Q : σ → Except Failure α → σ → Prop} {x : Op σ α}
    (hx : ∀ env s, x.Leaves env s (Q s)) (env : Ambient) (t : τ) :
    (lift x).Leaves env t fun r t' => Q (below t) r (below t') := by
  obtain ⟨env', henv⟩ := h env t
  obtain ⟨hresult, hstate⟩ := henv x
  show Q (below t) (lift x env t).result (below (lift x env t).state)
  rw [hresult, hstate]
  exact hx env' (below t)

theorem Lifts.follows (h : Lifts below lift) {x : Op σ α} (hx : x.Follows T) :
    (lift x).Follows (T.comap below) := fun env t =>
  h.leaves (Q := fun s r s' => T.leads s (failure? r) s') hx env t

end Op

/-! ## Stores -/

/-- Every request to the store keeps to a course. -/
structure Abiding {σ κ ν : Type} [Store σ κ ν] (T : Course σ) : Prop where
  size : (Store.size : Op σ Nat).Follows T
  write : ∀ k a, (Store.write k a : Op σ Unit).Follows T
  writeMiss : ∀ k, (Store.writeMiss k : Op σ Unit).Follows T
  read : ∀ k, (Store.read k : Op σ (Option ν)).Follows T
  erase : ∀ k, (Store.erase k : Op σ (Option ν)).Follows T
  clear : (Store.clear : Op σ Unit).Follows T

/-- So does asking it for anything. -/
theorem Abiding.perform {σ κ ν : Type} [Store σ κ ν] {T : Course σ} (h : Abiding T)
    (q : Request κ ν) : (q.perform : Op σ (Sharing.Answer ν)).Follows T := by
  cases q with
  | size => exact h.size.bind fun _ => Op.follows_pure _
  | write k a => exact (h.write k a).bind fun _ => Op.follows_pure _
  | writeMiss k => exact (h.writeMiss k).bind fun _ => Op.follows_pure _
  | read k => exact (h.read k).bind fun _ => Op.follows_pure _
  | erase k => exact (h.erase k).bind fun _ => Op.follows_pure _
  | clear => exact h.clear.bind fun _ => Op.follows_pure _

section Forwarding

variable {σ κ ν : Type} [Store σ κ ν] {T : Course σ}

theorem Metered.lifts : Op.Lifts Metered.below (Metered.onBelow : {α : Type} → Op σ α → _) :=
  fun env _ => ⟨env, fun _ => ⟨rfl, rfl⟩⟩

theorem Metered.count_follows (f : Tally → Tally) :
    (Metered.count f : Op (Metered σ) Unit).Follows (T.comap Metered.below) :=
  Op.follows_update fun s => T.refl s.below

theorem Metered.abiding (h : Abiding T) : Abiding (T.comap (Metered.below (σ := σ))) where
  size := Metered.lifts.follows h.size
  write k a := (Metered.count_follows _).bind fun _ => Metered.lifts.follows (h.write k a)
  writeMiss k := (Metered.count_follows _).bind fun _ => Metered.lifts.follows (h.writeMiss k)
  read k := by
    refine (Metered.lifts.follows (h.read k)).bind fun found => ?_
    refine (Metered.count_follows _).bind fun _ => (Op.follows_read _).bind fun _ => ?_
    exact (Op.follows_emit _).bind fun _ => Op.follows_pure _
  erase k := (Metered.count_follows _).bind fun _ => Metered.lifts.follows (h.erase k)
  clear := Metered.lifts.follows h.clear

theorem Wrapped.lifts : Op.Lifts Wrapped.below (Wrapped.onBelow : {α : Type} → Op σ α → _) :=
  fun env _ => ⟨env, fun _ => ⟨rfl, rfl⟩⟩

theorem Wrapped.abiding (h : Abiding T) : Abiding (T.comap (Wrapped.below (σ := σ))) where
  size := Wrapped.lifts.follows h.size
  write k a := Wrapped.lifts.follows (h.write k a)
  writeMiss k := Wrapped.lifts.follows (h.writeMiss k)
  read k := Wrapped.lifts.follows (h.read k)
  erase k := Wrapped.lifts.follows (h.erase k)
  clear := Wrapped.lifts.follows h.clear

end Forwarding

/-! ## Sessions -/

namespace Buffer

variable {σ κ ν : Type} [Store σ κ ν] {T : Course σ}

theorem send_follows (h : Abiding T) (e : κ × Option ν) : (send e : Op σ Unit).Follows T := by
  obtain ⟨k, entry⟩ := e
  cases entry with
  | none => exact h.writeMiss k
  | some a => exact h.write k a

theorem flush_follows (h : Abiding T) (b : Buffer κ ν) : (b.flush : Op σ Unit).Follows T := by
  have hsend : Op.Follows T (do Op.each send (← Op.visiting b.pending)) :=
    (Op.follows_visiting _).bind fun l => Op.follows_each (send_follows h) l
  rw [flush]
  cases b.clears with
  | true => exact h.clear.bind fun _ => hsend
  | false => exact hsend

theorem freeAll_follows (h : Abiding T) (b : Buffer κ ν) : (b.freeAll : Op σ Unit).Follows T :=
  (Op.follows_visiting _).bind fun l => Op.follows_each h.writeMiss l

theorem freeMissed_follows [DecidableEq κ] (h : Abiding T) (b : Buffer κ ν) :
    (b.freeMissed : Op σ Unit).Follows T :=
  (Op.follows_visiting _).bind fun _ => Op.follows_each h.writeMiss _

end Buffer

namespace Session

variable {σ κ ν : Type} {T : Course σ}

theorem note_follows (f : Buffer κ ν → Buffer κ ν) :
    (note f : Op (Session κ ν σ) Unit).Follows (T.comap below) :=
  Op.follows_update fun s => T.refl s.below

variable [Keeper ν]

theorem lifts : Op.Lifts below (onBelow : {α : Type} → Op σ α → Op (Session κ ν σ) α) :=
  fun env s => ⟨env.also s.buffer, fun _ => ⟨rfl, rfl⟩⟩

variable [Store σ κ ν] {I : σ → Prop}

theorem rollback_follows (h : Abiding (.keeping I)) :
    (rollback : Op (Session κ ν σ) Unit).Follows (Course.comap below (.keeping I)) := by
  refine (Op.follows_read _).bind fun b => (Op.follows_read _).bind fun name => ?_
  refine (lifts.follows (b.freeAll_follows h)).bind fun _ => ?_
  exact (Op.follows_emit _).bind fun _ => note_follows _

variable [DecidableEq κ]

/-- A session asks the store below for lookups and its size only; the rest stays in the buffer. -/
theorem abiding (h : Abiding T) : Abiding (T.comap (below : Session κ ν σ → σ)) where
  size := lifts.follows h.size
  write _ _ := note_follows _
  writeMiss _ := note_follows _
  read k := by
    refine (lifts.follows (h.read k)).bind fun found => ?_
    -- a key is noted if nothing was found, which changes no more than the buffer
    dsimp only
    split
    · exact (note_follows _).bind fun _ => (Op.follows_read _).bind fun _ => Op.follows_pure _
    · exact (Op.follows_read _).bind fun _ => Op.follows_pure _
  erase _ := Op.follows_pure _
  clear := note_follows _

/-- A commit that fails goes on after the failure, so the course has to allow that. -/
theorem commit_follows (h : Abiding (.keeping I)) :
    (commit : Op (Session κ ν σ) Unit).Follows (Course.comap below (.keeping I)) := by
  refine (Op.follows_read _).bind fun b => (Op.follows_read _).bind fun name => ?_
  have hfree : (onBelow b.freeMissed : Op (Session κ ν σ) Unit).Follows
      (Course.comap below (.keeping I)) := lifts.follows (b.freeMissed_follows h)
  refine (lifts.follows (b.flush_follows h)).attempt.bind fun published => ?_
  cases published with
  | error e =>
    refine hfree.attempt.bind fun freed => ?_
    cases freed with
    | error e' => exact (Op.follows_emit _).bind fun _ => Op.follows_fail e
    | ok _ => exact (Op.follows_pure ()).bind fun _ => Op.follows_fail e
  | ok _ => exact hfree.bind fun _ => (Op.follows_emit _).bind fun _ => note_follows _

end Session

/-! ## The soft layer

What a soft layer does is put together from a few parts: it asks its reclaimer, it changes it, it
changes its pins and it calls the store below. A course that these parts keep to is one that all of
it keeps to. -/

namespace Soft

section Parts

variable {κ σ α : Type} [Ord κ] {T : Course (Soft κ σ)}

theorem ask_follows (f : Ambient → Reclaimer κ → α) : (ask f : Op (Soft κ σ) α).Follows T :=
  fun _ s => T.refl s

theorem sweeping_follows_of {f : Ambient → Reclaimer κ → Nat × Reclaimer κ}
    (htell : (tell f : Op (Soft κ σ) Nat).Follows T) : (sweeping f).Follows T := by
  refine htell.bind fun reclaimed => ?_
  split
  · exact (Op.follows_emit _).bind fun _ => Op.follows_pure _
  · exact Op.follows_pure _

variable [DecidableEq κ] [Std.TransOrd κ]

theorem setCapacity_follows_of (n : Nat)
    (htell : ∀ f, (tell f : Op (Soft κ σ) (Except Fault Nat)).Follows T) :
    (setCapacity n : Op (Soft κ σ) (Except Fault Unit)).Follows T := by
  refine (htell _).bind fun reclaimed => ?_
  cases reclaimed with
  | error e => exact Op.follows_pure _
  | ok reclaimed =>
    dsimp only
    split
    · exact (Op.follows_emit _).bind fun _ => Op.follows_pure _
    · exact Op.follows_pure _

theorem retain_follows_of {k : κ} {v : Value}
    (htell : (tell fun env r => r.retain env k v : Op (Soft κ σ) Nat).Follows T) :
    (retain k v : Op (Soft κ σ) Unit).Follows T :=
  (sweeping_follows_of htell).bind fun _ => Op.follows_pure _

theorem refresh_follows_of {k : κ} {v : Value}
    (htell : (tell fun env r => r.refresh env k v : Op (Soft κ σ) Nat).Follows T) :
    (refresh k v : Op (Soft κ σ) Unit).Follows T :=
  (sweeping_follows_of htell).bind fun _ => Op.follows_pure _

variable [Store σ κ Handle]

theorem drainKey_follows_of (htell : ∀ f, (tell f : Op (Soft κ σ) Unit).Follows T)
    (herase : ∀ k, (onBelow (Store.erase k) : Op (Soft κ σ) (Option Handle)).Follows T)
    (removed : Nat) (k : κ) : (drainKey removed k : Op (Soft κ σ) Nat).Follows T := by
  refine (htell _).bind fun _ => (ask_follows _).bind fun hasLive => ?_
  split
  · exact Op.follows_pure _
  · exact (herase k).bind fun _ => Op.follows_pure _

theorem drain_follows_of (htell : ∀ f, (tell f : Op (Soft κ σ) Unit).Follows T)
    (herase : ∀ k, (onBelow (Store.erase k) : Op (Soft κ σ) (Option Handle)).Follows T) :
    (drain : Op (Soft κ σ) Unit).Follows T := by
  refine (ask_follows _).bind fun posted => ?_
  refine (Op.follows_foldl (drainKey_follows_of htell herase) 0 posted).bind fun removed => ?_
  split
  · exact (Op.follows_read _).bind fun _ => Op.follows_emit _
  · exact Op.follows_pure _

theorem size_follows_of (hdrain : (drain : Op (Soft κ σ) Unit).Follows T)
    (hsize : (onBelow Store.size : Op (Soft κ σ) Nat).Follows T) :
    (Store.size : Op (Soft κ σ) Nat).Follows T := hdrain.bind fun _ => hsize

theorem write_follows_of {k : κ} {v : Value} (hdrain : (drain : Op (Soft κ σ) Unit).Follows T)
    (hretain : (retain k v : Op (Soft κ σ) Unit).Follows T)
    (hwrite : (onBelow (Store.write k (.ofValue v)) : Op (Soft κ σ) Unit).Follows T) :
    (Store.write k v : Op (Soft κ σ) Unit).Follows T :=
  Op.Follows.holding (hdrain.bind fun _ => hretain.bind fun _ => hwrite) v

theorem writeMiss_follows_of {k : κ} (hdrain : (drain : Op (Soft κ σ) Unit).Follows T)
    (hforget : (forget k : Op (Soft κ σ) Unit).Follows T)
    (hwrite : (onBelow (Store.write k .dead) : Op (Soft κ σ) Unit).Follows T) :
    (Store.writeMiss k : Op (Soft κ σ) Unit).Follows T :=
  hdrain.bind fun _ => hforget.bind fun _ => hwrite

theorem erase_follows_of {k : κ} (hdrain : (drain : Op (Soft κ σ) Unit).Follows T)
    (herase : (onBelow (Store.erase k) : Op (Soft κ σ) (Option Handle)).Follows T)
    (hforget : (forget k : Op (Soft κ σ) Unit).Follows T) :
    (Store.erase k : Op (Soft κ σ) (Option Value)).Follows T := by
  refine hdrain.bind fun _ => herase.bind fun _ => (ask_follows _).bind fun _ => ?_
  exact hforget.bind fun _ => Op.follows_pure _

theorem clear_follows_of
    (hunpin : (Op.update fun s => { s with pinned := [] } : Op (Soft κ σ) Unit).Follows T)
    (hdrain : (drain : Op (Soft κ σ) Unit).Follows T)
    (hreset : (tell fun _ r => ((), r.reset) : Op (Soft κ σ) Unit).Follows T)
    (hclear : (onBelow Store.clear : Op (Soft κ σ) Unit).Follows T) :
    (Store.clear : Op (Soft κ σ) Unit).Follows T :=
  hunpin.bind fun _ => hdrain.bind fun _ => hreset.bind fun _ => hclear

/-- What a lookup does with the handle that it has found: either the value is alive and is read, or
it is dead and its entry is taken out. -/
theorem found_follows_of {k : κ} (hrefresh : ∀ v, (refresh k v : Op (Soft κ σ) Unit).Follows T)
    (hpin : ∀ v, (Op.update (pin v) : Op (Soft κ σ) Unit).Follows T)
    (hforget : (forget k : Op (Soft κ σ) Unit).Follows T)
    (herase : (onBelow (Store.erase k) : Op (Soft κ σ) (Option Handle)).Follows T)
    (handle : Handle) :
    Op.Follows T (do
      match handle.upgrade (← ask fun env r => r.alive env) with
      | some v =>
        refresh k v
        Op.update (pin v)
        return some v
      | none =>
        forget k
        let _ ← onBelow (Store.erase k)
        return none : Op (Soft κ σ) (Option Value)) := by
  refine (ask_follows _).bind fun alive => ?_
  cases handle.upgrade alive with
  | some v => exact (hrefresh v).bind fun _ => (hpin v).bind fun _ => Op.follows_pure _
  | none => exact hforget.bind fun _ => herase.bind fun _ => Op.follows_pure _

theorem read_follows_of {k : κ}
    (hread : (onBelow (Store.read k) : Op (Soft κ σ) (Option Handle)).Follows T)
    (hrefresh : ∀ v, (refresh k v : Op (Soft κ σ) Unit).Follows T)
    (hpin : ∀ v, (Op.update (pin v) : Op (Soft κ σ) Unit).Follows T)
    (hforget : (forget k : Op (Soft κ σ) Unit).Follows T)
    (herase : (onBelow (Store.erase k) : Op (Soft κ σ) (Option Handle)).Follows T) :
    (Store.read k : Op (Soft κ σ) (Option Value)).Follows T := by
  refine hread.bind fun found => ?_
  cases found with
  | none => exact Op.follows_pure _
  | some handle => exact found_follows_of hrefresh hpin hforget herase handle

end Parts

/-! Courses of the store below, to which everything keeps that does not call it. -/

variable {κ σ α : Type} [Ord κ] {T : Course σ}

theorem lifts : Op.Lifts below (onBelow : {α : Type} → Op σ α → Op (Soft κ σ) α) := fun env s =>
  ⟨(env.also s.pinned).also s.reclaimer, fun _ => ⟨rfl, rfl⟩⟩

theorem tell_follows (f : Ambient → Reclaimer κ → α × Reclaimer κ) :
    (tell f : Op (Soft κ σ) α).Follows (T.comap below) := fun _ s => T.refl s.below

theorem pin_follows (v : Value) :
    (Op.update (pin v) : Op (Soft κ σ) Unit).Follows (T.comap below) :=
  Op.follows_update fun s => T.refl s.below

theorem sweeping_follows (f : Ambient → Reclaimer κ → Nat × Reclaimer κ) :
    (sweeping f : Op (Soft κ σ) Nat).Follows (T.comap below) := sweeping_follows_of (tell_follows f)

variable [DecidableEq κ] [Std.TransOrd κ]

theorem setCapacity_follows (n : Nat) :
    (setCapacity n : Op (Soft κ σ) (Except Fault Unit)).Follows (T.comap below) :=
  setCapacity_follows_of n tell_follows

theorem retain_follows (k : κ) (v : Value) :
    (retain k v : Op (Soft κ σ) Unit).Follows (T.comap below) := retain_follows_of (tell_follows _)

theorem refresh_follows (k : κ) (v : Value) :
    (refresh k v : Op (Soft κ σ) Unit).Follows (T.comap below) :=
  refresh_follows_of (tell_follows _)

theorem forget_follows (k : κ) : (forget k : Op (Soft κ σ) Unit).Follows (T.comap below) :=
  tell_follows _

variable [Store σ κ Handle]

theorem drain_follows (h : ∀ k, (Store.erase k : Op σ (Option Handle)).Follows T) :
    (drain : Op (Soft κ σ) Unit).Follows (T.comap below) :=
  drain_follows_of tell_follows fun k => lifts.follows (h k)

theorem size_follows (herase : ∀ k, (Store.erase k : Op σ (Option Handle)).Follows T)
    (h : (Store.size : Op σ Nat).Follows T) :
    (Store.size : Op (Soft κ σ) Nat).Follows (T.comap below) :=
  size_follows_of (drain_follows herase) (lifts.follows h)

theorem erase_follows (h : ∀ k, (Store.erase k : Op σ (Option Handle)).Follows T) (k : κ) :
    (Store.erase k : Op (Soft κ σ) (Option Value)).Follows (T.comap below) :=
  erase_follows_of (drain_follows h) (lifts.follows (h k)) (forget_follows k)

theorem clear_follows (herase : ∀ k, (Store.erase k : Op σ (Option Handle)).Follows T)
    (h : (Store.clear : Op σ Unit).Follows T) :
    (Store.clear : Op (Soft κ σ) Unit).Follows (T.comap below) :=
  clear_follows_of (Op.follows_update fun s => T.refl s.below) (drain_follows herase)
    (tell_follows _) (lifts.follows h)

/-- What a lookup does with the handle that it has found. -/
theorem found_follows (h : ∀ k, (Store.erase k : Op σ (Option Handle)).Follows T) (k : κ)
    (handle : Handle) :
    Op.Follows (T.comap below) (do
      match handle.upgrade (← ask fun env r => r.alive env) with
      | some v =>
        refresh k v
        Op.update (pin v)
        return some v
      | none =>
        forget k
        let _ ← onBelow (Store.erase k)
        return none : Op (Soft κ σ) (Option Value)) :=
  found_follows_of (refresh_follows k) pin_follows (forget_follows k) (lifts.follows (h k)) handle

/-- A soft layer drains, does what it is asked for and takes out what it finds dead. -/
theorem abiding (h : Abiding T) : Abiding (T.comap (below : Soft κ σ → σ)) where
  size := size_follows h.erase h.size
  write k v := write_follows_of (drain_follows h.erase) (retain_follows k v)
    (lifts.follows (h.write k _))
  writeMiss k := writeMiss_follows_of (drain_follows h.erase) (forget_follows k)
    (lifts.follows (h.write k _))
  read k := read_follows_of (lifts.follows (h.read k)) (refresh_follows k) pin_follows
    (forget_follows k) (lifts.follows (h.erase k))
  erase := erase_follows h.erase
  clear := clear_follows h.erase h.clear

end Soft

/-! ## Stacks and chains -/

namespace Stack

variable {κ ν β α : Type} [Keeper ν] {T : Course β}

theorem abiding [DecidableEq κ] [Store β κ ν] (h : Abiding T) (layers : List Layer) :
    Abiding (T.comap (base layers : Stack κ ν β layers → β)) := by
  induction layers with
  | nil => exact h
  | cons layer layers ih =>
    cases layer with
    | metered => exact Metered.abiding ih
    | wrapped => exact Wrapped.abiding ih
    | session => exact Session.abiding ih

theorem onBase_follows {x : Op β α} (hx : x.Follows T) (layers : List Layer) :
    (onBase x layers : Op (Stack κ ν β layers) α).Follows (T.comap (base layers)) := by
  induction layers with
  | nil => exact hx
  | cons layer layers ih =>
    cases layer with
    | metered => exact Metered.lifts.follows ih
    | wrapped => exact Wrapped.lifts.follows ih
    | session => exact Session.lifts.follows ih

end Stack

namespace Chain

variable {κ α : Type} [Ord κ] {base : Type → Type}

/-- A course for the base store, whichever of the two there is. -/
def course (T : {ν : Type} → Course (base ν)) : (shape : Shape) → Course (Chain κ base shape)
  | .plain layers => T.comap (Stack.base layers)
  | .soft upper lower => (T.comap (Stack.base lower)).comap fun c => (Stack.base upper c).below

/-- Whatever the layers are, a request to a chain keeps to every course that the requests to its
base store keep to. -/
theorem abiding [DecidableEq κ] [Std.TransOrd κ] [Store (base Value) κ Value]
    [Store (base Handle) κ Handle] {T : {ν : Type} → Course (base ν)}
    (hvalue : Abiding (T : Course (base Value))) (hhandle : Abiding (T : Course (base Handle)))
    (shape : Shape) : Abiding (course T shape : Course (Chain κ base shape)) := by
  cases shape with
  | plain layers => exact Stack.abiding hvalue layers
  | soft upper lower => exact Stack.abiding (Soft.abiding (Stack.abiding hhandle lower)) upper

/-- What a soft layer does without asking the store below for anything. -/
theorem onSoft_follows {x : {σ : Type} → [Store σ κ Handle] → Op (Soft κ σ) α}
    (hx : ∀ {σ : Type} [Store σ κ Handle] {T : Course σ},
      (x : Op (Soft κ σ) α).Follows (T.comap Soft.below)) [DecidableEq κ] [Std.TransOrd κ]
    [Store (base Value) κ Value] [Store (base Handle) κ Handle]
    (T : {ν : Type} → Course (base ν)) (shape : Shape) :
    (onSoft x shape : Op (Chain κ base shape) (Option α)).Follows (course T shape) := by
  cases shape with
  | plain layers => exact Op.follows_pure _
  | soft upper lower =>
    have hsoft := hx (σ := Stack κ Handle (base Handle) lower) (T := T.comap (Stack.base lower))
    exact (Stack.onBase_follows hsoft upper).bind fun _ => Op.follows_pure _

end Chain

end SoftTier
