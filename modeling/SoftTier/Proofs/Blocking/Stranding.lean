import SoftTier.Proofs.Blocking.Release

/-!
# Sessions strand no blocked key

Any number of sessions stand over one chain of layers whose base store blocks keys. Calls on the
base store fail as they like, and between the acts of the sessions somebody looks after the soft
layer. A blocked key is always on the notes of some session that will write to it when it ends.

- `Sharing.sought`, `Sharing.ended`: what the record of one session says.
- `Sharing.Noted`: every blocked key is on the notes of a session, and rightly so.
- `Sharing.Upkeep`, `Sharing.Move`: what else happens to the chain.
- `Sharing.blocked_keys_noted`: no key is stranded, whatever happens.
-/

namespace SoftTier

namespace Sharing

variable {ι κ ν σ : Type}

/-! ## What the record of a session says -/

section Record

variable [DecidableEq κ]

/-- Whether a lookup of the key has found nothing since the last end. -/
def sought (k : κ) : Record ι κ ν σ → Bool
  | [] => false
  | e :: past => e.misses k || (!e.ends && sought k past)

/-- Whether nothing was done since the last end. -/
def ended : Record ι κ ν σ → Bool
  | [] => true
  | e :: _ => e.ends

/-- An end is not a lookup. -/
theorem Entry.misses_eq_false_of_ends {e : Entry ι κ ν σ} (h : e.ends = true) (k : κ) :
    e.misses k = false := by
  obtain ⟨i, act, answer, before⟩ := e
  cases act with
  | read k' => exact absurd h (by simp [ends])
  | _ => rfl

/-- Who has just ended has not looked anything up since. -/
theorem sought_eq_false_of_ended {past : Record ι κ ν σ} (h : ended past = true) (k : κ) :
    sought k past = false := by
  cases past with
  | nil => rfl
  | cons e past =>
    have hends : e.ends = true := h
    rw [sought, Entry.misses_eq_false_of_ends hends, hends]
    rfl

end Record

/-! ## The notes of all sessions -/

variable [DecidableEq ι] [DecidableEq κ] {blocked : σ → List κ} {w : Sharing ι κ ν σ}

/-- Every blocked key is on the notes of a session, and a session has nothing on its notes but what
it has missed since it last ended. -/
structure Noted (blocked : σ → List κ) (w : Sharing ι κ ν σ) : Prop where
  blocked_noted : ∀ k ∈ blocked w.store, ∃ i, k ∈ (w.buffers i).missed
  noted_sought : ∀ i, ∀ k ∈ (w.buffers i).missed, sought k (own i w.past) = true

theorem noted_start {store : σ} (h : blocked store = []) :
    Noted blocked (start store : Sharing ι κ ν σ) := by
  constructor
  · intro k hk
    have hnil : k ∈ blocked store := hk
    rw [h] at hnil
    exact absurd hnil List.not_mem_nil
  · exact fun i k hk => absurd hk List.not_mem_nil

/-- A change of the store that blocks nothing. -/
theorem Noted.of_subset (hw : Noted blocked w) {store : σ}
    (hsub : blocked store ⊆ blocked w.store) : Noted blocked { w with store } :=
  ⟨fun k hk => hw.blocked_noted k (hsub hk), hw.noted_sought⟩

theorem step_perform [Keeper ν] [Store σ κ ν] (env : Ambient) (i : ι) (act : Act κ ν) :
    w.step env i act =
      let o := act.perform env ⟨w.buffers i, w.store⟩
      ⟨o.state.below, Function.update w.buffers i o.state.buffer,
        ⟨i, act, .of o.result, w.store⟩ :: w.past⟩ := by
  rw [step]
  dsimp only
  cases (act.perform env ⟨w.buffers i, w.store⟩ : Outcome (Session κ ν σ) _).result with
  | ok answer => rfl
  | error e => rfl

/-- One act of one session. -/
theorem Noted.step [Keeper ν] [Store σ κ ν] (hw : Noted blocked w) (h : Candid blocked)
    (env : Ambient) (i : ι) (act : Act κ ν) : Noted blocked (w.step env i act) := by
  have hacts : Op.Leaves _ _ _ _ := act.perform_accounts h env i ⟨w.buffers i, w.store⟩
  rw [Op.Leaves] at hacts
  rw [step_perform]
  generalize act.perform env ⟨w.buffers i, w.store⟩ = o at hacts
  constructor
  · intro k hk
    dsimp only at hk ⊢
    rcases hacts.noted k hk with hk' | hk'
    · -- whoever had noted the key before still has, as it is blocked
      obtain ⟨j, hj⟩ := hw.blocked_noted k hk'
      refine ⟨j, ?_⟩
      by_cases hji : j = i
      · subst hji
        rw [Function.update_self]
        exact hacts.kept k hj hk
      · rw [Function.update_of_ne hji]
        exact hj
    · refine ⟨i, ?_⟩
      rw [Function.update_self]
      exact hk'
  · intro j k hk
    dsimp only at hk ⊢
    by_cases hij : i = j
    · subst hij
      rw [Function.update_self] at hk
      rw [own_cons_self ⟨i, act, _, w.store⟩ w.past, sought]
      rcases hacts.missed k hk with hmisses | ⟨hends, hk'⟩
      · rw [hmisses, Bool.true_or]
      · rw [hends, hw.noted_sought i k hk', Bool.not_false, Bool.and_self, Bool.or_true]
    · rw [Function.update_of_ne (Ne.symm hij)] at hk
      rw [own_cons_of_ne hij]
      exact hw.noted_sought j k hk

/-- A key that is blocked has been missed by a session that has not ended since. -/
theorem Noted.blocked_sought (hw : Noted blocked w) {k : κ} (hk : k ∈ blocked w.store) :
    ∃ i, k ∈ (w.buffers i).missed ∧ sought k (own i w.past) = true := by
  obtain ⟨i, hi⟩ := hw.blocked_noted k hk
  exact ⟨i, hi, hw.noted_sought i k hi⟩

/-- When every session has ended, nothing is blocked. -/
theorem Noted.blocked_eq_nil (hw : Noted blocked w) (h : ∀ i, ended (own i w.past) = true) :
    blocked w.store = [] := by
  refine List.eq_nil_iff_forall_not_mem.mpr fun k hk => ?_
  obtain ⟨i, -, hi⟩ := hw.blocked_sought hk
  rw [sought_eq_false_of_ended (h i)] at hi
  exact absurd hi Bool.false_ne_true

/-! ## Sessions over a chain -/

variable [Ord κ] [Std.TransOrd κ]

/-- What is done with a soft layer apart from requests. -/
inductive Upkeep where
  | sweep
  | shrink (target : Nat)
  | setCapacity (n : Nat)
  | setPinCapacity (n : Nat)

/-- Does what is to be done with the soft layer. -/
def Upkeep.perform : Upkeep → Op (Soft κ σ) Unit
  | .sweep => do let _ ← Soft.sweep
  | .shrink target => do let _ ← Soft.shrink target
  | .setCapacity n => do let _ ← Soft.setCapacity n
  | .setPinCapacity n => Op.update (Soft.setPinCapacity n)

/-- Upkeep asks the store below for nothing. -/
theorem Upkeep.perform_follows {T : Course σ} (task : Upkeep) :
    (task.perform : Op (Soft κ σ) Unit).Follows (T.comap Soft.below) := by
  cases task with
  | sweep => exact (Soft.sweeping_follows _).bind fun _ => Op.follows_pure ()
  | shrink target => exact (Soft.sweeping_follows _).bind fun _ => Op.follows_pure ()
  | setCapacity n => exact (Soft.setCapacity_follows n).bind fun _ => Op.follows_pure ()
  | setPinCapacity n => exact Op.follows_update fun s => T.refl s.below

/-- Something that happens to a chain under sessions. -/
inductive Move (ι κ : Type) where
  | act (i : ι) (act : Act κ Value)
  | upkeep (task : Upkeep)

section Moves

variable {base : Type → Type} [Store (base Value) κ Value] [Store (base Handle) κ Handle]
  {shape : Chain.Shape}

/-- Lets something happen. -/
def move (env : Ambient) (w : Sharing ι κ Value (Chain κ base shape)) :
    Move ι κ → Sharing ι κ Value (Chain κ base shape)
  | .act i act => w.step env i act
  | .upkeep task => { w with store := (Chain.onSoft task.perform shape env w.store).state }

/-- Lets things happen in turn, each in surroundings of its own. -/
def moves (w : Sharing ι κ Value (Chain κ base shape)) (ms : List (Ambient × Move ι κ)) :
    Sharing ι κ Value (Chain κ base shape) := ms.foldl (fun w (env, m) => w.move env m) w

end Moves

section Stranding

variable {shape : Chain.Shape} {w : Sharing ι κ Value (Chain κ (fun ν => Probe κ ν) shape)}

theorem Noted.move (hw : Noted (Chain.blocked shape) w) (hshape : shape.Forwarding) (env : Ambient)
    (m : Move ι κ) : Noted (Chain.blocked shape) (w.move env m) := by
  cases m with
  | act i act => exact hw.step (Chain.candid hshape) env i act
  | upkeep task =>
    have hsoft :=
      Chain.onSoft_follows task.perform_follows (.narrowing Probe.blocked) shape env w.store
    refine hw.of_subset ?_
    cases shape <;> exact hsoft

theorem Noted.moves (hw : Noted (Chain.blocked shape) w) (hshape : shape.Forwarding)
    (ms : List (Ambient × Move ι κ)) : Noted (Chain.blocked shape) (w.moves ms) := by
  induction ms generalizing w with
  | nil => exact hw
  | cons m ms ih => exact ih (hw.move hshape m.1 m.2)

/-- **Sessions strand no blocked key.** Over a chain of counting and wrapping layers, with or
without a soft one, let any number of sessions do whatever they like in whatever order, let calls on
the base store fail in whatever pattern, and let the soft layer sweep and change its bounds in
between. Every key that the base store then blocks is one that some session has missed: it has
looked the key up, has neither committed nor rolled back since, and has the key on its notes. So
when every session has ended, the base store blocks nothing. -/
theorem blocked_keys_noted (hshape : shape.Forwarding)
    (initial : Chain κ (fun ν => Probe κ ν) shape) (hinitial : Chain.blocked shape initial = [])
    (ms : List (Ambient × Move ι κ)) :
    let w : Sharing ι κ Value (Chain κ (fun ν => Probe κ ν) shape) := (start initial).moves ms
    (∀ k ∈ Chain.blocked shape w.store,
      ∃ i, k ∈ (w.buffers i).missed ∧ sought k (own i w.past) = true) ∧
    ((∀ i, ended (own i w.past) = true) → Chain.blocked shape w.store = []) := by
  intro w
  have hw : Noted (Chain.blocked shape) w := (noted_start hinitial).moves hshape ms
  exact ⟨fun k hk => hw.blocked_sought hk, hw.blocked_eq_nil⟩

/-- Two sessions have missed a key through a soft layer. The commit of one of them fails, and the
key stays blocked; once both have ended, it is free. -/
theorem missed_key_freed :
    let faults : Faults Nat := fun n _ => if n = 2 then some (.backend "down") else none
    let shape : Chain.Shape := .soft [.metered] [.wrapped]
    ∃ layer, Soft.ofSettings ⟨1, 8⟩ (Stack.fresh (.named "users" true false faults) [.wrapped]) =
        .ok layer ∧
      let initial : Chain Nat (fun ν => Probe Nat ν) shape := Stack.fresh layer [.metered]
      let begun : List (Ambient × Move (Fin 2) Nat) :=
        [.act 0 (.read 1), .act 1 (.read 1), .upkeep .sweep, .act 0 .commit].map (.alone, ·)
      let w := (start initial).moves begun
      let w' := (start initial).moves
        (begun ++ [.act 0 .rollback, .act 1 .commit].map (.alone, ·))
      shape.Forwarding ∧ Chain.blocked shape initial = [] ∧ Chain.blocked shape w.store = [1] ∧
        (∃ i, 1 ∈ (w.buffers i).missed ∧ sought 1 (own i w.past) = true) ∧
        (∀ i, ended (own i w'.past) = true) ∧ Chain.blocked shape w'.store = [] := by
  intro faults shape
  refine ⟨_, rfl, ?_⟩
  intro initial begun w w'
  have hshape : shape.Forwarding := by decide
  have hinitial : Chain.blocked shape initial = [] := rfl
  have hblocked : Chain.blocked shape w.store = [1] := by decide
  have hended : ∀ i, ended (own i w'.past) = true := Fin.forall_fin_two.mpr ⟨by decide, by decide⟩
  obtain ⟨hnoted, -⟩ := blocked_keys_noted hshape initial hinitial begun
  obtain ⟨-, hfree⟩ := blocked_keys_noted hshape initial hinitial
    (begun ++ [.act 0 .rollback, .act 1 .commit].map (.alone, ·))
  refine ⟨hshape, hinitial, hblocked, hnoted 1 ?_, hended, hfree hended⟩
  rw [hblocked]
  exact List.mem_singleton_self 1

end Stranding

end Sharing

end SoftTier
