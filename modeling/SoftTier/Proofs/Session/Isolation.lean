import SoftTier.Proofs.Session.Operations
import SoftTier.Proofs.Session.Sharing

/-!
# Sessions are isolated

Over a base store that never fails, sessions that share it see of each other what has been committed
and nothing else, and the store is what their ends have made of it, one after the other.

- `Sharing.Act.outcome`, `Sharing.step_eq`: what an act of a session does.
- `Sharing.Agrees`: the buffer of a session holds what the record says it has gathered.
- `Sharing.Faithful`: so it is for every session, and the store is what the ends on record made it.
- `Sharing.sessions_isolated`: what every act of every session does, after any acts.
-/

namespace SoftTier

namespace Sharing

variable {ι κ ν : Type} [DecidableEq κ] [Ord κ] [Std.TransOrd κ]

/-! ## One act -/

/-- What an act is answered, and the buffer and the store after it. -/
def Act.outcome (visit : Visit) (b : Buffer κ ν) (t : Table κ ν) :
    Act κ ν → Answer ν × Buffer κ ν × Table κ ν
  | .write k a => (.done, b.put k (some a), t)
  | .writeMiss k => (.done, b.put k none, t)
  | .read k => (.found (if b.clears then none else t.value? k),
      if (t.value? k).isNone then b.miss k else b, t)
  | .erase _ => (.found none, b, t)
  | .clear => (.done, b.wipe, t)
  | .size => (.count t.entries.size, b, t)
  | .commit => (.done, {}, b.published visit t)
  | .rollback => (.done, {}, b.released visit t)

/-- No act fails. -/
theorem Act.outcome_ne_failed (visit : Visit) (act : Act κ ν) (b : Buffer κ ν) (t : Table κ ν)
    (e : Failure) : (act.outcome visit b t).1 ≠ .failed e := by
  cases act <;> simp [outcome]

theorem perform_yields [Keeper ν] (env : Ambient) (act : Act κ ν) (b : Buffer κ ν)
    (t : Table κ ν) :
    (act.perform : Op (Session κ ν (Table κ ν)) (Answer ν)).Yields env ⟨b, t⟩
      (act.outcome env.visit b t).1
      ⟨(act.outcome env.visit b t).2.1, (act.outcome env.visit b t).2.2⟩ := by
  cases act with
  | write k a => exact (Session.write_yields k a).bind (Op.yields_pure _)
  | writeMiss k => exact (Session.writeMiss_yields k).bind (Op.yields_pure _)
  | read k => exact (Session.read_yields k).bind (Op.yields_pure _)
  | erase k => exact (Session.erase_yields k).bind (Op.yields_pure _)
  | clear => exact Session.clear_yields.bind (Op.yields_pure _)
  | size => exact Session.size_yields.bind (Op.yields_pure _)
  | commit => exact Session.commit_yields.bind (Op.yields_pure _)
  | rollback => exact Session.rollback_yields.bind (Op.yields_pure _)

theorem step_eq [DecidableEq ι] [Keeper ν] (env : Ambient) (w : Sharing ι κ ν (Table κ ν)) (i : ι)
    (act : Act κ ν) :
    w.step env i act =
      let o := act.outcome env.visit (w.buffers i) w.store
      ⟨o.2.2, Function.update w.buffers i o.2.1, ⟨i, act, o.1, w.store⟩ :: w.past⟩ := by
  have h := perform_yields env act (w.buffers i) w.store
  rw [step, h.result_eq, h.state_eq]

/-! ## The buffer of one session -/

/-- The buffer of a session holds what it has gathered by what it did. -/
structure Agrees (b : Buffer κ ν) (past : Record ι κ ν (Table κ ν)) : Prop where
  sound : b.Sound
  clears_eq : b.clears = cleared past
  pending_eq : ∀ k, Assoc.get? k b.pending = buffered k past
  missed_iff : ∀ k, k ∈ b.missed ↔ missed k past = true

namespace Agrees

variable {b : Buffer κ ν} {i : ι} {past : Record ι κ ν (Table κ ν)} {t : Table κ ν}

/-- A session that has ended has gathered nothing. -/
theorem ended {past : Record ι κ ν (Table κ ν)} (hcleared : cleared past = false)
    (hbuffered : ∀ k, buffered k past = none) (hmissed : ∀ k, missed k past = false) :
    Agrees {} past where
  sound := Buffer.sound_empty
  clears_eq := hcleared.symm
  pending_eq k := (hbuffered k).symm
  missed_iff k := by simp [hmissed k]

theorem outcome (h : Agrees b past) (visit : Visit) (act : Act κ ν) :
    Agrees (act.outcome visit b t).2.1 (⟨i, act, (act.outcome visit b t).1, t⟩ :: past) := by
  cases act with
  | write k a =>
    refine { sound := h.sound.put k (some a), clears_eq := h.clears_eq, pending_eq := fun k' => ?_,
             missed_iff := h.missed_iff }
    exact (Assoc.get?_insert ..).trans (congrArg (ite _ _) (h.pending_eq k'))
  | writeMiss k =>
    refine { sound := h.sound.put k none, clears_eq := h.clears_eq, pending_eq := fun k' => ?_,
             missed_iff := h.missed_iff }
    exact (Assoc.get?_insert ..).trans (congrArg (ite _ _) (h.pending_eq k'))
  | read k =>
    have hmissed : ∀ k' found, missed k' (⟨i, .read k, .found found, t⟩ :: past) =
        (decide (k = k') && (t.value? k).isNone || missed k' past) := fun _ _ => rfl
    rw [Act.outcome]
    dsimp only
    cases hnone : (t.value? k).isNone with
    | true =>
      refine { sound := h.sound.miss k, clears_eq := h.clears_eq, pending_eq := h.pending_eq,
               missed_iff := fun k' => ?_ }
      rw [hmissed, hnone, Bool.and_true, Bool.or_eq_true, decide_eq_true_eq, ← h.missed_iff k']
      rw [if_pos rfl, Buffer.miss, List.mem_insert_iff, eq_comm]
    | false =>
      refine { sound := h.sound, clears_eq := h.clears_eq, pending_eq := h.pending_eq,
               missed_iff := fun k' => ?_ }
      rw [hmissed, hnone, Bool.and_false, Bool.false_or]
      exact h.missed_iff k'
  | erase k =>
    exact { sound := h.sound, clears_eq := h.clears_eq, pending_eq := h.pending_eq,
            missed_iff := h.missed_iff }
  | clear =>
    exact { sound := h.sound.wipe, clears_eq := rfl, pending_eq := fun _ => rfl,
            missed_iff := h.missed_iff }
  | size =>
    exact { sound := h.sound, clears_eq := h.clears_eq, pending_eq := h.pending_eq,
            missed_iff := h.missed_iff }
  | commit => exact ended rfl (fun _ => rfl) fun _ => rfl
  | rollback => exact ended rfl (fun _ => rfl) fun _ => rfl

end Agrees

/-! ## Any acts -/

variable [DecidableEq ι]

/-- The buffer of every session holds what the session has gathered, and the store is what the ends
on record have made of it. -/
structure Faithful (initial : Table κ ν) (w : Sharing ι κ ν (Table κ ν)) : Prop where
  agrees : ∀ i, Agrees (w.buffers i) (own i w.past)
  store_eq : ∀ k, w.store.entries[k]? = contents k initial.entries[k]? w.past

theorem faithful_start (initial : Table κ ν) :
    Faithful initial (start initial : Sharing ι κ ν (Table κ ν)) :=
  ⟨fun _ => .ended rfl (fun _ => rfl) fun _ => rfl, fun _ => rfl⟩

namespace Faithful

variable [Std.LawfulEqOrd κ] {initial : Table κ ν} {w : Sharing ι κ ν (Table κ ν)}

/-- What a commit leaves. -/
theorem getElem?_published (h : Faithful initial w) (visit : Visit) (i : ι) (k : κ) :
    ((w.buffers i).published visit w.store).entries[k]? =
      committed k (own i w.past) w.store.entries[k]? := by
  rw [Buffer.getElem?_published (h.agrees i).sound, (h.agrees i).pending_eq k, committed,
    (h.agrees i).clears_eq]
  simp only [(h.agrees i).missed_iff k]
  cases buffered k (own i w.past) with
  | none => rfl
  | some written => rfl

/-- What a rollback leaves. -/
theorem getElem?_released (h : Faithful initial w) (visit : Visit) (i : ι) (k : κ) :
    ((w.buffers i).released visit w.store).entries[k]? =
      rolledBack k (own i w.past) w.store.entries[k]? := by
  rw [Buffer.getElem?_released, rolledBack]
  simp only [(h.agrees i).missed_iff k]

theorem step [Keeper ν] (h : Faithful initial w) (env : Ambient) (i : ι) (act : Act κ ν) :
    Faithful initial (w.step env i act) := by
  rw [step_eq]
  refine ⟨fun j => ?_, fun k => ?_⟩
  · -- the record of one session grows, those of the others stay as they are
    by_cases hj : i = j
    · subst hj
      dsimp only
      rw [own_cons_self ⟨i, act, _, w.store⟩ w.past, Function.update_self]
      exact (h.agrees i).outcome env.visit act
    · dsimp only
      rw [own_cons_of_ne hj, Function.update_of_ne (Ne.symm hj)]
      exact h.agrees j
  · cases act with
    | commit =>
      have hcontents : contents k initial.entries[k]? (⟨i, .commit, .done, w.store⟩ :: w.past) =
          committed k (own i w.past) (contents k initial.entries[k]? w.past) := rfl
      rw [Act.outcome, hcontents, h.getElem?_published, h.store_eq k]
    | rollback =>
      have hcontents : contents k initial.entries[k]? (⟨i, .rollback, .done, w.store⟩ :: w.past) =
          rolledBack k (own i w.past) (contents k initial.entries[k]? w.past) := rfl
      rw [Act.outcome, hcontents, h.getElem?_released, h.store_eq k]
    | write k' a => exact h.store_eq k
    | writeMiss k' => exact h.store_eq k
    | read k' => exact h.store_eq k
    | erase k' => exact h.store_eq k
    | clear => exact h.store_eq k
    | size => exact h.store_eq k

theorem run [Keeper ν] (h : Faithful initial w) (acts : List (Ambient × ι × Act κ ν)) :
    Faithful initial (w.run acts) := by
  induction acts generalizing w with
  | nil => exact h
  | cons a acts ih => exact ih (h.step a.1 a.2.1 a.2.2)

end Faithful

/-- **Sessions are isolated.** Whatever sessions over one base store do, in whatever order, and
however entries without an order are visited, nothing fails, and the store is what their ends have
made of it one after the other. Any act leaves the buffers of the other sessions alone, and the
store too unless it is an end. A commit leaves what was written, a miss under what was missed
besides, and of the rest what was there, unless the session has cleared; a rollback leaves misses
only. A lookup gives what the store has, or nothing once the session has cleared. After an end
nothing is gathered. -/
theorem sessions_isolated [Std.LawfulEqOrd κ] [Keeper ν] (initial : Table κ ν)
    (acts : List (Ambient × ι × Act κ ν)) :
    let w := (start initial).run acts
    (∀ k, w.store.entries[k]? = contents k initial.entries[k]? w.past) ∧
    ∀ env i,
      (∀ act j, j ≠ i → (w.step env i act).buffers j = w.buffers j) ∧
      (∀ act, act ≠ .commit → act ≠ .rollback → (w.step env i act).store = w.store) ∧
      (∀ act, ∃ answer, (w.step env i act).past = ⟨i, act, answer, w.store⟩ :: w.past ∧
        ∀ e, answer ≠ .failed e) ∧
      (w.step env i .commit).past = ⟨i, .commit, .done, w.store⟩ :: w.past ∧
      (∀ k, (w.step env i .commit).store.entries[k]? =
        committed k (own i w.past) w.store.entries[k]?) ∧
      (w.step env i .rollback).past = ⟨i, .rollback, .done, w.store⟩ :: w.past ∧
      (∀ k, (w.step env i .rollback).store.entries[k]? =
        rolledBack k (own i w.past) w.store.entries[k]?) ∧
      (∀ k, (w.step env i (.read k)).past = ⟨i, .read k,
        .found (if cleared (own i w.past) then none else w.store.value? k), w.store⟩ :: w.past) ∧
      (w.step env i .commit).buffers i = {} ∧ (w.step env i .rollback).buffers i = {} := by
  have h := (faithful_start (ι := ι) initial).run acts
  refine ⟨h.store_eq, fun env i => ⟨fun act j hj => ?_, fun act hcommit hrollback => ?_,
    fun act => ?_, ?_, fun k => ?_, ?_, fun k => ?_, fun k => ?_, ?_, ?_⟩⟩
  · -- the other sessions
    rw [step_eq]
    exact Function.update_of_ne hj ..
  · -- the store, but for an end
    rw [step_eq]
    cases act with
    | commit => exact absurd rfl hcommit
    | rollback => exact absurd rfl hrollback
    | write k a => rfl
    | writeMiss k => rfl
    | read k => rfl
    | erase k => rfl
    | clear => rfl
    | size => rfl
  · rw [step_eq]
    exact ⟨_, rfl, Act.outcome_ne_failed env.visit act _ _⟩
  · -- a commit
    rw [step_eq]
    rfl
  · rw [step_eq]
    exact h.getElem?_published env.visit i k
  · -- a rollback
    rw [step_eq]
    rfl
  · rw [step_eq]
    exact h.getElem?_released env.visit i k
  · -- a lookup
    rw [step_eq, ← (h.agrees i).clears_eq]
    rfl
  · -- the buffer after an end
    rw [step_eq]
    exact Function.update_self ..
  · rw [step_eq]
    exact Function.update_self ..

/-- One session reads what another has committed, and clears everything; the key that it missed
before is left as a miss. -/
theorem commit_after_miss :
    let a : Value := ⟨0, "a"⟩
    let b : Value := ⟨1, "b"⟩
    let w : Sharing Nat Nat Value (Table Nat Value) := (start (Table.named "users")).run
      ([(0, .write 1 a), (1, .read 1), (0, .commit), (1, .clear), (1, .write 2 b)].map
        (Ambient.alone, ·))
    w.store.value? 1 = some a ∧
      (w.step .alone 1 (.read 1)).past.head?.map (·.answer) = some (.found none) ∧
      (w.step .alone 1 .commit).store.entries[1]? = some none ∧
      (w.step .alone 1 .commit).store.entries[2]? = some (some b) := by
  obtain ⟨-, h⟩ := sessions_isolated (ι := Nat) (Table.named "users" : Table Nat Value)
    ([(0, .write 1 ⟨0, "a"⟩), (1, .read 1), (0, .commit), (1, .clear), (1, .write 2 ⟨1, "b"⟩)].map
      (Ambient.alone, ·))
  obtain ⟨-, -, -, -, hcommit, -, -, hread, -⟩ := h .alone 1
  dsimp only
  rw [hread, hcommit, hcommit]
  exact ⟨rfl, rfl, rfl, rfl⟩

end Sharing

end SoftTier
