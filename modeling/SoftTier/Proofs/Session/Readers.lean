import SoftTier.Proofs.Session.Isolation

/-!
# Sessions that only read

A session that has written nothing still writes when it ends: it puts a miss under every key that it
found without a value. It does so whatever another session has committed there meanwhile, so an end
of a session that only reads can take a committed value out of the store; it takes out no other.

- `Sharing.onlyReads`: the session has written and cleared nothing since it last ended.
- `Sharing.reader_end_entries`: what the end of such a session leaves.
- `Sharing.reader_drops_committed`: a committed value that is lost.
-/

namespace SoftTier

namespace Sharing

variable {ι κ ν σ : Type}

/-- Whether there was neither a write nor a clear since the last end. -/
def onlyReads : Record ι κ ν σ → Bool
  | [] => true
  | ⟨_, .write _ _, .done, _⟩ :: _ => false
  | ⟨_, .writeMiss _, .done, _⟩ :: _ => false
  | ⟨_, .clear, .done, _⟩ :: _ => false
  | ⟨_, .commit, .done, _⟩ :: _ => true
  | ⟨_, .rollback, .done, _⟩ :: _ => true
  | _ :: past => onlyReads past

/-- A session that only reads has nothing to publish. -/
theorem nothing_gathered [DecidableEq κ] {past : Record ι κ ν σ} (h : onlyReads past = true) :
    cleared past = false ∧ ∀ k, buffered k past = none := by
  induction past with
  | nil => exact ⟨rfl, fun _ => rfl⟩
  | cons e past ih =>
    obtain ⟨i, act, answer, before⟩ := e
    cases act with
    | read k => exact ih h
    | erase k => exact ih h
    | size => exact ih h
    | write k a =>
      cases answer with
      | done => exact absurd h Bool.false_ne_true
      | _ => exact ih h
    | writeMiss k =>
      cases answer with
      | done => exact absurd h Bool.false_ne_true
      | _ => exact ih h
    | clear =>
      cases answer with
      | done => exact absurd h Bool.false_ne_true
      | _ => exact ih h
    | commit =>
      cases answer with
      | done => exact ⟨rfl, fun _ => rfl⟩
      | _ => exact ih h
    | rollback =>
      cases answer with
      | done => exact ⟨rfl, fun _ => rfl⟩
      | _ => exact ih h

variable [DecidableEq κ] [Ord κ] [Std.TransOrd κ]

/-- What a commit leaves under a key of a session that only reads is what a rollback leaves. -/
theorem committed_of_onlyReads {past : Record ι κ ν (Table κ ν)} (h : onlyReads past = true) (k : κ)
    (entry : Option (Option ν)) : committed k past entry = rolledBack k past entry := by
  obtain ⟨hcleared, hbuffered⟩ := nothing_gathered h
  rw [committed, rolledBack, hbuffered, hcleared]
  rfl

variable [DecidableEq ι]

/-- **The end of a session that only reads.** Whatever sessions over one base store do, in whatever
order, a session that has neither written nor cleared since it last ended changes at its commit or
rollback nothing but the keys that it has missed since then: those are left as misses, with whatever
value another session has committed there, and every other key keeps its entry. -/
theorem reader_end_entries [Std.LawfulEqOrd κ] [Keeper ν] (initial : Table κ ν)
    (acts : List (Ambient × ι × Act κ ν)) (i : ι)
    (h : onlyReads (own i ((start initial).run acts).past) = true) :
    let w := (start initial).run acts
    ∀ env act, act = .commit ∨ act = .rollback → ∀ k,
      (w.step env i act).store.entries[k]? =
        if missed k (own i w.past) then some none else w.store.entries[k]? := by
  intro w env act hact k
  have hw : Faithful initial w := (faithful_start initial).run acts
  rw [step_eq]
  rcases hact with rfl | rfl
  · exact (hw.getElem?_published env.visit i k).trans (committed_of_onlyReads h k _)
  · exact hw.getElem?_released env.visit i k

/-- A session has missed one key. At its end that becomes a miss, and the value of another key that
was committed meanwhile stays. -/
theorem reader_keeps_unmissed :
    let a : Value := ⟨0, "a"⟩
    let acts : List (Ambient × Nat × Act Nat Value) :=
      [(1, .read 1), (0, .write 2 a), (0, .commit), (1, .read 2)].map (Ambient.alone, ·)
    let w : Sharing Nat Nat Value (Table Nat Value) := (start (Table.named "users")).run acts
    onlyReads (own 1 w.past) = true ∧
      (w.step .alone 1 .commit).store.entries[1]? = some none ∧
      (w.step .alone 1 .rollback).store.entries[2]? = some (some a) := by
  intro a acts w
  have hreads : onlyReads (own 1 w.past) = true := by decide
  have h := reader_end_entries (Table.named "users") acts 1 hreads
  refine ⟨hreads, ?_, ?_⟩
  · rw [h .alone .commit (.inl rfl)]
    rfl
  · rw [h .alone .rollback (.inr rfl)]
    rfl

/-- A session that only reads has missed a key before another one committed a value there. Either
end of it takes that value out. -/
theorem reader_drops_committed :
    let a : Value := ⟨0, "a"⟩
    let w : Sharing Nat Nat Value (Table Nat Value) := (start (Table.named "users")).run
      ([(1, .read 1), (0, .write 1 a), (0, .commit)].map (Ambient.alone, ·))
    onlyReads (own 1 w.past) = true ∧ w.store.entries[1]? = some (some a) ∧
      (w.step .alone 1 .commit).store.entries[1]? = some none ∧
      (w.step .alone 1 .rollback).store.entries[1]? = some none :=
  ⟨rfl, rfl, rfl, rfl⟩

end Sharing

end SoftTier
