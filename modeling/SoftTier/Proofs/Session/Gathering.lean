import SoftTier.Proofs.Session.Operations
import SoftTier.Proofs.Session.Sharing

/-!
# What a session gathers

Between two ends a session only gathers, and what is in its buffer is told by what it has done: the
last write under each key since the last clear, the keys that it looked up and did not find, and
whether it has cleared at all. Which keys are not found is for the store to say, and may change from
one act to the next.

- `Sharing.Act.gather`: what an act that is no end adds to the buffer.
- `Sharing.gathered`: what many acts have added to an empty one.
- `Sharing.lastWrite`: the write under a key that counts.
- `Sharing.clears_gathered`, `Sharing.get?_gathered`, `Sharing.mem_missed_gathered`: what has been
  gathered, told from the acts.
-/

namespace SoftTier

namespace Sharing

variable {κ ν : Type} [DecidableEq κ]

/-- The buffer after an act that does not end the session. `absent` says of which keys a lookup
finds nothing. -/
def Act.gather (absent : κ → Bool) (b : Buffer κ ν) : Act κ ν → Buffer κ ν
  | .write k a => b.put k (some a)
  | .writeMiss k => b.put k none
  | .read k => if absent k then b.miss k else b
  | .clear => b.wipe
  | .erase _ | .size | .commit | .rollback => b

/-- What has been gathered by acts, the latest first, each with the keys that were absent then. -/
def gathered (past : List (Act κ ν × (κ → Bool))) : Buffer κ ν :=
  past.foldr (fun e b => e.1.gather e.2 b) {}

/-- What was written last under a key since the last clear; the latest act comes first, and `none`
inside is a miss. -/
def lastWrite (k : κ) : List (Act κ ν) → Option (Option ν)
  | [] => none
  | .write k' a :: past => if k' = k then some (some a) else lastWrite k past
  | .writeMiss k' :: past => if k' = k then some none else lastWrite k past
  | .clear :: _ => none
  | _ :: past => lastWrite k past

variable {past : List (Act κ ν × (κ → Bool))}

theorem gathered_cons (act : Act κ ν) (absent : κ → Bool) (past : List (Act κ ν × (κ → Bool))) :
    gathered ((act, absent) :: past) = act.gather absent (gathered past) := rfl

/-- Acts that all find the same keys absent, the first one in front. -/
theorem foldl_gather (absent : κ → Bool) (acts : List (Act κ ν)) :
    acts.foldl (Act.gather absent) {} = gathered (acts.reverse.map (·, absent)) := by
  rw [gathered, List.foldr_map, List.foldr_reverse]

theorem Act.sound_gather (act : Act κ ν) (absent : κ → Bool) {b : Buffer κ ν} (h : b.Sound) :
    (act.gather absent b).Sound := by
  cases act with
  | write k a => exact h.put k (some a)
  | writeMiss k => exact h.put k none
  | read k =>
    show (if absent k then b.miss k else b).Sound
    split
    · exact h.miss k
    · exact h
  | clear => exact h.wipe
  | _ => exact h

theorem sound_gathered (past : List (Act κ ν × (κ → Bool))) : (gathered past).Sound := by
  induction past with
  | nil => exact Buffer.sound_empty
  | cons e past ih => exact e.1.sound_gather e.2 ih

theorem clears_gathered : (gathered past).clears = true ↔ .clear ∈ past.map Prod.fst := by
  induction past with
  | nil => simp [gathered]
  | cons e past ih =>
    obtain ⟨act, absent⟩ := e
    rw [List.map_cons, List.mem_cons, ← ih]
    cases act with
    | clear => exact iff_of_true rfl (.inl rfl)
    | read k =>
      show (if absent k then (gathered past).miss k else gathered past).clears = true ↔ _
      split <;> exact (or_iff_right nofun).symm
    | _ => exact (or_iff_right nofun).symm

theorem get?_gathered (k : κ) :
    Assoc.get? k (gathered past).pending = lastWrite k (past.map Prod.fst) := by
  induction past with
  | nil => rfl
  | cons e past ih =>
    obtain ⟨act, absent⟩ := e
    cases act with
    | write k' a => exact (Assoc.get?_insert ..).trans (congrArg (ite _ _) ih)
    | writeMiss k' => exact (Assoc.get?_insert ..).trans (congrArg (ite _ _) ih)
    | read k' =>
      show Assoc.get? k (if absent k' then (gathered past).miss k' else gathered past).pending = _
      split <;> exact ih
    | clear => rfl
    | _ => exact ih

theorem mem_missed_gathered {k : κ} :
    k ∈ (gathered past).missed ↔ ∃ absent, (.read k, absent) ∈ past ∧ absent k = true := by
  induction past with
  | nil => simp [gathered]
  | cons e past ih =>
    obtain ⟨act, absent⟩ := e
    have hcons : (∃ absent', (Act.read k, absent') ∈ (act, absent) :: past ∧ absent' k = true) ↔
        (act = .read k ∧ absent k = true) ∨ k ∈ (gathered past).missed := by
      rw [ih]
      constructor
      · rintro ⟨absent', hmem, habsent⟩
        rcases List.mem_cons.mp hmem with heq | hmem
        · cases heq
          exact .inl ⟨rfl, habsent⟩
        · exact .inr ⟨absent', hmem, habsent⟩
      · rintro (⟨rfl, habsent⟩ | ⟨absent', hmem, habsent⟩)
        · exact ⟨absent, List.mem_cons_self, habsent⟩
        · exact ⟨absent', List.mem_cons_of_mem _ hmem, habsent⟩
    rw [hcons]
    cases act with
    | read k' =>
      show k ∈ (if absent k' then (gathered past).miss k' else gathered past).missed ↔ _
      split
      · rename_i habsent
        refine List.mem_insert_iff.trans (or_congr_left ?_)
        constructor
        · rintro rfl
          exact ⟨rfl, habsent⟩
        · rintro ⟨⟨⟩, -⟩
          rfl
      · rename_i hfound
        refine (or_iff_right ?_).symm
        rintro ⟨⟨⟩, habsent⟩
        exact hfound habsent
    | _ => exact (or_iff_right (fun h => absurd h.1 nofun)).symm

end Sharing

end SoftTier
