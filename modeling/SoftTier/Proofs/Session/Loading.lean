import SoftTier.Proofs.Session.Operations

/-!
# Sessions that load what they miss

A client that writes a value for every key that it misses, and nothing else, gathers a write for
just these keys. So a commit has nothing left to free.

- `Buffer.Loaded`: there is a value waiting for every missed key and for no other.
- `Buffer.Loaded.load`: a key that was missed and loaded.
- `Buffer.Loaded.keys_perm`, `Buffer.Loaded.pending_eq`: what waits, told from the missed keys.
- `Buffer.Loaded.due_eq`: nothing is left for a commit to free.
-/

namespace SoftTier

namespace Buffer

variable {κ ν : Type}

/-- A value waits for every missed key, and for no other. -/
structure Loaded (b : Buffer κ ν) : Prop where
  sound : b.Sound
  clears_eq : b.clears = false
  missed_iff : ∀ k, k ∈ b.missed ↔ k ∈ b.pending.keys
  valued : ∀ e ∈ b.pending, e.2.isSome

theorem loaded_empty : ({} : Buffer κ ν).Loaded where
  sound := sound_empty
  clears_eq := rfl
  missed_iff _ := Iff.rfl
  valued _ he := absurd he List.not_mem_nil

variable {b : Buffer κ ν}

/-- The keys with a value waiting are the missed ones, each once. -/
theorem Loaded.keys_perm (h : b.Loaded) : b.pending.keys.Perm b.missed :=
  (List.perm_ext_iff_of_nodup h.sound.pending_nodup h.sound.missed_nodup).mpr
    fun k => (h.missed_iff k).symm

variable [DecidableEq κ]

theorem Loaded.load (h : b.Loaded) (k : κ) (a : ν) : ((b.miss k).put k (some a)).Loaded where
  sound := (h.sound.miss k).put k (some a)
  clears_eq := h.clears_eq
  missed_iff k' := by
    refine List.mem_insert_iff.trans (Iff.trans ?_ Assoc.mem_keys_insert.symm)
    exact or_congr_right (h.missed_iff k')
  valued e he := by
    rcases Assoc.mem_of_mem_insert he with rfl | he
    · rfl
    · exact h.valued e he

theorem Loaded.exists_value (h : b.Loaded) {k : κ} (hk : k ∈ b.missed) :
    ∃ a, b.pending.get? k = some (some a) := by
  obtain ⟨entry, hmem⟩ := Assoc.mem_keys.mp ((h.missed_iff k).mp hk)
  obtain ⟨a, rfl⟩ := Option.isSome_iff_exists.mp (h.valued _ hmem)
  exact ⟨a, (Assoc.get?_eq_some_iff h.sound.pending_nodup).mpr hmem⟩

/-- What waits is told from the value of each missed key. -/
theorem Loaded.pending_eq (h : b.Loaded) {valueOf : κ → ν}
    (hvalue : ∀ k ∈ b.missed, b.pending.get? k = some (some (valueOf k))) :
    b.pending = b.pending.keys.map fun k => (k, some (valueOf k)) := by
  rw [Assoc.keys, List.map_map]
  refine (List.map_id _).symm.trans (List.map_congr_left fun e he => ?_)
  have hmissed := (h.missed_iff e.1).mpr (Assoc.mem_keys_of_mem he)
  have hget := (Assoc.get?_eq_some_iff h.sound.pending_nodup).mpr he
  exact Prod.ext rfl (Option.some.inj (hget.symm.trans (hvalue e.1 hmissed)))

/-- Every missed key has a write waiting, so none is left to be freed. -/
theorem Loaded.due_eq (h : b.Loaded) (visit : Visit) : b.due visit = [] := by
  refine List.filter_eq_nil_iff.mpr fun k hk => ?_
  have hmissed := (visit.arrange_perm b.missed).mem_iff.mp hk
  rw [Assoc.has_iff.mpr ((h.missed_iff k).mp hmissed)]
  simp

end Buffer

end SoftTier
