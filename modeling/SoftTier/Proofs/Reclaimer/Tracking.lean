import SoftTier.Proofs.Recency.Ranking
import SoftTier.Reclaimer

/-!
# What a reclaimer follows

A reclaimer follows one value at most under each key, retained or released. What it does is told by
the values followed; whether one of them is retained or released matters only for what is alive.

- `Reclaimer.tracked`: the value followed under a key.
- `Reclaimer.Sound`: no key is both retained and released, and retention stays within its bound.
- `Reclaimer.Settled`: what a sweep leaves of the values followed. Those that nobody holds any more
  are gone and their keys are posted, the others are followed as before.
- `Reclaimer.sweep_settled`: a sweep does just that.
-/

namespace SoftTier

namespace Reclaimer

variable {κ : Type} [Ord κ]

/-- The retained values by key, the one used last first. -/
def kept (r : Reclaimer κ) : Assoc κ Value := r.retained.toList

/-- The value that a reclaimer follows under a key. -/
def tracked [DecidableEq κ] (r : Reclaimer κ) (k : κ) : Option Value :=
  (Assoc.get? k r.kept).or (Assoc.get? k r.released)

theorem tracked_eq_none_iff [DecidableEq κ] {r : Reclaimer κ} {k : κ} :
    r.tracked k = none ↔ k ∉ r.kept.keys ∧ k ∉ r.released.keys := by
  rw [tracked, Option.or_eq_none_iff, Assoc.get?_eq_none_iff, Assoc.get?_eq_none_iff]

/-- The released values that are dead, as a sweep visits them. -/
def dying (env : Ambient) (r : Reclaimer κ) : Assoc κ Value :=
  (env.visit.arrange r.released).filter fun e => !r.alive env e.2

/-- The released values that are alive, as a sweep visits them. -/
def lasting (env : Ambient) (r : Reclaimer κ) : Assoc κ Value :=
  (env.visit.arrange r.released).filter fun e => r.alive env e.2

theorem sweep_eq (env : Ambient) (r : Reclaimer κ) :
    r.sweep env = ((r.dying env).length, { r with
      released := r.lasting env
      posted := r.posted ++ (r.dying env).keys
      reclaimed := r.reclaimed + (r.dying env).length.toUInt64 }) := by
  rw [sweep, List.partition_eq_filter_filter]
  rfl

theorem mem_dying {env : Ambient} {r : Reclaimer κ} {e : κ × Value} :
    e ∈ r.dying env ↔ e ∈ r.released ∧ r.alive env e.2 = false := by
  rw [dying, List.mem_filter, (env.visit.arrange_perm r.released).mem_iff, Bool.not_eq_true']

theorem mem_lasting {env : Ambient} {r : Reclaimer κ} {e : κ × Value} :
    e ∈ r.lasting env ↔ e ∈ r.released ∧ r.alive env e.2 = true := by
  rw [lasting, List.mem_filter, (env.visit.arrange_perm r.released).mem_iff]

/-- A sweep leaves retention alone. -/
theorem kept_sweep (env : Ambient) (r : Reclaimer κ) : (r.sweep env).2.kept = r.kept := by
  rw [sweep_eq]
  rfl

theorem keeps_sweep (env : Ambient) (r : Reclaimer κ) (v : Value) :
    keeps (r.sweep env).2 v = keeps r v := by
  rw [sweep_eq]
  rfl

/-- After a sweep every released value is alive. -/
theorem alive_of_mem_released_sweep {env : Ambient} {r : Reclaimer κ} {e : κ × Value}
    (he : e ∈ (r.sweep env).2.released) : (r.sweep env).2.alive env e.2 = true := by
  rw [alive, keeps_sweep]
  rw [sweep_eq] at he
  exact (mem_lasting.mp he).2

variable [Std.TransOrd κ]

/-- What a recency list keeps alive is in an entry. -/
theorem exists_mem_of_any {retained : Recency κ Value} {R : Ranking κ Value}
    (hr : retained.Ranks R) {v : Value} (hv : retained.any (· == v) = true) :
    ∃ k, (k, v) ∈ R.entries := by
  rw [hr.any_eq, List.any_eq_true] at hv
  obtain ⟨⟨k, w⟩, hmem, heq⟩ := hv
  exact ⟨k, eq_of_beq heq ▸ hmem⟩

/-- No key is both retained and released, and retention stays within its bound. -/
structure Sound (r : Reclaimer κ) : Prop where
  ranks : r.retained.Ranks ⟨r.kept, r.softCapacity⟩
  capacity_pos : 0 < r.softCapacity
  bounded : r.kept.length ≤ r.softCapacity
  released_nodup : r.released.keys.Nodup
  disjoint : ∀ k ∈ r.kept.keys, k ∉ r.released.keys

namespace Sound

variable {r : Reclaimer κ}

theorem kept_nodup (h : r.Sound) : r.kept.keys.Nodup := h.ranks.keys_nodup

theorem retainedSize_eq (h : r.Sound) : r.retainedSize = r.kept.length := h.ranks.size_eq

/-- What a reclaimer keeps alive is what it retains. -/
theorem keeps_iff (h : r.Sound) {v : Value} : keeps r v = true ↔ ∃ k, (k, v) ∈ r.kept := by
  constructor
  · intro hv
    exact exists_mem_of_any h.ranks hv
  · rintro ⟨k, hmem⟩
    have hany : keeps r v = r.kept.any fun e => e.2 == v := h.ranks.any_eq (· == v)
    rw [hany, List.any_eq_true]
    exact ⟨(k, v), hmem, beq_self_eq_true v⟩

/-- Retaining only entries that were retained keeps nothing new alive. -/
theorem keeps_of_subset (h : r.Sound) {retained : Recency κ Value} {R : Ranking κ Value}
    (hr : retained.Ranks R) (hsub : ∀ e ∈ R.entries, e ∈ r.kept) {v : Value}
    (hv : retained.any (· == v) = true) : keeps r v = true := by
  obtain ⟨k, hmem⟩ := exists_mem_of_any hr hv
  exact h.keeps_iff.mpr ⟨k, hsub _ hmem⟩

/-- Which keys are posted plays no part. -/
theorem reposted (h : r.Sound) (posted : List κ) : ({ r with posted } : Reclaimer κ).Sound :=
  { ranks := h.ranks
    capacity_pos := h.capacity_pos
    bounded := h.bounded
    released_nodup := h.released_nodup
    disjoint := h.disjoint }

/-- However a sweep visits the released values, none of their keys comes twice. -/
theorem nodup_keys_filter_arrange (h : r.Sound) (visit : Visit) (p : κ × Value → Bool) :
    (Assoc.keys ((visit.arrange r.released).filter p)).Nodup := by
  have hperm := (visit.arrange_perm r.released).map Prod.fst
  exact (List.filter_sublist.map Prod.fst).nodup (hperm.nodup_iff.mpr h.released_nodup)

end Sound

/-- A sweep does not drop one value and keep another under the same key. -/
theorem notin_lasting_of_mem_dying {r : Reclaimer κ} (h : r.Sound) {env : Ambient} {k : κ}
    (hk : k ∈ (r.dying env).keys) : k ∉ (r.lasting env).keys := by
  intro hk'
  obtain ⟨v, hv⟩ := Assoc.mem_keys.mp hk
  obtain ⟨w, hw⟩ := Assoc.mem_keys.mp hk'
  obtain ⟨hrel, hdead⟩ := mem_dying.mp hv
  obtain ⟨hrel', halive⟩ := mem_lasting.mp hw
  have heq := List.inj_on_of_nodup_map h.released_nodup hrel hrel' rfl
  rw [← (Prod.mk.inj heq).2, hdead] at halive
  exact absurd halive (by simp)

theorem sweep_sound {r : Reclaimer κ} (h : r.Sound) (env : Ambient) : (r.sweep env).2.Sound := by
  rw [sweep_eq]
  refine { ranks := h.ranks, capacity_pos := h.capacity_pos, bounded := h.bounded,
           released_nodup := h.nodup_keys_filter_arrange env.visit _,
           disjoint := fun k hk hrel => h.disjoint k hk ?_ }
  obtain ⟨v, hv⟩ := Assoc.mem_keys.mp hrel
  exact Assoc.mem_keys_of_mem (mem_lasting.mp hv).1

variable [DecidableEq κ]

theorem tracked_of_mem_kept {r : Reclaimer κ} (h : r.Sound) {k : κ} {v : Value}
    (hv : (k, v) ∈ r.kept) : r.tracked k = some v := by
  rw [tracked, (Assoc.get?_eq_some_iff h.kept_nodup).mpr hv]
  rfl

theorem tracked_of_mem_released {r : Reclaimer κ} (h : r.Sound) {k : κ} {v : Value}
    (hv : (k, v) ∈ r.released) : r.tracked k = some v := by
  have hk : k ∉ r.kept.keys := fun hk => h.disjoint k hk (Assoc.mem_keys_of_mem hv)
  rw [tracked, Assoc.get?_eq_none_iff.mpr hk, (Assoc.get?_eq_some_iff h.released_nodup).mpr hv]
  rfl

/-- A value that is followed is retained or released. -/
theorem tracked_eq_some_iff {r : Reclaimer κ} (h : r.Sound) {k : κ} {v : Value} :
    r.tracked k = some v ↔ (k, v) ∈ r.kept ∨ (k, v) ∈ r.released := by
  constructor
  · intro ht
    rcases Option.or_eq_some_iff.mp ht with hv | ⟨-, hv⟩
    · exact .inl (Assoc.mem_of_get?_eq_some hv)
    · exact .inr (Assoc.mem_of_get?_eq_some hv)
  · rintro (hv | hv)
    · exact tracked_of_mem_kept h hv
    · exact tracked_of_mem_released h hv

/-- A key has a live value exactly if the value followed under it is alive. -/
theorem hasLive_eq {r : Reclaimer κ} (h : r.Sound) (env : Ambient) (k : κ) :
    r.hasLive env k = (r.tracked k).any (r.alive env) := by
  have hcontains : r.retained.contains k = Assoc.has k r.kept := h.ranks.contains k
  rw [hasLive, hcontains, tracked, Assoc.has]
  cases hk : Assoc.get? k r.kept with
  | none => rfl
  | some v =>
    have hkeeps : keeps r v = true := h.keeps_iff.mpr ⟨k, Assoc.mem_of_get?_eq_some hk⟩
    simp [alive, hkeeps]

/-! ## Sweeps -/

/-- What became of the values followed when a sweep ended: under the keys `dead`, which it posted,
they were held by nobody and are gone, and the others are followed as before. Only what was
`keepable` is retained. -/
structure Settled (env : Ambient) (posted : List κ) (before : κ → Option Value)
    (keepable : Value → Prop) (r : Reclaimer κ) (dead : List κ) : Prop where
  sound : r.Sound
  posted_eq : r.posted = posted ++ dead
  keeps_only : ∀ v, keeps r v = true → keepable v
  nodup : dead.Nodup
  gone : ∀ k ∈ dead, r.tracked k = none ∧ ∃ v, before k = some v ∧ r.alive env v = false
  stays : ∀ k, k ∉ dead → r.tracked k = before k

/-- Without a sweep everything is followed as before. -/
theorem Settled.unswept {env : Ambient} {posted : List κ} {before : κ → Option Value}
    {keepable : Value → Prop} {r : Reclaimer κ} (h : r.Sound) (hposted : r.posted = posted)
    (htracked : ∀ k, r.tracked k = before k) (hkeeps : ∀ v, keeps r v = true → keepable v) :
    Settled env posted before keepable r [] where
  sound := h
  posted_eq := by rw [hposted, List.append_nil]
  keeps_only := hkeeps
  nodup := List.nodup_nil
  gone k hk := absurd hk List.not_mem_nil
  stays k _ := htracked k

/-- No sweep lets go of a value that is held. -/
theorem Settled.tracked_of_held {env : Ambient} {posted : List κ} {before : κ → Option Value}
    {keepable : Value → Prop} {r : Reclaimer κ} {dead : List κ}
    (h : Settled env posted before keepable r dead) {k : κ} {v : Value}
    (hbefore : before k = some v) (hheld : env.held v = true) : r.tracked k = some v := by
  by_cases hk : k ∈ dead
  · obtain ⟨-, w, hw, hdead⟩ := h.gone k hk
    cases hbefore.symm.trans hw
    rw [alive, hheld, Bool.true_or] at hdead
    exact absurd hdead (by simp)
  · exact (h.stays k hk).trans hbefore

theorem Settled.imp {env : Ambient} {posted : List κ} {before : κ → Option Value}
    {keepable keepable' : Value → Prop} {r : Reclaimer κ} {dead : List κ}
    (h : Settled env posted before keepable r dead) (himp : ∀ v, keepable v → keepable' v) :
    Settled env posted before keepable' r dead :=
  { h with keeps_only := fun v hv => himp v (h.keeps_only v hv) }

theorem sweep_settled (env : Ambient) {posted : List κ} {before : κ → Option Value}
    {keepable : Value → Prop} {r : Reclaimer κ} (h : r.Sound) (hposted : r.posted = posted)
    (htracked : ∀ k, r.tracked k = before k) (hkeeps : ∀ v, keeps r v = true → keepable v) :
    Settled env posted before keepable (r.sweep env).2 (r.dying env).keys := by
  have hsound := sweep_sound h env
  rw [sweep_eq] at hsound ⊢
  refine { sound := hsound, posted_eq := congrArg (· ++ _) hposted, keeps_only := hkeeps,
           nodup := h.nodup_keys_filter_arrange env.visit _, gone := ?_, stays := ?_ }
  · intro k hk
    obtain ⟨v, hv⟩ := Assoc.mem_keys.mp hk
    obtain ⟨hrel, hdead⟩ := mem_dying.mp hv
    have hkept : k ∉ r.kept.keys := fun hkept => h.disjoint k hkept (Assoc.mem_keys_of_mem hrel)
    have hlasting := notin_lasting_of_mem_dying h hk
    exact ⟨tracked_eq_none_iff.mpr ⟨hkept, hlasting⟩, v,
      (htracked k).symm.trans (tracked_of_mem_released h hrel), hdead⟩
  · intro k hk
    rw [← htracked]
    refine Option.ext fun v => ?_
    rw [tracked_eq_some_iff hsound, tracked_eq_some_iff h]
    -- what is followed under any other key is alive, so it is still there
    refine or_congr_right ⟨fun hv => (mem_lasting.mp hv).1, fun hv => mem_lasting.mpr ⟨hv, ?_⟩⟩
    by_contra hdead
    exact hk (Assoc.mem_keys_of_mem (mem_dying.mpr ⟨hv, by simpa using hdead⟩))

end Reclaimer

end SoftTier
