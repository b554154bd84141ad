import SoftTier.Proofs.Reclaimer.Operations
import SoftTier.Proofs.Session.Operations
import SoftTier.Proofs.Soft.Operations

/-!
# A soft layer that is sent many writes

A session that commits sends a soft layer its writes one after the other and keeps all their values
alive until it is done. So no sweep finds one of them dead, and no drain takes one of their entries
out, though retention has room for the last few only: those that were pushed out are still followed
and still have their entries.

- `Soft.sent`: the layer when it has been sent a write or a miss.
- `Soft.Sent`: what is retained, followed and stored when some writes have been sent.
- `Soft.Sent.extend`: one more write or miss, told from what it does to its own key and the others.
- `Soft.Sent.write`, `Soft.Sent.writeMiss`, `Soft.sent_all`: each sort, and all of them in turn.
- `Soft.wiped`: the layer when it has been cleared.
-/

namespace SoftTier

namespace Soft

variable {κ : Type} [Ord κ] [DecidableEq κ] [Std.TransOrd κ] {env : Ambient}

/-- The layer when it has been sent a write or a miss. -/
def sent (env : Ambient) (s : Soft κ (Table κ Handle)) (e : κ × Option Value) :
    Soft κ (Table κ Handle) :=
  match e.2 with
  | some v =>
    { s.drained (env.also v) with
      reclaimer := ((s.drained (env.also v)).reclaimer.retain
        ((env.also v).also s.pinned) e.1 v).2
      below := (s.drained (env.also v)).below.put e.1 (some (.ofValue v)) }
  | none =>
    { s.drained env with
      reclaimer := (s.drained env).reclaimer.forget e.1
      below := (s.drained env).below.put e.1 (some .dead) }

theorem send_yields (e : κ × Option Value) (s : Soft κ (Table κ Handle)) :
    (Buffer.send e : Op (Soft κ (Table κ Handle)) Unit).Yields env s () (s.sent env e) := by
  obtain ⟨k, entry⟩ := e
  cases entry with
  | some v => exact write_yields k v
  | none => exact writeMiss_yields k

/-- The layer when it has been cleared. -/
def wiped (env : Ambient) (s : Soft κ (Table κ Handle)) : Soft κ (Table κ Handle) :=
  let d := ({ s with pinned := [] } : Soft κ (Table κ Handle)).drained env
  { d with reclaimer := d.reclaimer.reset, below := { d.below with entries := ∅ } }

theorem wiped_yields (s : Soft κ (Table κ Handle)) :
    (Store.clear : Op (Soft κ (Table κ Handle)) Unit).Yields env s () (s.wiped env) := clear_yields

/-- Nothing is retained when the layer has been cleared. -/
theorem wiped_reclaimer (env : Ambient) {s : Soft κ (Table κ Handle)} (h : s.reclaimer.Sound) :
    (s.wiped env).reclaimer.Sound ∧ (s.wiped env).reclaimer.kept = [] ∧
      (s.wiped env).reclaimer.softCapacity = s.reclaimer.softCapacity := by
  have hd : (({ s with pinned := [] } : Soft κ (Table κ Handle)).drained env).reclaimer.Sound :=
    h.reposted []
  have hranks := hd.ranks.clear
  exact ⟨(Reclaimer.reset_settled hd env).sound, hranks.toList_eq, hranks.capacity_eq⟩

/-- What is retained, followed and stored when the writes `done` have been sent, the latest last.
The values sent last are retained, as many as fit, and in front of what is left from before. Values
that are held are followed, whether sent or followed before, and those sent have their entries. -/
structure Sent (env : Ambient) (s₀ : Soft κ (Table κ Handle)) (done : Assoc κ (Option Value))
    (s : Soft κ (Table κ Handle)) : Prop where
  sound : s.reclaimer.Sound
  softCapacity_eq : s.reclaimer.softCapacity = s₀.reclaimer.softCapacity
  pinned_eq : s.pinned = s₀.pinned
  kept_eq : ∃ old, (∀ e ∈ old, e ∈ s₀.reclaimer.kept) ∧
    s.reclaimer.kept = (Assoc.valued done.reverse).take s₀.reclaimer.softCapacity ++ old
  sent_tracked : ∀ k v, env.held v = true → (k, some v) ∈ done → s.reclaimer.tracked k = some v
  others_tracked : ∀ k v, env.held v = true → k ∉ done.keys → s₀.reclaimer.tracked k = some v →
    s.reclaimer.tracked k = some v
  entry_eq : ∀ k v, env.held v = true → (k, some v) ∈ done →
    s.below.entries[k]? = some (some (.ofValue v))

theorem sent_nil {s : Soft κ (Table κ Handle)} (h : s.reclaimer.Sound) : Sent env s [] s where
  sound := h
  softCapacity_eq := rfl
  pinned_eq := rfl
  kept_eq := ⟨s.reclaimer.kept, fun _ he => he, by simp [Assoc.valued]⟩
  sent_tracked k v _ hmem := absurd hmem List.not_mem_nil
  others_tracked k v _ _ htracked := htracked
  entry_eq k v _ hmem := absurd hmem List.not_mem_nil

/-- Sending one more, told from what that does to its own key and to values held under others. -/
theorem Sent.extend {s₀ s s' : Soft κ (Table κ Handle)} {done : Assoc κ (Option Value)} {k : κ}
    (h : Sent env s₀ done s) (hk : k ∉ done.keys) {entry : Option Value}
    (hsound : s'.reclaimer.Sound) (hcap : s'.reclaimer.softCapacity = s.reclaimer.softCapacity)
    (hpinned : s'.pinned = s.pinned)
    (hkept : ∃ old, (∀ e ∈ old, e ∈ s₀.reclaimer.kept) ∧ s'.reclaimer.kept =
      (Assoc.valued (done ++ [(k, entry)]).reverse).take s₀.reclaimer.softCapacity ++ old)
    (hself : ∀ v, entry = some v → s'.reclaimer.tracked k = some v ∧
      s'.below.entries[k]? = some (some (.ofValue v)))
    (hothers : ∀ k' v, env.held v = true → k' ≠ k → s.reclaimer.tracked k' = some v →
      s'.reclaimer.tracked k' = some v ∧ s'.below.entries[k']? = s.below.entries[k']?) :
    Sent env s₀ (done ++ [(k, entry)]) s' := by
  have hsent : ∀ k' v, (k', some v) ∈ done ++ [(k, entry)] →
      (k', some v) ∈ done ∧ k' ≠ k ∨ k' = k ∧ entry = some v := by
    intro k' v hv
    rcases List.mem_append.mp hv with hv | hv
    · exact .inl ⟨hv, fun heq => hk (heq ▸ Assoc.mem_keys_of_mem hv)⟩
    · cases List.mem_singleton.mp hv
      exact .inr ⟨rfl, rfl⟩
  refine { sound := hsound, softCapacity_eq := hcap.trans h.softCapacity_eq,
           pinned_eq := hpinned.trans h.pinned_eq, kept_eq := hkept,
           sent_tracked := fun k' v hheld hv => ?_,
           others_tracked := fun k' v hheld hk' htracked => ?_,
           entry_eq := fun k' v hheld hv => ?_ }
  · rcases hsent k' v hv with ⟨hv, hne⟩ | ⟨rfl, heq⟩
    · exact (hothers k' v hheld hne (h.sent_tracked k' v hheld hv)).1
    · exact (hself v heq).1
  · rw [Assoc.keys, List.map_append, List.mem_append, not_or] at hk'
    have hne : k' ≠ k := fun heq => hk'.2 (heq ▸ List.mem_cons_self)
    exact (hothers k' v hheld hne (h.others_tracked k' v hheld hk'.1 htracked)).1
  · rcases hsent k' v hv with ⟨hv, hne⟩ | ⟨rfl, heq⟩
    · have hsame := (hothers k' v hheld hne (h.sent_tracked k' v hheld hv)).2
      exact hsame.trans (h.entry_eq k' v hheld hv)
    · exact (hself v heq).2

variable [Std.LawfulEqOrd κ]

/-- A drain leaves the entries of keys with a live value. -/
theorem entry_drained {s : Soft κ (Table κ Handle)} (h : s.reclaimer.Sound) {k : κ} {v : Value}
    (htracked : s.reclaimer.tracked k = some v) (hheld : env.held v = true) :
    (s.drained env).below.entries[k]? = s.below.entries[k]? := by
  have hlive : s.reclaimer.hasLive (env.also s.pinned) k = true := by
    rw [Reclaimer.hasLive_eq h, htracked]
    simp [Reclaimer.alive, hheld]
  show (s.below.removeWhere _ s.reclaimer.posted).entries[k]? = _
  rw [Table.getElem?_removeWhere, if_neg]
  rintro ⟨-, hdead⟩
  rw [hlive] at hdead
  exact absurd hdead (by simp)

namespace Sent

variable {s₀ s : Soft κ (Table κ Handle)} {done : Assoc κ (Option Value)} {k : κ}

/-- Sending a write. -/
theorem write (h : Sent env s₀ done s) (hk : k ∉ done.keys) (v : Value) :
    Sent env s₀ (done ++ [(k, some v)]) (s.sent env (k, some v)) := by
  have hd : (s.drained (env.also v)).reclaimer.Sound := h.sound.reposted []
  obtain ⟨hmem, dead, hs⟩ := Reclaimer.retain_settled hd ((env.also v).also s.pinned) k v
  refine h.extend hk hs.sound (Reclaimer.softCapacity_retain hd ..) rfl ?_ (fun w hw => ?_)
    fun k' w hheld hne htracked => ⟨?_, ?_⟩
  · -- what is pushed out is one of the old entries while there is any, or else the first one sent
    obtain ⟨old, hold, hkept⟩ := h.kept_eq
    obtain ⟨rest, hrest, htake⟩ := Assoc.take_cons_erase (Assoc.notin_keys_valued_reverse hk) v old
      s₀.reclaimer.softCapacity
    refine ⟨rest, fun e he => hold e (hrest e he), ?_⟩
    rw [List.reverse_append]
    refine (Reclaimer.kept_retain hd ..).trans (Eq.trans ?_ htake)
    rw [← hkept, ← h.softCapacity_eq]
    rfl
  · cases hw
    exact ⟨Reclaimer.tracked_of_mem_kept hs.sound hmem,
      (Table.getElem?_put ..).trans (if_pos rfl)⟩
  · refine hs.tracked_of_held ((Function.update_of_ne hne ..).trans htracked) ?_
    simp [hheld]
  · have hheld' : (env.also v).held w = true := by simp [hheld]
    refine Eq.trans ?_ (entry_drained h.sound htracked hheld')
    exact (Table.getElem?_put ..).trans (if_neg (Ne.symm hne))

/-- Sending a miss. -/
theorem writeMiss (h : Sent env s₀ done s) (hk : k ∉ done.keys) :
    Sent env s₀ (done ++ [(k, none)]) (s.sent env (k, none)) := by
  have hd : (s.drained env).reclaimer.Sound := h.sound.reposted []
  have hs := Reclaimer.forget_settled hd env k
  refine h.extend hk hs.sound (Reclaimer.softCapacity_forget hd ..) rfl ?_
    (fun w hw => absurd hw (by simp)) fun k' w hheld hne htracked => ⟨?_, ?_⟩
  · obtain ⟨old, hold, hkept⟩ := h.kept_eq
    -- a miss can only take an old entry out, as nothing was sent for its key before
    have hcut : k ∉ Assoc.keys ((Assoc.valued done.reverse).take s₀.reclaimer.softCapacity) :=
      fun hmem => Assoc.notin_keys_valued_reverse hk
        (List.Sublist.subset ((List.take_sublist ..).map _) hmem)
    refine ⟨Assoc.erase k old, fun e he => hold e (Assoc.mem_erase.mp he).1, ?_⟩
    rw [List.reverse_append]
    refine (Reclaimer.kept_forget hd k).trans ?_
    show Assoc.erase k s.reclaimer.kept = _
    rw [hkept, Assoc.erase_append, Assoc.erase_eq_self hcut]
    rfl
  · exact (hs.stays k' List.not_mem_nil).trans ((Function.update_of_ne hne ..).trans htracked)
  · refine Eq.trans ?_ (entry_drained h.sound htracked hheld)
    exact (Table.getElem?_put ..).trans (if_neg (Ne.symm hne))

end Sent

/-- Sending writes and misses to keys that are not repeated. -/
theorem sent_all {s₀ s : Soft κ (Table κ Handle)} {done : Assoc κ (Option Value)}
    (h : Sent env s₀ done s) (l : Assoc κ (Option Value)) (hkeys : (Assoc.keys (done ++ l)).Nodup) :
    Sent env s₀ (done ++ l) (l.foldl (sent env) s) := by
  -- along what is still to be sent, and `Sent` is what every send keeps
  induction l generalizing done s with
  | nil => rwa [List.append_nil]
  | cons e l ih =>
    obtain ⟨k, entry⟩ := e
    have hk : k ∉ done.keys := (Assoc.notin_keys_of_nodup hkeys).1
    have hstep : Sent env s₀ (done ++ [(k, entry)]) (s.sent env (k, entry)) := by
      cases entry with
      | some v => exact h.write hk v
      | none => exact h.writeMiss hk
    have hall := ih hstep (by rwa [List.append_assoc])
    rwa [List.append_assoc] at hall

end Soft

end SoftTier
