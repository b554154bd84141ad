import SoftTier.Proofs.Reclaimer.Operations
import SoftTier.Proofs.Soft.Operations

/-!
# How entries, values followed and posted keys agree

A key of a soft layer lives in up to three places: the base store has a handle under it, the
reclaimer follows a value under it, and it may wait among the posted keys. Which value was last
written under it and whether it is a miss that nobody has read are told from outside, as `written`
and `unread`.

- `Standing`: the four ways in which these can stand for one key.
- `Coherent`: every key stands in one of these ways.
- `Coherent.drain`, `Coherent.settle`, `Coherent.write`, `Coherent.writeMiss`, `Coherent.takeOut`,
  `Coherent.clear`: what each change of the layer does to that.
-/

namespace SoftTier

/-- How things stand for a key: the entry in the base store, the value followed, whether the key is
posted, the value last written and whether an unread miss is there. -/
inductive Standing (alive : Value → Bool) (entry : Option (Option Handle)) (tracked : Option Value)
    (posted : Prop) (written : Option Value) (unread : Prop) : Prop where
  /-- There is nothing, and nothing that could be read was written. -/
  | absent (hentry : entry = none) (htracked : tracked = none)
      (hdead : ∀ v, written = some v → alive v = false) (hunread : ¬unread)
  /-- The value written is followed, be it alive or not. -/
  | followed (v : Value) (hentry : entry = some (some (.ofValue v))) (htracked : tracked = some v)
      (hposted : ¬posted) (hwritten : written = some v) (hunread : ¬unread)
  /-- The value written is gone, and its entry waits to be taken out. -/
  | gone (v : Value) (hentry : entry = some (some (.ofValue v))) (htracked : tracked = none)
      (hposted : posted) (hwritten : written = some v) (hdead : alive v = false)
      (hunread : ¬unread)
  /-- A miss was written and nobody has read it. -/
  | missed (hentry : entry = some (some .dead)) (htracked : tracked = none) (hposted : ¬posted)
      (hwritten : written = none) (hunread : unread)

namespace Standing

variable {alive alive' : Value → Bool} {entry : Option (Option Handle)} {tracked : Option Value}
  {posted posted' : Prop} {written : Option Value} {unread : Prop}

/-- A value that is dead stays dead. -/
theorem mono (h : Standing alive entry tracked posted written unread)
    (hle : ∀ v, written = some v → alive' v = true → alive v = true) :
    Standing alive' entry tracked posted written unread := by
  have hdead : ∀ v, written = some v → alive v = false → alive' v = false := by
    intro v hv hv'
    by_contra hne
    rw [hle v hv (by simpa using hne)] at hv'
    exact absurd hv' (by simp)
  cases h with
  | absent he ht hd hu => exact .absent he ht (fun v hv => hdead v hv (hd v hv)) hu
  | followed v he ht hp hw hu => exact .followed v he ht hp hw hu
  | gone v he ht hp hw hd hu => exact .gone v he ht hp hw (hdead v hw hd) hu
  | missed he ht hp hw hu => exact .missed he ht hp hw hu

/-- A posted key is not followed. -/
theorem tracked_of_posted (h : Standing alive entry tracked posted written unread)
    (hposted : posted) : tracked = none := by
  cases h with
  | absent he ht hd hu => exact ht
  | followed v he ht hp hw hu => exact absurd hposted hp
  | gone v he ht hp hw hd hu => exact ht
  | missed he ht hp hw hu => exact ht

/-- A drain takes out what was posted. -/
theorem drain (h : Standing alive entry tracked posted written unread)
    {entry' : Option (Option Handle)} (hposted : ¬posted') (hout : posted → entry' = none)
    (hleft : ¬posted → entry' = entry) :
    Standing alive entry' tracked posted' written unread := by
  cases h with
  | absent he ht hd hu =>
    refine .absent ?_ ht hd hu
    by_cases hp : posted
    · exact hout hp
    · exact (hleft hp).trans he
  | followed v he ht hp hw hu => exact .followed v ((hleft hp).trans he) ht hposted hw hu
  | gone v he ht hp hw hd hu =>
    refine .absent (hout hp) ht (fun w hw' => ?_) hu
    rw [hw] at hw'
    cases hw'
    exact hd
  | missed he ht hp hw hu => exact .missed ((hleft hp).trans he) ht hposted hw hu

/-- A value that is no longer followed is dead and its key posted. -/
theorem settle (h : Standing alive entry tracked posted written unread) {tracked' : Option Value}
    {dead : Prop} (hposted : posted' ↔ posted ∨ dead)
    (hgone : dead → tracked' = none ∧ ∃ v, tracked = some v ∧ alive v = false)
    (hstays : ¬dead → tracked' = tracked) :
    Standing alive entry tracked' posted' written unread := by
  by_cases hdead : dead
  · -- a value was followed, which leaves one of the four ways
    obtain ⟨ht', v, hv, hv'⟩ := hgone hdead
    cases h with
    | absent he ht hd hu => exact absurd (ht.symm.trans hv) (by simp)
    | followed w he ht hp hw hu =>
      rw [ht] at hv
      cases hv
      exact .gone v he ht' (hposted.mpr (.inr hdead)) hw hv' hu
    | gone w he ht hp hw hd hu => exact absurd (ht.symm.trans hv) (by simp)
    | missed he ht hp hw hu => exact absurd (ht.symm.trans hv) (by simp)
  · rw [hstays hdead]
    have hor : ¬posted → ¬posted' := fun hp hp' => (hposted.mp hp').elim hp hdead
    cases h with
    | absent he ht hd hu => exact .absent he ht hd hu
    | followed v he ht hp hw hu => exact .followed v he ht (hor hp) hw hu
    | gone v he ht hp hw hd hu => exact .gone v he ht (hposted.mpr (.inl hp)) hw hd hu
    | missed he ht hp hw hu => exact .missed he ht (hor hp) hw hu

end Standing

/-- Every key stands in one of the four ways, and no key is posted or waits as a miss twice. -/
structure Coherent {κ : Type} [DecidableEq κ] [Ord κ] [Std.TransOrd κ] (alive : Value → Bool)
    (r : Reclaimer κ) (t : Table κ Handle) (written : κ → Option Value) (unread : List κ) :
    Prop where
  sound : r.Sound
  posted_nodup : r.posted.Nodup
  unread_nodup : unread.Nodup
  standing : ∀ k, Standing alive t.entries[k]? (r.tracked k) (k ∈ r.posted) (written k) (k ∈ unread)

namespace Coherent

/-- Writing under one key leaves what is unread under another. -/
theorem mem_filter_ne {κ : Type} [DecidableEq κ] {k k' : κ} (hne : k ≠ k') (unread : List κ) :
    (k' ∈ unread.filter (· ≠ k)) = (k' ∈ unread) := by
  simp [Ne.symm hne]

variable {κ : Type} [DecidableEq κ] [Ord κ] [Std.TransOrd κ] {alive alive' : Value → Bool}
  {r r' : Reclaimer κ} {t t' : Table κ Handle} {written : κ → Option Value} {unread : List κ}

theorem mono (h : Coherent alive r t written unread)
    (hle : ∀ k v, written k = some v → alive' v = true → alive v = true) :
    Coherent alive' r t written unread :=
  { h with standing := fun k => (h.standing k).mono (hle k) }

/-- No posted key has a live value, so a drain takes all of their entries out. -/
theorem hasLive_eq_false (h : Coherent alive r t written unread) (env : Ambient) {k : κ}
    (hk : k ∈ r.posted) : r.hasLive env k = false := by
  rw [Reclaimer.hasLive_eq h.sound, (h.standing k).tracked_of_posted hk]
  rfl

theorem drain [Std.LawfulEqOrd κ] (h : Coherent alive r t written unread) (env : Ambient) :
    Coherent alive { r with posted := [] } (t.removeWhere (fun k => !r.hasLive env k) r.posted)
      written unread := by
  refine { sound := h.sound.reposted [], posted_nodup := List.nodup_nil,
           unread_nodup := h.unread_nodup, standing := fun k => ?_ }
  refine (h.standing k).drain List.not_mem_nil (fun hk => ?_) (fun hk => ?_)
  · rw [Table.getElem?_removeWhere, if_pos ⟨hk, by rw [h.hasLive_eq_false env hk]; rfl⟩]
  · rw [Table.getElem?_removeWhere, if_neg fun hand => hk hand.1]

/-- Only values that are followed are ever posted, and those were not posted before. -/
theorem posted_nodup_settle (h : Coherent alive r t written unread) {env : Ambient}
    {before : κ → Option Value} {keepable : Value → Prop} {dead : List κ}
    (hs : Reclaimer.Settled env r.posted before keepable r' dead)
    (hbefore : ∀ k ∈ r.posted, before k = none) : r'.posted.Nodup := by
  rw [hs.posted_eq]
  refine List.Nodup.append h.posted_nodup hs.nodup fun k hk hdead => ?_
  obtain ⟨-, v, hv, -⟩ := hs.gone k hdead
  exact absurd ((hbefore k hk).symm.trans hv) (by simp)

theorem settle (h : Coherent alive r t written unread) {env : Ambient} {keepable : Value → Prop}
    {dead : List κ} (hs : Reclaimer.Settled env r.posted r.tracked keepable r' dead)
    (hdead : ∀ v, r'.alive env v = false → alive v = false) :
    Coherent alive r' t written unread := by
  refine { sound := hs.sound, unread_nodup := h.unread_nodup,
           posted_nodup := h.posted_nodup_settle hs fun k hk => (h.standing k).tracked_of_posted hk,
           standing := fun k => ?_ }
  refine (h.standing k).settle (by rw [hs.posted_eq, List.mem_append]) (fun hk => ?_) (hs.stays k)
  obtain ⟨hnone, v, hv, hv'⟩ := hs.gone k hk
  exact ⟨hnone, v, hv, hdead v hv'⟩

/-- A value is written. The reclaimer follows it and may push others out for it. -/
theorem write [Std.LawfulEqOrd κ] (h : Coherent alive r t written unread) (hposted : r.posted = [])
    {env : Ambient} {k : κ} {v : Value} {keepable : Value → Prop} {dead : List κ}
    (hs : Reclaimer.Settled env r.posted (Function.update r.tracked k (some v)) keepable r' dead)
    (hdead : ∀ v, r'.alive env v = false → alive v = false) (hv : alive v = true) :
    Coherent alive r' (t.put k (some (.ofValue v))) (Function.update written k (some v))
      (unread.filter (· ≠ k)) := by
  have hmem : ∀ k', k' ∈ r'.posted ↔ k' ∈ dead := by
    intro k'
    rw [hs.posted_eq, hposted, List.nil_append]
  -- the sweep spares the value just written, as it is alive
  have hk : k ∉ dead := by
    intro hk
    obtain ⟨-, w, hw, hw'⟩ := hs.gone k hk
    rw [Function.update_self] at hw
    cases hw
    rw [hdead v hw'] at hv
    exact absurd hv (by simp)
  refine { sound := hs.sound, unread_nodup := h.unread_nodup.filter _,
           posted_nodup := h.posted_nodup_settle hs (by simp [hposted]),
           standing := fun k' => ?_ }
  by_cases hne : k = k'
  · subst hne
    refine .followed v ?_ ?_ (fun hp => hk ((hmem k).mp hp)) (Function.update_self ..) (by simp)
    · rw [Table.getElem?_put, if_pos rfl]
    · rw [hs.stays k hk, Function.update_self]
  · rw [Table.getElem?_put, if_neg hne, Function.update_of_ne (Ne.symm hne), mem_filter_ne hne]
    have hor : k' ∈ r'.posted ↔ k' ∈ r.posted ∨ k' ∈ dead := by
      rw [hmem, hposted]
      simp
    refine (h.standing k').settle hor (fun hd => ?_) (fun hd => ?_)
    · obtain ⟨hnone, w, hw, hw'⟩ := hs.gone k' hd
      rw [Function.update_of_ne (Ne.symm hne)] at hw
      exact ⟨hnone, w, hw, hdead w hw'⟩
    · rw [hs.stays k' hd, Function.update_of_ne (Ne.symm hne)]

/-- A key that is no longer followed stands as its entry and what was written say; the others stand
as before. -/
theorem forget [Std.LawfulEqOrd κ] (h : Coherent alive r t written unread) {k : κ}
    {written' : κ → Option Value} {unread' : List κ}
    (ht : ∀ k', k ≠ k' → t'.entries[k']? = t.entries[k']?)
    (hw : ∀ k', k ≠ k' → written' k' = written k') (hu : unread'.Nodup)
    (hu' : ∀ k', k ≠ k' → (k' ∈ unread') = (k' ∈ unread))
    (hk : Standing alive t'.entries[k]? none (k ∈ r.posted) (written' k) (k ∈ unread')) :
    Coherent alive (r.forget k) t' written' unread' := by
  have hs := Reclaimer.forget_settled h.sound .alone k
  refine { sound := hs.sound, posted_nodup := h.posted_nodup, unread_nodup := hu,
           standing := fun k' => ?_ }
  rw [hs.stays k' List.not_mem_nil]
  by_cases hne : k = k'
  · subst hne
    rw [Function.update_self]
    exact hk
  · rw [Function.update_of_ne (Ne.symm hne), ht k' hne, hw k' hne, hu' k' hne]
    exact h.standing k'

theorem writeMiss [Std.LawfulEqOrd κ] (h : Coherent alive r t written unread)
    (hposted : r.posted = []) (k : κ) :
    Coherent alive (r.forget k) (t.put k (some .dead)) (Function.update written k none)
      (k :: unread.filter (· ≠ k)) := by
  refine h.forget (fun k' hne => ?_) (fun k' hne => ?_) ?_ (fun k' hne => ?_) ?_
  · rw [Table.getElem?_put, if_neg hne]
  · rw [Function.update_of_ne (Ne.symm hne)]
  · exact List.nodup_cons.mpr ⟨by simp, h.unread_nodup.filter _⟩
  · rw [List.mem_cons, mem_filter_ne hne]
    simp [Ne.symm hne]
  · refine .missed ?_ rfl ?_ (Function.update_self ..) List.mem_cons_self
    · rw [Table.getElem?_put, if_pos rfl]
    · rw [hposted]
      exact List.not_mem_nil

/-- A key is taken out, be it because it is removed or because its value was found dead. -/
theorem takeOut [Std.LawfulEqOrd κ] (h : Coherent alive r t written unread) {k : κ}
    {written' : κ → Option Value} (hw : ∀ k', k ≠ k' → written' k' = written k')
    (hdead : ∀ v, written' k = some v → alive v = false) :
    Coherent alive (r.forget k) (t.remove k) written' (unread.filter (· ≠ k)) := by
  refine h.forget (fun k' hne => ?_) hw (h.unread_nodup.filter _)
    (fun k' hne => mem_filter_ne hne unread) ?_
  · rw [Table.getElem?_remove, if_neg hne]
  · exact .absent (by rw [Table.getElem?_remove, if_pos rfl]) rfl hdead (by simp)

theorem clear (h : Coherent alive r t written unread) :
    Coherent alive r.reset { t with entries := ∅ } (fun _ => none) [] := by
  have hs := Reclaimer.reset_settled h.sound .alone
  refine { sound := hs.sound, posted_nodup := h.posted_nodup, unread_nodup := List.nodup_nil,
           standing := fun k => ?_ }
  rw [hs.stays k List.not_mem_nil]
  exact .absent Std.ExtTreeMap.getElem?_empty rfl (by simp) List.not_mem_nil

/-! ## What a key reads as -/

/-- What an entry gives is what was written, while it is alive. -/
theorem upgrade_entry (h : Coherent alive r t written unread) (k : κ) :
    (t.value? k).bind (·.upgrade alive) = (written k).filter alive := by
  rw [Table.value?]
  cases h.standing k with
  | absent he ht hd hu =>
    rw [he]
    cases hw : written k with
    | none => rfl
    | some v =>
      rw [Option.filter_some, if_neg (ne_true_of_eq_false (hd v hw))]
      rfl
  | followed v he ht hp hw hu =>
    rw [he, hw]
    rfl
  | gone v he ht hp hw hd hu =>
    rw [he, hw]
    rfl
  | missed he ht hp hw hu =>
    rw [he, hw]
    rfl

/-- A value that is followed is the one written, and its entry is there. -/
theorem entry_of_tracked (h : Coherent alive r t written unread) {k : κ} {v : Value}
    (hv : r.tracked k = some v) :
    t.entries[k]? = some (some (.ofValue v)) ∧ written k = some v := by
  cases h.standing k with
  | absent he ht hd hu => exact absurd (ht.symm.trans hv) (by simp)
  | followed w he ht hp hw hu =>
    cases ht.symm.trans hv
    exact ⟨he, hw⟩
  | gone w he ht hp hw hd hu => exact absurd (ht.symm.trans hv) (by simp)
  | missed he ht hp hw hu => exact absurd (ht.symm.trans hv) (by simp)

/-- A value that was written and is alive is followed, and its entry is there to stay. -/
theorem followed_of_alive (h : Coherent alive r t written unread) {k : κ} {v : Value}
    (hw : written k = some v) (hv : alive v = true) :
    t.entries[k]? = some (some (.ofValue v)) ∧ r.tracked k = some v ∧ k ∉ r.posted ∧
      k ∉ unread := by
  cases h.standing k with
  | absent he ht hd hu => exact absurd hv (by simp [hd v hw])
  | followed w he ht hp hw' hu =>
    cases hw.symm.trans hw'
    exact ⟨he, ht, hp, hu⟩
  | gone w he ht hp hw' hd hu =>
    cases hw.symm.trans hw'
    exact absurd hv (by simp [hd])
  | missed he ht hp hw' hu => exact absurd (hw.symm.trans hw') (by simp)

/-- The entry of a live value does not wait to be taken out. -/
theorem notin_posted_of_entry (h : Coherent alive r t written unread) {k : κ} {v : Value}
    (hentry : t.entries[k]? = some (some (.ofValue v))) (hv : alive v = true) : k ∉ r.posted := by
  cases h.standing k with
  | absent he ht hd hu => exact absurd (he.symm.trans hentry) (by simp)
  | followed w he ht hp hw hu => exact hp
  | gone w he ht hp hw hd hu =>
    cases he.symm.trans hentry
    exact absurd hv (by simp [hd])
  | missed he ht hp hw hu => exact hp

/-- An unread miss has an entry. -/
theorem notin_unread_of_absent (h : Coherent alive r t written unread) {k : κ}
    (hk : t.value? k = none) : k ∉ unread := by
  rw [Table.value?] at hk
  cases h.standing k with
  | absent he ht hd hu => exact hu
  | followed v he ht hp hw hu => exact hu
  | gone v he ht hp hw hd hu => exact hu
  | missed he ht hp hw hu =>
    rw [he] at hk
    exact absurd hk (by simp)

/-- Reading a key that is no unread miss leaves the unread misses as they are. -/
theorem filter_ne_of_notin {κ : Type} [DecidableEq κ] {k : κ} {l : List κ} (h : k ∉ l) :
    l.filter (· ≠ k) = l :=
  List.filter_eq_self.mpr fun _ hk' => decide_eq_true fun heq => h (heq ▸ hk')

end Coherent

end SoftTier
