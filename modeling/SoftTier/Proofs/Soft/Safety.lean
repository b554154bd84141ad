import SoftTier.Proofs.Reclaimer.Operations
import SoftTier.Proofs.Soft.Refusals
import SoftTier.Proofs.Soft.Validity

/-!
# What is so after any acts over a store that fails

A write that fails leaves a key *unsettled*: the value is followed although its entry is not there.
Under every other key what is followed is what the entry gives, and what is posted is dead, whatever
calls on the store below have failed.

- `Custody.unsettled`: whether a write of a key failed after the last request that settled it.
- `Tidy`: how the entry of a key, the value followed under it and the posted keys go together.
- `Custody.Safe`: every key that is not unsettled is tidy.
- `Custody.Safe.write`, `Custody.Safe.read` and so on: this outlasts each act, be it done or failed.
- `Custody.safe_start`, `Custody.safe_step`, `Custody.safe_run`: it holds after any acts.
-/

namespace SoftTier

/-! ## Single keys -/

/-- What is known of a key by its entry, the value followed under it and whether it is posted. -/
structure Tidy (alive : Value → Bool) (entry : Option (Option Handle)) (tracked : Option Value)
    (posted : Prop) : Prop where
  /-- A value that is followed is in the entry. -/
  entry_eq : ∀ v, tracked = some v → entry = some (some (.ofValue v))
  /-- Nothing is followed under a posted key. -/
  untracked : posted → tracked = none
  /-- The entry of a posted key is not that of a live value. -/
  dead : posted → ∀ v, entry = some (some (.ofValue v)) → alive v = false

namespace Tidy

variable {alive alive' : Value → Bool} {entry entry' : Option (Option Handle)}
  {tracked tracked' : Option Value} {posted posted' : Prop}

/-- A value that is dead stays dead. -/
theorem mono (h : Tidy alive entry tracked posted)
    (hle : ∀ v, alive' v = true → alive v = true) : Tidy alive' entry tracked posted :=
  { h with
    dead := fun hposted v hv => Bool.eq_false_iff.mpr fun hv' =>
      ne_true_of_eq_false (h.dead hposted v hv) (hle v hv') }

/-- A posted key can be taken off, and its entry out. -/
theorem takeOut (h : Tidy alive entry tracked posted) (hposted : posted' → posted)
    (hentry : entry' = entry ∨ entry' = none ∧ posted) : Tidy alive entry' tracked posted' := by
  rcases hentry with rfl | ⟨rfl, hout⟩
  · exact ⟨h.entry_eq, fun hp => h.untracked (hposted hp), fun hp => h.dead (hposted hp)⟩
  · refine ⟨fun v hv => ?_, fun _ => h.untracked hout, fun _ v hv => absurd hv (by simp)⟩
    exact absurd ((h.untracked hout).symm.trans hv) (by simp)

/-- A value that is no longer followed is dead and its key posted. -/
theorem settle (h : Tidy alive entry tracked posted) (dead : Prop)
    (hposted : posted' ↔ posted ∨ dead)
    (hgone : dead → tracked' = none ∧ ∃ v, tracked = some v ∧ alive v = false)
    (hstays : ¬dead → tracked' = tracked) : Tidy alive entry tracked' posted' := by
  by_cases hdead : dead
  · obtain ⟨rfl, v, hv, hv'⟩ := hgone hdead
    refine ⟨fun w hw => absurd hw (by simp), fun _ => rfl, fun _ w hw => ?_⟩
    rw [h.entry_eq v hv] at hw
    cases hw
    exact hv'
  · rw [hstays hdead]
    have hp : posted' → posted := fun hp' => (hposted.mp hp').resolve_right hdead
    exact ⟨h.entry_eq, fun hp' => h.untracked (hp hp'), fun hp' => h.dead (hp hp')⟩

end Tidy

/-- A drain leaves what is followed as it is. -/
theorem Soft.Takes.sound {κ : Type} [DecidableEq κ] [Ord κ] [Std.TransOrd κ] {env : Ambient}
    {l : List κ} {s d : Soft κ (Probe κ Handle)} (h : Soft.Takes env l s d)
    (hs : s.reclaimer.Sound) : d.reclaimer.Sound := by
  obtain ⟨posted, -, hr⟩ := h.reclaimer_eq
  rw [hr]
  exact hs.reposted posted

/-- A handle that was looked up is in the entry. -/
theorem Table.getElem?_of_value? {κ : Type} [Ord κ] [Std.TransOrd κ] {t : Table κ Handle} {k : κ}
    {handle : Handle} {v : Value} (hval : t.value? k = some handle)
    (htarget : handle.target = some v) : t.entries[k]? = some (some (.ofValue v)) := by
  obtain ⟨target⟩ := handle
  subst htarget
  exact Option.join_eq_some_iff.mp hval

namespace Custody

variable {κ : Type} [Ord κ]

section Unsettled

variable [DecidableEq κ]

/-- Whether a write of a key failed after the last request that settled it: a write, a removal or a
clear that was done. -/
def unsettled (k : κ) : Record κ → Bool
  | [] => false
  | (.write k' _, .failed _) :: past => if k = k' then true else unsettled k past
  | (.write k' _, .done) :: past => if k = k' then false else unsettled k past
  | (.writeMiss k', .done) :: past => if k = k' then false else unsettled k past
  | (.erase k' _, .found _) :: past => if k = k' then false else unsettled k past
  | (.clear, .done) :: _ => false
  | _ :: past => unsettled k past

end Unsettled

/-- Whatever an operation on the layer comes to is put on record. -/
theorem perform_leaves {σ α : Type} {c : Custody κ σ} {visit : Visit} (act : Act κ)
    (reply : α → Answer) {x : Op (Soft κ σ) α} {Q : Except Failure α → Soft κ σ → Prop}
    (h : x.Leaves (c.around visit) c.layer Q) :
    ∃ r layer, Q r layer ∧ c.perform visit act reply x = { c with
      layer
      past := (act, match r with
        | .ok a => reply a
        | .error e => .failed (.failure e)) :: c.past } := ⟨_, _, h, rfl⟩

theorem performFinding_leaves {σ : Type} {c : Custody κ σ} {visit : Visit} (act : Act κ)
    (hold : Bool) {x : Op (Soft κ σ) (Option Value)}
    {Q : Except Failure (Option Value) → Soft κ σ → Prop}
    (h : x.Leaves (c.around visit) c.layer Q) :
    ∃ r layer, Q r layer ∧ c.performFinding visit act hold x = match r with
      | .ok found => { c with
        layer
        held := if hold then found.toList ++ c.held else c.held
        past := (act, .found found) :: c.past }
      | .error e => { c with layer, past := (act, .failed (.failure e)) :: c.past } := by
  refine ⟨_, _, h, ?_⟩
  rw [performFinding]
  cases (x (c.around visit) c.layer).result <;> rfl

variable [DecidableEq κ] [Std.TransOrd κ]

/-- Every settled key is tidy, and a value that is made next is one that nobody has seen. -/
structure Safe (c : Custody κ (Probe κ Handle)) : Prop where
  sound : c.layer.reclaimer.Sound
  tidy : ∀ k, unsettled k c.past = false →
    Tidy c.alive c.layer.below.table.entries[k]? (c.layer.reclaimer.tracked k)
      (k ∈ c.layer.reclaimer.posted)
  entry_lt : ∀ (k : κ) (v : Value),
    c.layer.below.table.entries[k]? = some (some (.ofValue v)) → v.tag < c.made
  held_lt : ∀ v ∈ c.held, v.tag < c.made

/-- A drain lets nothing go. -/
theorem alive_of_takes {c : Custody κ (Probe κ Handle)} {env : Ambient} {l : List κ}
    {d : Soft κ (Probe κ Handle)} (h : Soft.Takes env l c.layer d) (v : Value) :
    Custody.alive { c with layer := d } v = c.alive v := by
  obtain ⟨posted, -, hr⟩ := h.reclaimer_eq
  show (keeps c.held v || keeps d.pinned v || keeps d.reclaimer v) = c.alive v
  rw [h.pinned_eq, hr]
  rfl

/-- What an act leaves is told by what the reclaimer followed and had posted before the sweep that
may end the act. -/
theorem safe_of_settled {c : Custody κ (Probe κ Handle)} {env : Ambient} {posted dead : List κ}
    {before : κ → Option Value} {keepable : Value → Prop} (alive : Value → Bool)
    (hs : Reclaimer.Settled env posted before keepable c.layer.reclaimer dead)
    (halive : ∀ v, c.alive v = true → alive v = true)
    (hdead : ∀ k ∈ dead, ∀ v, c.layer.reclaimer.alive env v = false → c.alive v = false)
    (htidy : ∀ k, unsettled k c.past = false →
      Tidy alive c.layer.below.table.entries[k]? (before k) (k ∈ posted))
    (hentry : ∀ (k : κ) (v : Value),
      c.layer.below.table.entries[k]? = some (some (.ofValue v)) → v.tag < c.made)
    (hheld : ∀ v ∈ c.held, v.tag < c.made) : c.Safe := by
  refine { sound := hs.sound, tidy := fun k hk => ?_, entry_lt := hentry, held_lt := hheld }
  refine ((htidy k hk).mono halive).settle (k ∈ dead) ?_ (fun hk' => ?_) (hs.stays k)
  · rw [hs.posted_eq, List.mem_append]
  · obtain ⟨hnone, v, hv, hv'⟩ := hs.gone k hk'
    exact ⟨hnone, v, hv, hdead k hk' v hv'⟩

namespace Safe

variable {c : Custody κ (Probe κ Handle)}

/-- Something that changes no entry and nothing in the reclaimer. -/
theorem of_alive (h : c.Safe) {held pinned : List Value} {pinCapacity made : Nat} {past : Record κ}
    (hmade : c.made ≤ made) (hheld : ∀ v ∈ held, v.tag < made)
    (halive : ∀ v, v.tag < c.made →
      Custody.alive { c with held, layer := { c.layer with pinned } } v = true → c.alive v = true)
    (hpast : ∀ k, unsettled k past = false → unsettled k c.past = false) :
    Safe { c with
      layer := { c.layer with pinned, pinCapacity }
      held, made, past } := by
  refine { sound := h.sound, tidy := fun k hk => ?_, held_lt := hheld,
           entry_lt := fun k v hv => Nat.lt_of_lt_of_le (h.entry_lt k v hv) hmade }
  have ht := h.tidy k (hpast k hk)
  refine { ht with dead := fun hposted v hv => Bool.eq_false_iff.mpr fun hv' => ?_ }
  exact ne_true_of_eq_false (ht.dead hposted v hv) (halive v (h.entry_lt k v hv) hv')

/-- What has been drained, in whole or in part. -/
theorem takes (h : c.Safe) {env : Ambient} {d : Soft κ (Probe κ Handle)}
    (ht : Soft.Takes env c.layer.reclaimer.posted c.layer d) : Safe { c with layer := d } := by
  obtain ⟨posted, hsuffix, hr⟩ := ht.reclaimer_eq
  have hsame : Custody.alive { c with layer := d } = c.alive := funext (alive_of_takes ht)
  refine { sound := ht.sound h.sound, tidy := fun k hk => ?_, held_lt := h.held_lt,
           entry_lt := fun k v hv => h.entry_lt k v (ht.entry_eq hv) }
  show Tidy (Custody.alive { c with layer := d }) d.below.table.entries[k]?
    (d.reclaimer.tracked k) (k ∈ d.reclaimer.posted)
  rw [hsame, hr]
  refine (h.tidy k hk).takeOut (fun hp => hsuffix.mem hp) ?_
  exact (ht.entry_cases k).imp_right fun ⟨hnone, hmem, _⟩ => ⟨hnone, hmem⟩

/-- The record has got longer by something that settles no key. -/
theorem recorded (h : c.Safe) {past : Record κ}
    (hpast : ∀ k, unsettled k past = false → unsettled k c.past = false) :
    Safe { c with past } :=
  { sound := h.sound, tidy := fun k hk => h.tidy k (hpast k hk), entry_lt := h.entry_lt,
    held_lt := h.held_lt }

/-- The store below has another state with the same entries. -/
theorem sameEntries (h : c.Safe) {p : Probe κ Handle} (htable : p.table = c.layer.below.table) :
    Safe { c with layer := { c.layer with below := p } } := by
  refine { sound := h.sound, tidy := fun k hk => ?_, entry_lt := fun k v hv => ?_,
           held_lt := h.held_lt }
  · show Tidy _ p.table.entries[k]? _ _
    rw [htable]
    exact h.tidy k hk
  · have hentry : p.table.entries[k]? = some (some (.ofValue v)) := hv
    rw [htable] at hentry
    exact h.entry_lt k v hentry

/-! ## Acts with values -/

theorem make (h : c.Safe) (visit : Visit) (text : String) : (c.step visit (.make text)).Safe := by
  refine h.of_alive (Nat.le_succ _) (fun v hv => ?_) (fun v hlt hv => ?_) fun _ hk => hk
  · rcases List.mem_cons.mp hv with rfl | hv
    · exact Nat.lt_succ_self _
    · exact Nat.lt_succ_of_lt (h.held_lt v hv)
  · -- the value just made is not in any entry yet
    refine (alive_of_held_cons c hv rfl rfl).resolve_left ?_
    rintro rfl
    exact absurd hlt (Nat.lt_irrefl _)

theorem keep (h : c.Safe) (visit : Visit) (v : Value) : (c.step visit (.keep v)).Safe := by
  rw [step]
  split
  · rename_i hv
    have hmem := keeps_list_iff.mp hv
    refine h.of_alive (Nat.le_refl _) (fun w hw => ?_) (fun w _ hw => ?_) fun _ hk => hk
    · rcases List.mem_cons.mp hw with rfl | hw
      · exact h.held_lt w hmem
      · exact h.held_lt w hw
    · rcases alive_of_held_cons c hw rfl rfl with rfl | hw
      · exact alive_of_mem_held c hmem
      · exact hw
  · exact h

theorem drop (h : c.Safe) (visit : Visit) (v : Value) : (c.step visit (.drop v)).Safe := by
  refine h.of_alive (Nat.le_refl _) (fun w hw => h.held_lt w (List.mem_of_mem_erase hw))
    (fun w _ hw => ?_) fun _ hk => hk
  refine alive_of hw (fun hheld => ?_) (alive_of_mem_pinned c) (alive_of_keeps c)
  exact alive_of_mem_held c (List.mem_of_mem_erase hheld)

/-! ## Acts that give up retention -/

theorem setPinCapacity (h : c.Safe) (visit : Visit) (n : Nat) :
    (c.step visit (.setPinCapacity n)).Safe :=
  h.of_alive (Nat.le_refl _) h.held_lt (fun _ _ hv => hv) fun _ hk => hk

/-- After a sweep that is no part of a request. -/
theorem swept (h : c.Safe) {visit : Visit} {r : Reclaimer κ} {dead : List κ}
    (hs : Reclaimer.Settled ((c.around visit).also c.layer.pinned) c.layer.reclaimer.posted
      c.layer.reclaimer.tracked (keeps c.layer.reclaimer · = true) r dead)
    {act : Act κ} {answer : Answer}
    (hpast : ∀ k, unsettled k ((act, answer) :: c.past) = unsettled k c.past) :
    Safe { c with layer := { c.layer with reclaimer := r }, past := (act, answer) :: c.past } := by
  refine safe_of_settled c.alive hs (fun v hv => ?_) (fun _ _ v hv => hv)
    (fun k hk => h.tidy k (hpast k ▸ hk)) h.entry_lt h.held_lt
  refine alive_of hv (alive_of_mem_held c) (alive_of_mem_pinned c) fun hkept => ?_
  exact alive_of_keeps c (hs.keeps_only v hkept)

theorem sweep (h : c.Safe) (visit : Visit) : (c.step visit .sweep).Safe := by
  rw [step, perform_eq Soft.sweep_yields]
  have hs := Reclaimer.sweep_settled ((c.around visit).also c.layer.pinned) h.sound rfl
    (fun _ => rfl) fun _ hv => hv
  exact h.swept hs fun _ => rfl

/-- All retention is gone. Nothing is followed then and nothing was posted before, so every key is
tidy. -/
theorem reset (h : c.Safe) (hposted : c.layer.reclaimer.posted = []) {p : Probe κ Handle}
    {past : Record κ}
    (hentry : ∀ (k : κ) (v : Value),
      p.table.entries[k]? = some (some (.ofValue v)) → v.tag < c.made) :
    Safe { c with
      layer := { c.layer with reclaimer := c.layer.reclaimer.reset, below := p }
      past } := by
  have hs := Reclaimer.reset_settled h.sound .alone
  refine safe_of_settled c.alive hs (fun v hv => ?_) (fun k hk => absurd hk List.not_mem_nil)
    (fun k _ => ?_) hentry h.held_lt
  · refine alive_of hv (alive_of_mem_held c) (alive_of_mem_pinned c) fun hkept => ?_
    exact absurd (hs.keeps_only v hkept) not_false
  · have hnil : k ∉ c.layer.reclaimer.posted := by
      rw [hposted]
      exact List.not_mem_nil
    exact ⟨fun v hv => absurd hv (by simp), fun _ => rfl, fun hmem => absurd hmem hnil⟩

variable [Std.LawfulEqOrd κ]

theorem shrink (h : c.Safe) (visit : Visit) (n : Nat) : (c.step visit (.shrink n)).Safe := by
  obtain ⟨dead, hs⟩ := Reclaimer.shrink_settled h.sound ((c.around visit).also c.layer.pinned) n
  rw [step, perform_eq (Soft.shrink_yields n)]
  exact h.swept hs fun _ => rfl

theorem setCapacity (h : c.Safe) (visit : Visit) (n : Nat) :
    (c.step visit (.setCapacity n)).Safe := by
  rcases Nat.eq_zero_or_pos n with rfl | hn
  · rw [step, perform_eq (Soft.setCapacity_yields_error (Reclaimer.setCapacity_zero ..))]
    exact { sound := h.sound, tidy := h.tidy, entry_lt := h.entry_lt, held_lt := h.held_lt }
  · obtain ⟨p, dead, hset, hs⟩ := Reclaimer.setCapacity_settled h.sound
      ((c.around visit).also c.layer.pinned) hn
    rw [step, perform_eq (Soft.setCapacity_yields_ok hset)]
    exact h.swept hs fun _ => rfl

/-! ## Requests -/

/-- A value is retained under a key, whose entry may be that of this value by now. -/
theorem retained (h : c.Safe) {visit : Visit} {k : κ} {v : Value} (hheld : v ∈ c.held)
    (hposted : c.layer.reclaimer.posted = []) {p : Probe κ Handle} {past : Record κ}
    (hne : ∀ k', k' ≠ k → p.table.entries[k']? = c.layer.below.table.entries[k']?)
    (hk : ∀ w : Value, p.table.entries[k]? = some (some (.ofValue w)) → w.tag < c.made)
    (hpast : ∀ k', k' ≠ k → unsettled k' past = false → unsettled k' c.past = false)
    (hsettled : unsettled k past = false → p.table.entries[k]? = some (some (.ofValue v))) :
    Safe { c with
      layer := { c.layer with
        reclaimer :=
          (c.layer.reclaimer.retain (((c.around visit).also v).also c.layer.pinned) k v).2
        below := p }
      past } := by
  obtain ⟨-, dead, hs⟩ := Reclaimer.retain_settled h.sound
    (((c.around visit).also v).also c.layer.pinned) k v
  refine safe_of_settled c.alive hs (fun w hw => ?_) (fun _ _ w => dead_of_holding rfl rfl)
    (fun k' hk' => ?_) (fun k' w hw => ?_) h.held_lt
  · refine alive_of hw (alive_of_mem_held c) (alive_of_mem_pinned c) fun hkept => ?_
    rcases hs.keeps_only w hkept with rfl | hkept
    · exact alive_of_mem_held c hheld
    · exact alive_of_keeps c hkept
  · have hnil : k' ∉ c.layer.reclaimer.posted := by
      rw [hposted]
      exact List.not_mem_nil
    by_cases heq : k' = k
    · subst heq
      rw [Function.update_self]
      refine ⟨fun w hw => ?_, fun hmem => absurd hmem hnil, fun hmem => absurd hmem hnil⟩
      cases hw
      exact hsettled hk'
    · rw [Function.update_of_ne heq]
      show Tidy _ p.table.entries[k']? _ _
      rw [hne k' heq]
      exact h.tidy k' (hpast k' heq hk')
  · by_cases heq : k' = k
    · subst heq
      exact hk w hw
    · have hentry : p.table.entries[k']? = some (some (.ofValue w)) := hw
      rw [hne k' heq] at hentry
      exact h.entry_lt k' w hentry

/-- A key is no longer followed, and its entry is that of a value only if the value is dead or the
key not posted. -/
theorem forgotten (h : c.Safe) {k : κ} {p : Probe κ Handle} {held : List Value} {past : Record κ}
    (hne : ∀ k', k' ≠ k → p.table.entries[k']? = c.layer.below.table.entries[k']?)
    (hk : ∀ v : Value, p.table.entries[k]? = some (some (.ofValue v)) → v.tag < c.made)
    (hdead : k ∈ c.layer.reclaimer.posted →
      ∀ v, p.table.entries[k]? = some (some (.ofValue v)) → c.alive v = false)
    (hpast : ∀ k', k' ≠ k → unsettled k' past = false → unsettled k' c.past = false)
    (hheld : ∀ v ∈ held, c.alive v = true ∧ v.tag < c.made) :
    Safe { c with
      layer := { c.layer with reclaimer := c.layer.reclaimer.forget k, below := p }
      held, past } := by
  have hs := Reclaimer.forget_settled h.sound .alone k
  refine safe_of_settled c.alive hs (fun w hw => ?_)
    (fun k' hk' => absurd hk' List.not_mem_nil) (fun k' hk' => ?_) (fun k' w hw => ?_)
    fun w hw => (hheld w hw).2
  · refine alive_of hw (fun hmem => (hheld w hmem).1) (alive_of_mem_pinned c) fun hkept => ?_
    exact alive_of_keeps c (hs.keeps_only w hkept)
  · by_cases heq : k' = k
    · subst heq
      rw [Function.update_self]
      exact ⟨fun w hw => absurd hw (by simp), fun _ => rfl, hdead⟩
    · rw [Function.update_of_ne heq]
      show Tidy _ p.table.entries[k']? _ _
      rw [hne k' heq]
      exact h.tidy k' (hpast k' heq hk')
  · by_cases heq : k' = k
    · subst heq
      exact hk w hw
    · have hentry : p.table.entries[k']? = some (some (.ofValue w)) := hw
      rw [hne k' heq] at hentry
      exact h.entry_lt k' w hentry

theorem size (h : c.Safe) (visit : Visit) : (c.step visit .size).Safe := by
  obtain ⟨r, layer, hends, heq⟩ := perform_leaves .size .count
    (Soft.size_leaves (c.around visit) c.layer)
  rw [step, heq]
  cases hends with
  | stopped e htakes => exact (h.takes htakes).recorded fun _ hk => hk
  | refused e htakes _ htable => exact ((h.takes htakes).sameEntries htable).recorded fun _ hk => hk
  | served htakes _ htable => exact ((h.takes htakes).sameEntries htable).recorded fun _ hk => hk

/-- A write that fails leaves its key unsettled, one that is done settles it. -/
theorem write (h : c.Safe) (visit : Visit) (k : κ) (v : Value) :
    (c.step visit (.write k v)).Safe := by
  have hpast : ∀ k', k' ≠ k → ∀ answer, unsettled k' ((.write k v, answer) :: c.past) =
      unsettled k' c.past := by
    intro k' hne answer
    cases answer <;> simp [unsettled, hne]
  have hfailed : ∀ k' fault, unsettled k' ((.write k v, .failed fault) :: c.past) = false →
      unsettled k' c.past = false := by
    intro k' fault hk'
    rw [unsettled] at hk'
    split at hk'
    · exact absurd hk' (by simp)
    · exact hk'
  rw [step]
  split
  · rename_i hheld
    have hmem := keeps_list_iff.mp hheld
    obtain ⟨r, layer, hends, heq⟩ := perform_leaves (.write k v) (fun _ => .done)
      (Soft.write_leaves (c.around visit) c.layer k v)
    rw [heq]
    cases hends with
    | stopped e htakes => exact (h.takes htakes).recorded fun k' hk' => hfailed k' _ hk'
    | refused e htakes hposted htable =>
      have hd := h.takes htakes
      refine hd.retained hmem hposted (fun k' _ => by rw [htable]) (fun w hw => ?_)
        (fun k' _ hk' => hfailed k' _ hk') (fun hk => ?_)
      · rw [htable] at hw
        exact hd.entry_lt k w hw
      · simp [unsettled] at hk
    | served htakes hposted htable =>
      have hd := h.takes htakes
      have hentry : ∀ k', _ = _ := fun k' =>
        (congrArg (·.entries[k']?) htable).trans (Table.getElem?_put k k' _ _)
      refine hd.retained hmem hposted (fun k' hne => ?_) (fun w hw => ?_)
        (fun k' hne hk' => ?_) (fun hk => ?_)
      · rw [hentry, if_neg (Ne.symm hne)]
      · rw [hentry, if_pos rfl] at hw
        cases hw
        exact h.held_lt v hmem
      · rwa [hpast k' hne] at hk'
      · rw [hentry, if_pos rfl]
  · exact h

/-- A miss that fails to be written leaves the key with what it had, but not followed. -/
theorem writeMiss (h : c.Safe) (visit : Visit) (k : κ) : (c.step visit (.writeMiss k)).Safe := by
  have hpast : ∀ k', k' ≠ k → unsettled k' ((.writeMiss k, .done) :: c.past) = false →
      unsettled k' c.past = false := by
    intro k' hne hk'
    rwa [unsettled, if_neg hne] at hk'
  obtain ⟨r, layer, hends, heq⟩ := perform_leaves (.writeMiss k) (fun _ => .done)
    (Soft.writeMiss_leaves (c.around visit) c.layer k)
  rw [step, heq]
  cases hends with
  | stopped e htakes => exact (h.takes htakes).recorded fun _ hk => hk
  | refused e htakes hposted htable =>
    have hd := h.takes htakes
    refine hd.forgotten (fun k' _ => by rw [htable]) (fun w hw => ?_) (fun hmem => ?_)
      (fun k' _ hk' => hk') fun w hw => ⟨alive_of_mem_held _ hw, h.held_lt w hw⟩
    · rw [htable] at hw
      exact hd.entry_lt k w hw
    · exact absurd (hposted ▸ hmem) List.not_mem_nil
  | served htakes hposted htable =>
    have hentry : ∀ k', _ = _ := fun k' =>
      (congrArg (·.entries[k']?) htable).trans (Table.getElem?_put k k' _ _)
    refine (h.takes htakes).forgotten (fun k' hne => ?_) (fun w hw => ?_) (fun hmem => ?_) hpast
      fun w hw => ⟨alive_of_mem_held _ hw, h.held_lt w hw⟩
    · rw [hentry, if_neg (Ne.symm hne)]
    · rw [hentry, if_pos rfl] at hw
      exact absurd hw (by simp [Handle.dead, Handle.ofValue])
    · exact absurd (hposted ▸ hmem) List.not_mem_nil

/-- A clear that fails has let the pins go, and unless it was stopped early all retention. -/
theorem clear (h : c.Safe) (visit : Visit) : (c.step visit .clear).Safe := by
  have hunpinned : Safe { c with layer := { c.layer with pinned := [] } } := by
    refine h.of_alive (Nat.le_refl _) h.held_lt (fun v _ hv => ?_) fun _ hk => hk
    exact alive_of hv (alive_of_mem_held c) (fun hmem => absurd hmem List.not_mem_nil)
      (alive_of_keeps c)
  obtain ⟨r, layer, hends, heq⟩ := perform_leaves .clear (fun _ => .done)
    (Soft.clear_leaves (c.around visit) c.layer)
  rw [step, heq]
  cases hends with
  | stopped e htakes => exact (hunpinned.takes htakes).recorded fun _ hk => hk
  | refused e htakes hposted htable =>
    have hd := hunpinned.takes htakes
    exact hd.reset hposted fun k v hv => hd.entry_lt k v (htable ▸ hv)
  | served htakes hposted htable =>
    refine (hunpinned.takes htakes).reset hposted fun k v hv => ?_
    rw [htable] at hv
    exact absurd (Std.ExtTreeMap.getElem?_empty.symm.trans hv) (by simp)

/-- What a removal gives was alive, whether or not the caller held it. -/
theorem erase (h : c.Safe) (visit : Visit) (k : κ) (hold : Bool) :
    (c.step visit (.erase k hold)).Safe := by
  have hpast : ∀ found k', k' ≠ k → unsettled k' ((.erase k hold, .found found) :: c.past) = false →
      unsettled k' c.past = false := by
    intro found k' hne hk'
    rwa [unsettled, if_neg hne] at hk'
  obtain ⟨r, layer, hends, heq⟩ := performFinding_leaves (.erase k hold) hold
    (Soft.erase_leaves (c.around visit) c.layer k)
  rw [step, heq]
  cases hends with
  | stopped e htakes => exact (h.takes htakes).recorded fun _ hk => hk
  | refused e htakes _ htable => exact ((h.takes htakes).sameEntries htable).recorded fun _ hk => hk
  | served htakes hposted htable =>
    rename_i d p
    have hd := h.takes htakes
    have hentry : ∀ k', _ = _ := fun k' =>
      (congrArg (·.entries[k']?) htable).trans (Table.getElem?_remove k k' _)
    refine hd.forgotten (fun k' hne => ?_) (fun w hw => ?_) (fun hmem => ?_) (hpast _)
      fun w hw => ?_
    · rw [hentry, if_neg (Ne.symm hne)]
    · rw [hentry, if_pos rfl] at hw
      exact absurd hw (by simp)
    · exact absurd (hposted ▸ hmem) List.not_mem_nil
    · rcases mem_held_found hw with hfound | hmem
      · obtain ⟨handle, hval, hup⟩ := Option.bind_eq_some_iff.mp hfound
        obtain ⟨htarget, hlive⟩ := Handle.upgrade_eq_some_iff.mp hup
        exact ⟨hlive, hd.entry_lt k w (Table.getElem?_of_value? hval htarget)⟩
      · exact ⟨alive_of_mem_held _ hmem, h.held_lt w hmem⟩

/-- A lookup of a live value retains it, unless retention has another value under the key, which a
write that failed has left there. -/
theorem read_live (h : c.Safe) {visit : Visit} {k : κ} {hold : Bool} {handle : Handle} {v : Value}
    (hval : c.layer.below.table.value? k = some handle) (hup : handle.upgrade c.alive = some v)
    {p : Probe κ Handle} (htable : p.table = c.layer.below.table) :
    Safe { c with
      layer := { c.layer with
        pinned := (v :: c.layer.pinned).take c.layer.pinCapacity
        reclaimer := (c.layer.reclaimer.refresh ((c.around visit).also c.layer.pinned) k v).2
        below := p }
      held := if hold then (some v).toList ++ c.held else c.held
      past := (.read k hold, .found (some v)) :: c.past } := by
  obtain ⟨htarget, hv⟩ := Handle.upgrade_eq_some_iff.mp hup
  have hentry := Table.getElem?_of_value? hval htarget
  have hlt : ∀ (k' : κ) (w : Value), p.table.entries[k']? = some (some (.ofValue w)) →
      w.tag < c.made := fun k' w hw => h.entry_lt k' w (htable ▸ hw)
  have hheld : ∀ w ∈ (if hold then (some v).toList ++ c.held else c.held), w.tag < c.made := by
    intro w hw
    rcases mem_held_found hw with heq | hw
    · exact Option.some.inj heq ▸ h.entry_lt k v hentry
    · exact h.held_lt w hw
  rcases Reclaimer.refresh_cases h.sound ((c.around visit).also c.layer.pinned) k v with
    ⟨w, -, -, hs⟩ | ⟨hmem, dead, hs⟩
  · refine safe_of_settled c.alive hs
      (fun x => alive_of_found rfl rfl (fun hkept => .inr (hs.keeps_only x hkept)) hv)
      (fun k' hk' => absurd hk' List.not_mem_nil) (fun k' hk' => ?_) hlt hheld
    show Tidy _ p.table.entries[k']? _ _
    rw [htable]
    exact h.tidy k' hk'
  · have hkept := hs.sound.keeps_iff.mpr ⟨k, hmem⟩
    refine safe_of_settled c.alive hs
      (fun x => alive_of_found rfl rfl (hs.keeps_only x) hv)
      (fun _ _ x => dead_of_found rfl rfl hkept) (fun k' hk' => ?_) hlt hheld
    show Tidy _ p.table.entries[k']? _ _
    rw [htable]
    by_cases heq : k' = k
    · subst heq
      rw [Function.update_self]
      -- a settled key with a live value is not posted
      have hnot : k' ∉ c.layer.reclaimer.posted := fun hposted =>
        ne_true_of_eq_false ((h.tidy k' hk').dead hposted v hentry) hv
      exact ⟨fun x hx => Option.some.inj hx ▸ hentry, fun hposted => absurd hposted hnot,
        fun hposted => absurd hposted hnot⟩
    · rw [Function.update_of_ne heq]
      exact h.tidy k' hk'

/-- A lookup of a dead value stops following its key. As the value is dead, it does not matter
whether the entry can be taken out. -/
theorem read_dead (h : c.Safe) {k : κ} {handle : Handle}
    (hval : c.layer.below.table.value? k = some handle) (hup : handle.upgrade c.alive = none)
    {p : Probe κ Handle} {past : Record κ}
    (hpast : ∀ k', unsettled k' past = false → unsettled k' c.past = false)
    (htable : p.table = c.layer.below.table ∨ p.table = c.layer.below.table.remove k) :
    Safe { c with
      layer := { c.layer with reclaimer := c.layer.reclaimer.forget k, below := p }
      past } := by
  have hentry : ∀ k', p.table.entries[k']? = c.layer.below.table.entries[k']? ∨
      k' = k ∧ p.table.entries[k']? = none := by
    intro k'
    rcases htable with htable | htable
    · rw [htable]
      exact .inl rfl
    · rw [htable, Table.getElem?_remove]
      split
      · rename_i heq
        exact .inr ⟨heq.symm, rfl⟩
      · exact .inl rfl
  have hkeep : ∀ v : Value, p.table.entries[k]? = some (some (.ofValue v)) →
      c.layer.below.table.entries[k]? = some (some (.ofValue v)) := by
    intro v hv
    rcases hentry k with heq | ⟨-, hnone⟩
    · exact heq ▸ hv
    · exact absurd (hnone.symm.trans hv) (by simp)
  refine h.forgotten (fun k' hne => (hentry k').resolve_right fun hand => hne hand.1)
    (fun v hv => h.entry_lt k v (hkeep v hv)) (fun _ v hv => ?_) (fun k' _ => hpast k')
    fun v hv => ⟨alive_of_mem_held c hv, h.held_lt v hv⟩
  have hsame : handle = .ofValue v := by
    rw [Table.value?_eq (hkeep v hv)] at hval
    exact (Option.some.inj hval).symm
  subst hsame
  exact Bool.eq_false_iff.mpr fun hlive => absurd (hup.symm.trans
    (Handle.upgrade_eq_some_iff.mpr ⟨rfl, hlive⟩)) (by simp)

theorem read (h : c.Safe) (visit : Visit) (k : κ) (hold : Bool) :
    (c.step visit (.read k hold)).Safe := by
  obtain ⟨r, layer, hends, heq⟩ := performFinding_leaves (.read k hold) hold
    (Soft.read_leaves (c.around visit) c.layer k)
  rw [step, heq]
  cases hends with
  | refused e htable => exact (h.sameEntries htable).recorded fun _ hk => hk
  | absent hval htable =>
    dsimp only
    rw [held_found_none]
    exact (h.sameEntries htable).recorded fun _ hk => hk
  | live hval hup htable => exact h.read_live hval hup htable
  | dead hval hup hends =>
    rcases hends with ⟨⟨e, rfl⟩, htable⟩ | ⟨rfl, htable⟩
    · exact h.read_dead hval hup (fun _ hk => hk) (.inl htable)
    · dsimp only
      rw [held_found_none]
      exact h.read_dead hval hup (fun _ hk => hk) (.inr htable)

end Safe

/-! ## Any acts -/

theorem safe_start {settings : SoftSettings} {name : String} {blocking lockable : Bool}
    {faults : Faults κ} {c : Custody κ (Probe κ Handle)}
    (h : start settings (Probe.named name blocking lockable faults) = .ok c) : c.Safe := by
  obtain ⟨r, hsound, hposted, htracked, rfl⟩ := eq_of_start h
  have hempty : ∀ k : κ,
      (Probe.named name blocking lockable faults : Probe κ Handle).table.entries[k]? = none :=
    fun _ => Std.ExtTreeMap.getElem?_empty
  refine { sound := hsound, tidy := fun k _ => ?_,
           entry_lt := fun k v hv => absurd ((hempty k).symm.trans hv) (by simp),
           held_lt := fun v hv => absurd hv List.not_mem_nil }
  refine ⟨fun v hv => ?_, fun _ => htracked k, fun _ v hv => ?_⟩
  · exact absurd ((htracked k).symm.trans hv) (by simp)
  · exact absurd ((hempty k).symm.trans hv) (by simp)

variable [Std.LawfulEqOrd κ]

theorem safe_step {c : Custody κ (Probe κ Handle)} (h : c.Safe) (visit : Visit) (act : Act κ) :
    (c.step visit act).Safe := by
  cases act with
  | make text => exact h.make visit text
  | keep v => exact h.keep visit v
  | drop v => exact h.drop visit v
  | write k v => exact h.write visit k v
  | writeMiss k => exact h.writeMiss visit k
  | read k hold => exact h.read visit k hold
  | erase k hold => exact h.erase visit k hold
  | clear => exact h.clear visit
  | size => exact h.size visit
  | setPinCapacity n => exact h.setPinCapacity visit n
  | sweep => exact h.sweep visit
  | shrink n => exact h.shrink visit n
  | setCapacity n => exact h.setCapacity visit n

theorem safe_run {c : Custody κ (Probe κ Handle)} (h : c.Safe) (acts : List (Visit × Act κ)) :
    (c.run acts).Safe := by
  induction acts generalizing c with
  | nil => exact h
  | cons a acts ih => exact ih (safe_step h a.1 a.2)

end Custody

end SoftTier
