import SoftTier.Proofs.Layers.Courses
import SoftTier.Proofs.Soft.Tracing

/-!
# What frees a key that a lookup has blocked

A store that blocks a key when a lookup finds nothing frees it again when the key is written or
removed. The caller who was told that nothing was found will do that. But a soft layer removes keys
of its own accord, when their values have been reclaimed and it comes to drain the posted keys. A
lookup does not drain. So a key may be posted for a value whose entry a lookup then takes out, and
may be blocked by the next lookup while it is still posted. The removal that was due for the entry
comes late then, and frees the key although nobody has asked for it.

Nothing else does. While a key has no entry and no value is followed under it, it is not posted
again, and every removal takes it off the posted keys once.

- `Call.frees`: which calls free a key.
- `Soft.Idle`: no value is followed under a key, and the store below has none.
- `Soft.Removals`: the calls between two states that free a key are the removals that were due.
- `Soft.idling`: the course that all but a write, a miss and a removal of the key keep to.
- `Soft.drain_settles`, `Soft.size_settles` and so on: a request that drains leaves no removal due.
- `Custody.blocked_key_freed_by_posting`: what frees a key that a lookup has blocked.
-/

namespace SoftTier

/-- Whether a call frees the key at a store that has blocked it. -/
def Call.frees {κ : Type} [DecidableEq κ] (k : κ) : Call κ → Bool
  | .write k' | .writeMiss k' | .erase k' => k' = k
  | .size | .read _ | .clear => false

namespace Soft

variable {κ : Type} [DecidableEq κ] [Ord κ]

/-! ## Calls that free a key -/

/-- Of the calls made from one state to another, those that free the key are removals, one for each
time that the key was taken off the posted ones. Without any, the key is blocked if it was. -/
structure Removals (k : κ) (s s' : Soft κ (Probe κ Handle)) (calls : List (Call κ)) (n : Nat) :
    Prop where
  received_eq : s'.below.received = calls ++ s.below.received
  frees_eq : calls.filter (·.frees k) = List.replicate n (.erase k)
  posted_eq : n + s'.reclaimer.posted.count k = s.reclaimer.posted.count k
  blocked : n = 0 → k ∈ s.below.blocked → k ∈ s'.below.blocked

namespace Removals

variable {k k' : κ} {s s' s'' : Soft κ (Probe κ Handle)} {calls calls' : List (Call κ)} {n n' : Nat}

theorem refl (k : κ) (s : Soft κ (Probe κ Handle)) : Removals k s s [] 0 :=
  ⟨rfl, rfl, Nat.zero_add _, fun _ hk => hk⟩

theorem trans (h : Removals k s s' calls n) (h' : Removals k s' s'' calls' n') :
    Removals k s s'' (calls' ++ calls) (n' + n) where
  received_eq := by rw [h'.received_eq, h.received_eq, List.append_assoc]
  frees_eq := by rw [List.filter_append, h'.frees_eq, h.frees_eq, List.replicate_append_replicate]
  posted_eq := by
    have hfirst := h.posted_eq
    have hsecond := h'.posted_eq
    omega
  blocked hn hk := h'.blocked (by omega) (h.blocked (by omega) hk)

/-- Nothing is called, and the key is posted as often as before. -/
theorem ofCount {s' : Soft κ (Probe κ Handle)} (hbelow : s'.below = s.below)
    (hposted : s'.reclaimer.posted.count k = s.reclaimer.posted.count k) :
    Removals k s s' [] 0 where
  received_eq := congrArg (·.received) hbelow
  frees_eq := rfl
  posted_eq := (Nat.zero_add _).trans hposted
  blocked _ hk := by rwa [hbelow]

/-- A call that does not free the key. -/
theorem ofCall {c : Call κ} {p : Probe κ Handle} (hc : c.frees k = false)
    (hreceived : p.received = c :: s.below.received)
    (hblocked : k ∈ s.below.blocked → k ∈ p.blocked) :
    Removals k s { s with below := p } [c] 0 :=
  ⟨hreceived, by simp [hc], Nat.zero_add _, fun _ => hblocked⟩

/-- The removal of the first posted key. -/
theorem ofPosted {l : List κ} {p : Probe κ Handle} (hposted : s.reclaimer.posted = k' :: l)
    (hreceived : p.received = .erase k' :: s.below.received)
    (hblocked : k' ≠ k → k ∈ s.below.blocked → k ∈ p.blocked) :
    ∃ n, Removals k s { s with reclaimer := { s.reclaimer with posted := l }, below := p }
      [.erase k'] n := by
  by_cases hk : k' = k
  · subst hk
    refine ⟨1, hreceived, by simp [Call.frees], ?_, fun hn => absurd hn (by decide)⟩
    rw [hposted, List.count_cons_self, Nat.add_comm]
  · refine ⟨0, hreceived, by simp [Call.frees, hk], ?_, fun _ => hblocked hk⟩
    rw [hposted, List.count_cons_of_ne hk, Nat.zero_add]

/-- A key that was not posted is not posted afterwards, and there is nothing due for it. -/
theorem eq_zero (h : Removals k s s' calls n) (hk : k ∉ s.reclaimer.posted) :
    n = 0 ∧ k ∉ s'.reclaimer.posted := by
  have hsum := h.posted_eq
  rw [List.count_eq_zero_of_not_mem hk] at hsum
  exact ⟨by omega, List.count_eq_zero.mp (by omega)⟩

end Removals

/-! ## Idle keys -/

variable [Std.TransOrd κ]

/-- No value is followed under the key, and the store below has none. -/
structure Idle (k : κ) (s : Soft κ (Probe κ Handle)) : Prop where
  sound : s.reclaimer.Sound
  untracked : s.reclaimer.tracked k = none
  absent : s.below.table.value? k = none

/-- The key is idle, and only removals that were due have freed it. -/
def Idles (k : κ) (s s' : Soft κ (Probe κ Handle)) : Prop :=
  Idle k s' ∧ ∃ calls n, Removals k s s' calls n

variable {k k' : κ} {s s' s'' : Soft κ (Probe κ Handle)} {α β : Type}

theorem Idles.trans (h : Idles k s s') (h' : Idles k s' s'') : Idles k s s'' := by
  obtain ⟨-, calls, n, hr⟩ := h
  obtain ⟨hidle, calls', n', hr'⟩ := h'
  exact ⟨hidle, calls' ++ calls, n' + n, hr.trans hr'⟩

/-- A key that was not posted is not posted afterwards. -/
theorem Idles.not_posted (h : Idles k s s') (hk : k ∉ s.reclaimer.posted) :
    k ∉ s'.reclaimer.posted := by
  obtain ⟨-, calls, n, hr⟩ := h
  exact (hr.eq_zero hk).2

theorem Idle.refl (h : Idle k s) : Idles k s s := ⟨h, [], 0, .refl k s⟩

/-- A key that is idle stays so, and only removals that are due free it. -/
def idling (k : κ) : Course (Soft κ (Probe κ Handle)) where
  leads s _ s' := Idle k s → Idles k s s'
  refl _ h := h.refl
  trans hfirst hsecond h := (hfirst h).trans (hsecond (hfirst h).1)

/-- A sweep posts only what was followed. -/
theorem Idle.settled (h : Idle k s) {env : Ambient} {before : κ → Option Value}
    {keepable : Value → Prop} {r : Reclaimer κ} {dead : List κ}
    (hs : Reclaimer.Settled env s.reclaimer.posted before keepable r dead) (hk : before k = none) :
    Idles k s { s with reclaimer := r } := by
  have hdead : k ∉ dead := by
    intro hmem
    obtain ⟨-, v, hv, -⟩ := hs.gone k hmem
    exact absurd (hk.symm.trans hv) (by simp)
  refine ⟨⟨hs.sound, (hs.stays k hdead).trans hk, h.absent⟩, [], 0, .ofCount rfl ?_⟩
  rw [hs.posted_eq, List.count_append, List.count_eq_zero_of_not_mem hdead]
  rfl

/-- The first posted key is taken off and a call is made for it, which may fail. -/
theorem Idle.takeOff (h : Idle k s) {l : List κ} (hposted : s.reclaimer.posted = k' :: l)
    {p : Probe κ Handle} (hreceived : p.received = .erase k' :: s.below.received)
    (habsent : p.table.value? k = none)
    (hblocked : k' ≠ k → k ∈ s.below.blocked → k ∈ p.blocked) :
    Idles k s { s with reclaimer := { s.reclaimer with posted := l }, below := p } := by
  obtain ⟨n, hr⟩ := Removals.ofPosted hposted hreceived hblocked
  exact ⟨⟨h.sound.reposted l, h.untracked, habsent⟩, _, n, hr⟩

/-- What is told the reclaimer is followed under another key, if under any. -/
theorem tell_idles {f : Ambient → Reclaimer κ → α × Reclaimer κ}
    (hf : ∀ env r, r.Sound → r.tracked k = none → ∃ before keepable dead,
      Reclaimer.Settled env r.posted before keepable (f env r).2 dead ∧ before k = none) :
    (tell f : Op (Soft κ (Probe κ Handle)) α).Follows (idling k) := by
  intro env s h
  obtain ⟨before, keepable, dead, hs, hk⟩ := hf (env.also s.pinned) s.reclaimer h.sound h.untracked
  exact h.settled hs hk

theorem reset_idles (k : κ) :
    (tell fun _ r => ((), r.reset) : Op (Soft κ (Probe κ Handle)) Unit).Follows (idling k) :=
  tell_idles fun env _ hr _ => ⟨_, _, _, Reclaimer.reset_settled hr env, rfl⟩

theorem sweep_idles (k : κ) : (sweep : Op (Soft κ (Probe κ Handle)) Nat).Follows (idling k) :=
  sweeping_follows_of (tell_idles fun env r hr hk => ⟨_, (keeps r · = true), _,
    Reclaimer.sweep_settled env hr rfl (fun _ => rfl) (fun _ hv => hv), hk⟩)

/-- Something that changes the pins only. -/
theorem update_idles {f : Soft κ (Probe κ Handle) → Soft κ (Probe κ Handle)}
    (hreclaimer : ∀ s, (f s).reclaimer = s.reclaimer) (hbelow : ∀ s, (f s).below = s.below) :
    (Op.update f : Op (Soft κ (Probe κ Handle)) Unit).Follows (idling k) := by
  refine Op.follows_update fun s h => ⟨⟨?_, ?_, ?_⟩, [], 0, .ofCount (hbelow s) ?_⟩
  · rw [hreclaimer]
    exact h.sound
  · rw [hreclaimer]
    exact h.untracked
  · rw [hbelow]
    exact h.absent
  · rw [hreclaimer]

/-! ## Removals that are due -/

/-- The operation keeps a key idle, and if it is done it leaves no removal of the key due. -/
def Settles (k : κ) (x : Op (Soft κ (Probe κ Handle)) α) : Prop :=
  ∀ env s, Idle k s → x.Leaves env s fun r s' =>
    Idles k s s' ∧ ∀ a, r = .ok a → k ∉ s'.reclaimer.posted

namespace Settles

variable {x : Op (Soft κ (Probe κ Handle)) α} {y : Op (Soft κ (Probe κ Handle)) β}

/-- What is done afterwards posts nothing under the key. -/
theorem then_follows (hx : Settles k x) {f : α → Op (Soft κ (Probe κ Handle)) β}
    (hf : ∀ a, (f a).Follows (idling k)) : Settles k (x >>= f) := by
  intro env s h
  refine (hx env s h).bind ?_ ?_
  · rintro a s' ⟨hfirst, hsettled⟩
    refine (hf a env s').imp fun r s'' hrest => ?_
    exact ⟨hfirst.trans (hrest hfirst.1), fun _ _ => (hrest hfirst.1).not_posted (hsettled a rfl)⟩
  · rintro e s' ⟨hfirst, -⟩
    exact ⟨hfirst, fun _ hb => absurd hb (by simp)⟩

theorem after (hx : x.Follows (idling k)) (hy : Settles k y) :
    Settles k (x >>= fun _ => y) := by
  intro env s h
  refine (hx env s).bind ?_ ?_
  · intro a s' hfirst
    have hfirst := hfirst h
    exact (hy env s' hfirst.1).imp fun r s'' ⟨hrest, hsettled⟩ => ⟨hfirst.trans hrest, hsettled⟩
  · intro e s' hfailed
    exact ⟨hfailed h, fun _ hb => absurd hb (by simp)⟩

theorem holding (hx : Settles k x) (v : Value) : Settles k (Op.holding v x) := fun env s h =>
  (hx (env.also v) s h).holding

theorem follows (hx : Settles k x) : x.Follows (idling k) := fun env s h => (hx env s h).1

end Settles

/-! ## Calls on the store below -/

/-- A call that does not free the key and leaves it without a value. -/
theorem onBelow_idles {x : Op (Probe κ Handle) α} {c : Call κ} {answer : Probe κ Handle → α}
    {next : Probe κ Handle → Probe κ Handle}
    (hx : ∀ env p, Probe.Answers x c env p (answer p) (next p))
    (hlogged : ∀ p, Probe.Logged c p (next p)) (hc : c.frees k = false)
    (habsent : ∀ p, p.table.value? k = none → (next p).table.value? k = none)
    (hblocked : ∀ p, k ∈ p.blocked → k ∈ (next p).blocked) :
    (onBelow x : Op (Soft κ (Probe κ Handle)) α).Follows (idling k) := by
  intro env s
  refine onBelow_called (hx _ _) (fun e _ h => ?_) fun _ h => ?_
  · exact ⟨⟨h.sound, h.untracked, h.absent⟩, _, _, .ofCall hc rfl id⟩
  · exact ⟨⟨h.sound, h.untracked, habsent _ h.absent⟩, _, _,
      .ofCall hc (hlogged _).received_eq (hblocked _)⟩

/-- A call that cannot change the entry of a key leaves it without a value. -/
theorem value?_of_logged {c : Call κ} {p p' : Probe κ Handle} (h : Probe.Logged c p p')
    (hc : c.changes k = false) (hk : p.table.value? k = none) : p'.table.value? k = none :=
  (Table.value?_eq (h.entry_eq k hc)).trans hk

omit [Std.TransOrd κ] in
/-- Freeing another key does not free this one. -/
theorem mem_unblock (hne : k' ≠ k) {p : Probe κ Handle} (hk : k ∈ p.blocked) :
    k ∈ (p.unblock k').blocked :=
  List.mem_filter.mpr ⟨hk, decide_eq_true (Ne.symm hne)⟩

/-- A lookup blocks keys and frees none. -/
theorem mem_searched (k' : κ) {p : Probe κ Handle} (hk : k ∈ p.blocked) :
    k ∈ (p.searched k').blocked := by
  rw [Probe.searched, Probe.block]
  split
  · split
    · exact List.mem_insert_of_mem hk
    · exact hk
  · exact hk

theorem onBelow_size_idles (k : κ) :
    (onBelow Store.size : Op (Soft κ (Probe κ Handle)) Nat).Follows (idling k) :=
  onBelow_idles (fun _ _ => Probe.size_answers) (Probe.noted_logged .size) rfl (fun _ hk => hk)
    fun _ hk => hk

theorem onBelow_read_idles (k k' : κ) :
    (onBelow (Store.read k') : Op (Soft κ (Probe κ Handle)) (Option Handle)).Follows (idling k) :=
  onBelow_idles (fun _ _ => Probe.read_answers k') (Probe.searched_logged k') rfl
    (fun p => value?_of_logged (Probe.searched_logged k' p) rfl) fun _ hk => mem_searched k' hk

theorem onBelow_clear_idles (k : κ) :
    (onBelow Store.clear : Op (Soft κ (Probe κ Handle)) Unit).Follows (idling k) :=
  onBelow_idles (fun _ _ => Probe.clear_answers) Probe.cleared_logged rfl
    (fun _ _ => congrArg Option.join Std.ExtTreeMap.getElem?_empty) fun _ hk => hk

variable [Std.LawfulEqOrd κ]

theorem onBelow_write_idles (hne : k' ≠ k) (a : Handle) :
    (onBelow (Store.write k' a) : Op (Soft κ (Probe κ Handle)) Unit).Follows (idling k) := by
  have hc : (Call.write k').frees k = false := decide_eq_false hne
  exact onBelow_idles (fun _ _ => Probe.write_answers k' a) (Probe.stored_logged k' _) hc
    (fun p => value?_of_logged (Probe.stored_logged k' _ p) hc) fun _ hk => mem_unblock hne hk

theorem onBelow_erase_idles (hne : k' ≠ k) :
    (onBelow (Store.erase k') : Op (Soft κ (Probe κ Handle)) (Option Handle)).Follows
      (idling k) := by
  have hc : (Call.erase k').frees k = false := decide_eq_false hne
  exact onBelow_idles (fun _ _ => Probe.erase_answers k') (Probe.removed_logged k') hc
    (fun p => value?_of_logged (Probe.removed_logged k' p) hc) fun _ hk => mem_unblock hne hk

/-! ## What is told the reclaimer -/

theorem forget_idles (k k' : κ) :
    (forget k' : Op (Soft κ (Probe κ Handle)) Unit).Follows (idling k) := by
  refine tell_idles fun env r hr hk => ⟨_, _, _, Reclaimer.forget_settled hr env k', ?_⟩
  rw [Function.update_apply]
  split
  · rfl
  · exact hk

theorem retain_idles (hne : k' ≠ k) (v : Value) :
    (retain k' v : Op (Soft κ (Probe κ Handle)) Unit).Follows (idling k) := by
  refine retain_follows_of (tell_idles fun env r hr hk => ?_)
  obtain ⟨-, dead, hs⟩ := Reclaimer.retain_settled hr env k' v
  exact ⟨_, _, dead, hs, (Function.update_of_ne (Ne.symm hne) ..).trans hk⟩

theorem refresh_idles (hne : k' ≠ k) (v : Value) :
    (refresh k' v : Op (Soft κ (Probe κ Handle)) Unit).Follows (idling k) := by
  refine refresh_follows_of (tell_idles fun env r hr hk => ?_)
  rcases Reclaimer.refresh_cases hr env k' v with ⟨-, -, -, hs⟩ | ⟨-, dead, hs⟩
  · exact ⟨_, _, [], hs, hk⟩
  · exact ⟨_, _, dead, hs, (Function.update_of_ne (Ne.symm hne) ..).trans hk⟩

theorem shrink_idles (k : κ) (n : Nat) :
    (shrink n : Op (Soft κ (Probe κ Handle)) Nat).Follows (idling k) := by
  refine sweeping_follows_of (tell_idles fun env r hr hk => ?_)
  obtain ⟨dead, hs⟩ := Reclaimer.shrink_settled hr env n
  exact ⟨_, _, dead, hs, hk⟩

theorem setCapacity_idles (k : κ) (n : Nat) :
    (setCapacity n : Op (Soft κ (Probe κ Handle)) (Except Fault Unit)).Follows (idling k) := by
  intro env s
  rcases Nat.eq_zero_or_pos n with rfl | hn
  · exact (setCapacity_yields_error (Reclaimer.setCapacity_zero ..)).leaves ((idling k).refl s)
  · intro h
    obtain ⟨p, dead, hset, hs⟩ := Reclaimer.setCapacity_settled h.sound (env.also s.pinned) hn
    have hset' : (setCapacity n : Op (Soft κ (Probe κ Handle)) _).Leaves env s fun _ s' =>
        Idles k s s' := (setCapacity_yields_ok hset).leaves (h.settled hs h.untracked)
    exact hset'

/-! ## Draining -/

/-- The first posted key is taken off, and unless it has a live value a call is made for it. -/
theorem drainKey_idles (h : Idle k s) {env : Ambient} {l : List κ}
    (hposted : s.reclaimer.posted = k' :: l) (removed : Nat) :
    (drainKey removed k').Leaves env s fun _ s' => Idles k s s' ∧ s'.reclaimer.posted = l := by
  refine drainKey_leaves_of hposted (fun hlive => ?_) fun _ => ?_
  · -- the key with the live value is another one
    have hne : k' ≠ k := by
      rintro rfl
      rw [Reclaimer.hasLive_eq h.sound, h.untracked] at hlive
      exact absurd hlive (by simp)
    refine ⟨⟨⟨h.sound.reposted l, h.untracked, h.absent⟩, [], 0, .ofCount rfl ?_⟩, rfl⟩
    rw [hposted, List.count_cons_of_ne hne]
  · have hremoved : (s.below.table.remove k').value? k = none := by
      rw [Table.value?_eq (Table.getElem?_remove k' k s.below.table)]
      split
      · rfl
      · exact h.absent
    have hcall : (onBelow (Store.erase k') : Op (Soft κ (Probe κ Handle)) (Option Handle)).Leaves
        env { s with reclaimer := { s.reclaimer with posted := l } }
        fun _ s' => Idles k s s' ∧ s'.reclaimer.posted = l := by
      refine onBelow_called (Probe.erase_answers k') (fun e _ => ⟨?_, rfl⟩) fun _ => ⟨?_, rfl⟩
      · exact h.takeOff hposted rfl h.absent fun _ hk => hk
      · exact h.takeOff hposted rfl hremoved fun hne hk => mem_unblock hne hk
    exact hcall.then_pure _

theorem drain_settles (k : κ) : Settles k (drain : Op (Soft κ (Probe κ Handle)) Unit) := by
  intro env s h
  refine (drain_leaves_of (I := fun l d => Idles k s d ∧ d.reclaimer.posted = l)
    (F := fun _ d => Idles k s d) ?_ ⟨h.refl, rfl⟩).imp ?_
  · rintro removed k' l d ⟨hd, hposted⟩
    refine (drainKey_idles hd.1 hposted removed).imp ?_
    rintro (e | n) d' ⟨hfirst, hposted'⟩
    · exact hd.trans hfirst
    · exact ⟨hd.trans hfirst, hposted'⟩
  · rintro (e | _) d hd
    · exact ⟨hd, fun _ ha => absurd ha (by simp)⟩
    · exact ⟨hd.1, fun _ _ => hd.2 ▸ List.not_mem_nil⟩

/-! ## Requests -/

theorem size_settles (k : κ) :
    Settles k (Store.size : Op (Soft κ (Probe κ Handle)) Nat) :=
  (drain_settles k).then_follows fun _ => onBelow_size_idles k

theorem write_settles (hne : k' ≠ k) (v : Value) :
    Settles k (Store.write k' v : Op (Soft κ (Probe κ Handle)) Unit) := by
  refine Settles.holding ((drain_settles k).then_follows fun _ => ?_) v
  exact (retain_idles hne v).bind fun _ => onBelow_write_idles hne _

theorem writeMiss_settles (hne : k' ≠ k) :
    Settles k (Store.writeMiss k' : Op (Soft κ (Probe κ Handle)) Unit) := by
  refine (drain_settles k).then_follows fun _ => ?_
  exact (forget_idles k k').bind fun _ => onBelow_write_idles hne _

theorem erase_settles (hne : k' ≠ k) :
    Settles k (Store.erase k' : Op (Soft κ (Probe κ Handle)) (Option Value)) := by
  refine (drain_settles k).then_follows fun _ => (onBelow_erase_idles hne).bind fun _ => ?_
  exact (ask_follows _).bind fun _ => (forget_idles k k').bind fun _ => Op.follows_pure _

theorem clear_settles (k : κ) : Settles k (Store.clear : Op (Soft κ (Probe κ Handle)) Unit) := by
  refine .after (update_idles (fun _ => rfl) fun _ => rfl)
    ((drain_settles k).then_follows fun _ => ?_)
  exact (reset_idles k).bind fun _ => onBelow_clear_idles k

/-- A lookup of the idle key itself finds nothing, and takes nothing out. -/
theorem read_idles (k k' : κ) :
    (Store.read k' : Op (Soft κ (Probe κ Handle)) (Option Value)).Follows (idling k) := by
  by_cases hne : k' = k
  · subst hne
    intro env s h
    have hread : (Store.read k' : Op (Soft κ (Probe κ Handle)) (Option Value)).Leaves env s
        fun _ s' => Idles k' s s' := by
      have hnone : (onBelow (Store.read k') : Op (Soft κ (Probe κ Handle)) (Option Handle)).Leaves
          env s fun r _ => ∀ found, r = .ok found → found = none := by
        refine onBelow_called (Probe.read_answers k') (fun e _ found hf => absurd hf (by simp)) ?_
        intro _ found hf
        exact (Except.ok.inj hf).symm.trans h.absent
      refine (hnone.and (onBelow_read_idles k' k' env s)).bind ?_ fun e s' ⟨_, hs'⟩ => hs' h
      rintro found s' ⟨hfound, hs'⟩
      rw [hfound found rfl]
      exact (Op.yields_pure _).leaves (hs' h)
    exact hread
  · exact read_follows_of (onBelow_read_idles k k') (refresh_idles hne)
      (fun v => update_idles (fun _ => rfl) fun _ => rfl) (forget_idles k k')
      (onBelow_erase_idles hne)

end Soft

namespace Custody

variable {κ : Type} [DecidableEq κ]

/-! ## Acts -/

/-- Whether an act asks for a key to be written or removed, which frees it. -/
def Act.frees (k : κ) : Act κ → Bool
  | .write k' _ | .writeMiss k' | .erase k' _ => k' = k
  | _ => false

/-- Whether an act takes out the entries of posted keys before anything else. -/
def Act.drains : Act κ → Bool
  | .write _ _ | .writeMiss _ | .erase _ _ | .clear | .size => true
  | _ => false

variable [Ord κ] [Std.TransOrd κ]

/-- An idle key has stayed so. If something was done meanwhile that drains, the key is not posted
any more. -/
structure Untouched (k : κ) (c c' : Custody κ (Probe κ Handle)) (since : Record κ) : Prop where
  past_eq : c'.past = since ++ c.past
  idles : Soft.Idles k c.layer c'.layer
  drained : (∃ e ∈ since, e.1.drains = true ∧ ∀ fault, e.2 ≠ .failed fault) →
    k ∉ c'.layer.reclaimer.posted

variable {k : κ} {c c' c'' : Custody κ (Probe κ Handle)} {since since' : Record κ}

theorem Untouched.refl (h : Soft.Idle k c.layer) : c.Untouched k c [] where
  past_eq := rfl
  idles := h.refl
  drained := by
    rintro ⟨e, he, -⟩
    exact absurd he List.not_mem_nil

theorem Untouched.trans (h : c.Untouched k c' since) (h' : c'.Untouched k c'' since') :
    c.Untouched k c'' (since' ++ since) where
  past_eq := by rw [h'.past_eq, h.past_eq, List.append_assoc]
  idles := h.idles.trans h'.idles
  drained := by
    rintro ⟨e, he, hdone⟩
    rcases List.mem_append.mp he with he | he
    · exact h'.drained ⟨e, he, hdone⟩
    · exact h'.idles.not_posted (h.drained ⟨e, he, hdone⟩)

section Perform

variable {α : Type} {act : Act κ}

/-- One act that is on record. -/
theorem Untouched.of_answer {answer : Answer} (hpast : c'.past = (act, answer) :: c.past)
    (hidles : Soft.Idles k c.layer c'.layer)
    (hdrained : act.drains = true → (∀ fault, answer ≠ .failed fault) →
      k ∉ c'.layer.reclaimer.posted) : c.Untouched k c' [(act, answer)] where
  past_eq := hpast
  idles := hidles
  drained := by
    rintro ⟨e, he, hdrains, hdone⟩
    cases List.mem_singleton.mp he
    exact hdrained hdrains hdone

/-- What an operation does to an idle key, if it drains whenever the act does. -/
theorem idles_leaves (h : Soft.Idle k c.layer) {env : Ambient} {x : Op (Soft κ (Probe κ Handle)) α}
    (hx : x.Follows (Soft.idling k)) (hdrains : Soft.Settles k x ∨ act.drains = false) :
    x.Leaves env c.layer fun r s' => Soft.Idles k c.layer s' ∧
      (act.drains = true → ∀ a, r = .ok a → k ∉ s'.reclaimer.posted) := by
  refine ⟨hx _ _ h, fun hd => ?_⟩
  rcases hdrains with hsettles | hquiet
  · exact (hsettles _ _ h).2
  · exact absurd (hquiet.symm.trans hd) (by simp)

theorem perform_untouched (h : Soft.Idle k c.layer) (visit : Visit) (reply : α → Answer)
    {x : Op (Soft κ (Probe κ Handle)) α} (hx : x.Follows (Soft.idling k))
    (hdrains : Soft.Settles k x ∨ act.drains = false) :
    ∃ since, c.Untouched k (c.perform visit act reply x) since := by
  obtain ⟨r, layer, ⟨hidles, hsettled⟩, heq⟩ :=
    perform_leaves act reply (idles_leaves h hx hdrains)
  rw [heq]
  refine ⟨_, .of_answer rfl hidles fun hd hdone => ?_⟩
  cases r with
  | ok a => exact hsettled hd a rfl
  | error e => exact absurd rfl (hdone _)

theorem performFinding_untouched (h : Soft.Idle k c.layer) (visit : Visit) (hold : Bool)
    {x : Op (Soft κ (Probe κ Handle)) (Option Value)} (hx : x.Follows (Soft.idling k))
    (hdrains : Soft.Settles k x ∨ act.drains = false) :
    ∃ since, c.Untouched k (c.performFinding visit act hold x) since := by
  obtain ⟨r, layer, ⟨hidles, hsettled⟩, heq⟩ :=
    performFinding_leaves act hold (idles_leaves h hx hdrains)
  rw [heq]
  cases r with
  | ok found => exact ⟨_, .of_answer rfl hidles fun hd _ => hsettled hd found rfl⟩
  | error e => exact ⟨_, .of_answer rfl hidles fun _ hdone => absurd rfl (hdone _)⟩

end Perform

variable [Std.LawfulEqOrd κ]

/-- No act on other keys touches an idle key, nor does a lookup of the key itself. -/
theorem step_untouched (h : Soft.Idle k c.layer) (visit : Visit) {act : Act κ}
    (hact : act.frees k = false) : ∃ since, c.Untouched k (c.step visit act) since := by
  have hnoted : ∀ c' : Custody κ (Probe κ Handle), c'.layer = c.layer → act.drains = false →
      c'.past = (act, .done) :: c.past → ∃ since, c.Untouched k c' since := by
    intro c' hlayer hdrains hpast
    exact ⟨_, .of_answer hpast (hlayer ▸ h.refl) fun hd => absurd (hdrains.symm.trans hd) (by simp)⟩
  cases act with
  | make text => exact hnoted _ rfl rfl rfl
  | keep v =>
    rw [step]
    split
    · exact hnoted _ rfl rfl rfl
    · exact ⟨[], .refl h⟩
  | drop v => exact hnoted _ rfl rfl rfl
  | write k' v =>
    have hsettles := Soft.write_settles (of_decide_eq_false hact) v
    rw [step]
    split
    · exact perform_untouched h visit _ hsettles.follows (.inl hsettles)
    · exact ⟨[], .refl h⟩
  | writeMiss k' =>
    have hsettles := Soft.writeMiss_settles (of_decide_eq_false hact)
    exact perform_untouched h visit _ hsettles.follows (.inl hsettles)
  | read k' hold =>
    exact performFinding_untouched h visit hold (Soft.read_idles k k') (.inr rfl)
  | erase k' hold =>
    have hsettles := Soft.erase_settles (of_decide_eq_false hact)
    exact performFinding_untouched h visit hold hsettles.follows (.inl hsettles)
  | clear =>
    have hsettles := Soft.clear_settles k
    exact perform_untouched h visit _ hsettles.follows (.inl hsettles)
  | size =>
    have hsettles := Soft.size_settles k
    exact perform_untouched h visit _ hsettles.follows (.inl hsettles)
  | setPinCapacity n =>
    have hpins : (Op.update (Soft.setPinCapacity n) : Op (Soft κ (Probe κ Handle)) Unit).Follows
        (Soft.idling k) := Soft.update_idles (fun _ => rfl) fun _ => rfl
    exact perform_untouched h visit (fun _ => .done) hpins (.inr rfl)
  | sweep => exact perform_untouched h visit _ (Soft.sweep_idles k) (.inr rfl)
  | shrink n => exact perform_untouched h visit _ (Soft.shrink_idles k n) (.inr rfl)
  | setCapacity n =>
    exact perform_untouched h visit _ (Soft.setCapacity_idles k n) (.inr rfl)

theorem run_untouched (h : Soft.Idle k c.layer) (acts : List (Visit × Act κ))
    (hacts : ∀ a ∈ acts, a.2.frees k = false) : ∃ since, c.Untouched k (c.run acts) since := by
  induction acts generalizing c with
  | nil => exact ⟨[], .refl h⟩
  | cons a acts ih =>
    obtain ⟨first, hfirst⟩ := step_untouched h a.1 (hacts a List.mem_cons_self)
    obtain ⟨rest, hrest⟩ := ih hfirst.idles.1 fun a' ha' => hacts a' (List.mem_cons_of_mem _ ha')
    exact ⟨rest ++ first, hfirst.trans hrest⟩

omit [Std.LawfulEqOrd κ] in
/-- A settled key is idle if the store below has no value under it. -/
theorem Safe.idle (h : c.Safe) (hsettled : unsettled k c.past = false)
    (habsent : c.layer.below.table.value? k = none) : Soft.Idle k c.layer := by
  refine ⟨h.sound, ?_, habsent⟩
  cases htracked : c.layer.reclaimer.tracked k with
  | none => rfl
  | some v =>
    have hentry := (h.tidy k hsettled).entry_eq v htracked
    rw [Table.value?_eq hentry] at habsent
    exact absurd habsent (by simp)

/-! ## Keys that a lookup has blocked -/

/-- **A blocked key is freed only by a removal that was due before.** Whatever callers have done
with a soft layer over a store that blocks the keys it finds nothing under: when a lookup has
blocked a key whose last write has not failed, none of the calls that free it is made until it is
written or removed through the layer, but for one removal for each time that the key was posted when
it was looked up. None of these is left when a request has drained and has not failed. If the key
was not posted, it stays blocked. -/
theorem blocked_key_freed_by_posting {settings : SoftSettings} (hcap : 0 < settings.softCapacity)
    (name : String) (lockable : Bool) (faults : Faults κ) :
    ∃ c₀ : Custody κ (Probe κ Handle),
      start settings (Probe.named name true lockable faults) = .ok c₀ ∧
        ∀ (acts : List (Visit × Act κ)) (visit : Visit) (k : κ) (hold : Bool),
          let c := c₀.run acts
          let missed := c.step visit (.read k hold)
          unsettled k c.past = false → c.layer.below.table.value? k = none →
            k ∈ missed.layer.below.blocked →
              ∀ later : List (Visit × Act κ), (∀ a ∈ later, a.2.frees k = false) →
                let now := missed.run later
                ∃ since calls n, now.past = since ++ missed.past ∧
                  now.layer.below.received = calls ++ missed.layer.below.received ∧
                  calls.filter (·.frees k) = List.replicate n (.erase k) ∧
                  n + now.layer.reclaimer.posted.count k =
                    missed.layer.reclaimer.posted.count k ∧
                  ((∃ e ∈ since, e.1.drains = true ∧ ∀ fault, e.2 ≠ .failed fault) →
                    k ∉ now.layer.reclaimer.posted) ∧
                  (n = 0 → k ∈ now.layer.below.blocked) ∧
                  (k ∉ missed.layer.reclaimer.posted → n = 0) := by
  obtain ⟨c₀, hstart, -⟩ := start_eq (κ := κ) hcap
    (Probe.named name true lockable faults : Probe κ Handle)
  refine ⟨c₀, hstart, fun acts visit k hold => ?_⟩
  intro c missed hsettled habsent hblocked later hlater now
  have hsafe : c.Safe := safe_run (safe_start hstart) acts
  have hidle : Soft.Idle k c.layer := hsafe.idle hsettled habsent
  have hread : (Act.read k hold).frees k = false := rfl
  obtain ⟨first, hfirst⟩ := step_untouched hidle visit hread
  obtain ⟨since, h⟩ := run_untouched hfirst.idles.1 later hlater
  obtain ⟨-, calls, n, hr⟩ := h.idles
  exact ⟨since, calls, n, h.past_eq, hr.received_eq, hr.frees_eq, hr.posted_eq, h.drained,
    fun hn => hr.blocked hn hblocked, fun hposted => (hr.eq_zero hposted).1⟩

/-- The key that was posted when the lookup blocked another one is taken out and written again. The
other key stays blocked. -/
theorem blocked_key_stays :
    let a : Value := ⟨0, "a"⟩
    let b : Value := ⟨1, "b"⟩
    0 < 4 ∧ ∃ c₀ : Custody Nat (Probe Nat Handle),
      start ⟨0, 4⟩ (Probe.named "users" true false .never) = .ok c₀ ∧
        let c := c₀.run ([.make "a", .write 2 a, .drop a, .shrink 0].map (Visit.asListed, ·))
        let missed := c.step .asListed (.read 1 false)
        let now := missed.run ([.make "b", .write 2 b, .read 2 false, .size].map
          (Visit.asListed, ·))
        unsettled 1 c.past = false ∧ c.layer.below.table.value? 1 = none ∧
          missed.layer.reclaimer.posted = [2] ∧ 1 ∈ missed.layer.below.blocked ∧
          now.layer.below.received =
            [.size, .read 2, .write 2, .erase 2] ++ missed.layer.below.received ∧
          1 ∈ now.layer.below.blocked := by
  intro a b
  have hcap : 0 < (⟨0, 4⟩ : SoftSettings).softCapacity := by decide
  obtain ⟨c₀, hstart, h⟩ := blocked_key_freed_by_posting (κ := Nat) hcap "users" false .never
  refine ⟨hcap, c₀, hstart, ?_⟩
  have hblocked := h ([.make "a", .write 2 a, .drop a, .shrink 0].map (Visit.asListed, ·))
    .asListed 1 false
  dsimp only at hblocked ⊢
  generalize hrun : c₀.run _ = c at hblocked ⊢
  generalize hread : c.step .asListed (.read 1 false) = missed at hblocked ⊢
  have hfacts : unsettled 1 c.past = false ∧ c.layer.below.table.value? 1 = none ∧
      missed.layer.reclaimer.posted = [2] ∧ 1 ∈ missed.layer.below.blocked := by
    cases Except.ok.inj hstart
    rw [← hread, ← hrun]
    exact ⟨by decide +kernel, by decide +kernel, by decide +kernel, by decide +kernel⟩
  obtain ⟨hsettled, habsent, hposted, hmem⟩ := hfacts
  obtain ⟨since, calls, n, -, -, -, -, -, hstays, hzero⟩ := hblocked hsettled habsent hmem
    ([.make "b", .write 2 b, .read 2 false, .size].map (Visit.asListed, ·)) (by simp [Act.frees])
  have hn : n = 0 := hzero (by simp [hposted])
  refine ⟨hsettled, habsent, hposted, hmem, ?_, hstays hn⟩
  cases Except.ok.inj hstart
  rw [← hread, ← hrun]
  decide +kernel

/-- There is room for one value. A second one takes the place of the first, which is reclaimed, and
its key is posted. A lookup takes the entry out, and the next one finds nothing and blocks the key.
To tell how many entries there are, the layer drains: it sends the removal that was due for the
entry, and the key is free. -/
theorem posted_key_freed_late :
    let a : Value := ⟨0, "a"⟩
    let b : Value := ⟨1, "b"⟩
    ∃ c₀ : Custody Nat (Probe Nat Handle),
      start ⟨0, 1⟩ (Probe.named "users" true false .never) = .ok c₀ ∧
        let c := c₀.run ([.make "a", .write 1 a, .drop a, .make "b", .write 2 b, .read 1 false].map
          (Visit.asListed, ·))
        let missed := c.step .asListed (.read 1 false)
        let now := missed.step .asListed .size
        c.layer.below.table.value? 1 = none ∧ c.layer.below.blocked = [] ∧
          missed.past = (.read 1 false, .found none) :: c.past ∧
          missed.layer.below.blocked = [1] ∧
          now.past = (.size, .count 1) :: missed.past ∧
          now.layer.below.received = [.size, .erase 1] ++ missed.layer.below.received ∧
          now.layer.below.blocked = [] := by
  intro a b
  refine ⟨_, rfl, ?_⟩
  exact ⟨by decide +kernel, by decide +kernel, by decide +kernel, by decide +kernel,
    by decide +kernel, by decide +kernel, by decide +kernel⟩

end Custody

end SoftTier
