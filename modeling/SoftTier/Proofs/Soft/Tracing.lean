import SoftTier.Proofs.Soft.Safety

/-!
# What accounts for an entry when calls fail

A soft layer changes its books before it asks the store below: a posted key is taken off, a value
is followed or no longer followed, and only then is the call made that the books already speak of.
If that call fails, nothing in the layer accounts for the entry any more. What the calls themselves
say is another matter: the entry of a key can be unaccounted for only while the last call that could
have changed it is one that failed.

- `Call.changes`, `Faults.refused`: which calls can change an entry, and whether the last of them
  failed.
- `Accounted`: the ways in which a layer accounts for an entry.
- `Soft.Traced`: every entry is accounted for, unless its last change was refused.
- `Soft.Traced.call`, `Soft.Traced.settle`: this outlasts a call and a sweep.
- `Soft.drain_traced`, `Soft.write_traced` and so on: it outlasts every request, done or failed.
-/

namespace SoftTier

/-! ## The calls on record -/

/-- Whether a call can change the entry of a key. -/
def Call.changes {κ : Type} [DecidableEq κ] (k : κ) : Call κ → Bool
  | .write k' | .writeMiss k' | .erase k' => k' = k
  | .clear => true
  | .size | .read _ => false

namespace Faults

variable {κ : Type} (faults : Faults κ)

/-- Whether the last call that could have changed the entry of a key has failed. The calls are
listed latest first. -/
def refused [DecidableEq κ] (k : κ) : List (Call κ) → Bool
  | [] => false
  | c :: earlier =>
    if c.changes k then (faults earlier.length c).isSome else refused k earlier

theorem refused_never [DecidableEq κ] (k : κ) (calls : List (Call κ)) :
    (never : Faults κ).refused k calls = false := by
  induction calls with
  | nil => rfl
  | cons c calls ih =>
    rw [refused]
    split
    · rfl
    · exact ih

/-- The failure is one that the store shows. -/
def Gives (e : Failure) : Prop := ∃ n c, faults n c = some e

theorem not_gives_never (e : Failure) : ¬(never : Faults κ).Gives e := by
  rintro ⟨n, c, h⟩
  exact absurd h (by simp [never])

end Faults

namespace Probe

variable {κ ν : Type} [DecidableEq κ] [Ord κ] [Std.TransOrd κ]

/-- A store has received a call, and nothing has changed but what that call can change. -/
structure Logged (c : Call κ) (p p' : Probe κ ν) : Prop where
  faults_eq : p'.faults = p.faults
  received_eq : p'.received = c :: p.received
  count_eq : p'.count = p.count + 1
  entry_eq : ∀ k, c.changes k = false → p'.table.entries[k]? = p.table.entries[k]?

theorem noted_logged (c : Call κ) (p : Probe κ ν) : Logged c p (p.noted c) :=
  ⟨rfl, rfl, rfl, fun _ _ => rfl⟩

theorem searched_logged (k : κ) (p : Probe κ ν) :
    Logged (.read k) p ((p.noted (.read k)).searched k) := by
  rw [searched, block]
  split
  · split <;> exact ⟨rfl, rfl, rfl, fun _ _ => rfl⟩
  · exact noted_logged ..

theorem cleared_logged (p : Probe κ ν) :
    Logged .clear p { p.noted .clear with table := { p.table with entries := ∅ } } :=
  ⟨rfl, rfl, rfl, fun _ hk => absurd hk (by simp [Call.changes])⟩

variable [Std.LawfulEqOrd κ]

theorem stored_logged (k : κ) (entry : Option ν) (p : Probe κ ν) :
    Logged (.write k) p ((p.noted (.write k)).stored k entry) := by
  refine ⟨rfl, rfl, rfl, fun k' hk => ?_⟩
  have hne : k ≠ k' := of_decide_eq_false hk
  exact (Table.getElem?_put k k' entry p.table).trans (if_neg hne)

theorem removed_logged (k : κ) (p : Probe κ ν) :
    Logged (.erase k) p ((p.noted (.erase k)).removed k) := by
  refine ⟨rfl, rfl, rfl, fun k' hk => ?_⟩
  have hne : k ≠ k' := of_decide_eq_false hk
  exact (Table.getElem?_remove k k' p.table).trans (if_neg hne)

end Probe

/-! ## Single entries -/

/-- How a layer accounts for the entry of a key: there is none, its value is followed, it waits to
be taken out, or it is a miss that nobody has read. -/
inductive Accounted (alive : Value → Bool) (entry : Option (Option Handle)) (tracked : Option Value)
    (posted unread : Prop) : Prop where
  | absent (hentry : entry = none)
  | followed (v : Value) (hentry : entry = some (some (.ofValue v))) (htracked : tracked = some v)
  | waiting (v : Value) (hentry : entry = some (some (.ofValue v))) (htracked : tracked = none)
      (hposted : posted) (hdead : alive v = false)
  | missed (hentry : entry = some (some .dead)) (hunread : unread)

namespace Accounted

variable {alive alive' : Value → Bool} {entry : Option (Option Handle)}
  {tracked tracked' before : Option Value} {posted posted' unread unread' : Prop}

/-- A value that is dead stays dead, and a miss stays one while nobody reads it. -/
theorem mono (h : Accounted alive entry tracked posted unread)
    (hle : ∀ v, entry = some (some (.ofValue v)) → alive' v = true → alive v = true)
    (hunread : entry = some (some .dead) → unread → unread') :
    Accounted alive' entry tracked posted unread' := by
  cases h with
  | absent he => exact .absent he
  | followed v he ht => exact .followed v he ht
  | waiting v he ht hp hd =>
    exact .waiting v he ht hp (Bool.eq_false_iff.mpr fun hv => ne_true_of_eq_false hd (hle v he hv))
  | missed he hu => exact .missed he (hunread he hu)

/-- Posted keys can be taken off but for those under which nothing is followed. -/
theorem takeOff (h : Accounted alive entry tracked posted unread)
    (hposted : posted → tracked = none → posted') :
    Accounted alive entry tracked posted' unread := by
  cases h with
  | absent he => exact .absent he
  | followed v he ht => exact .followed v he ht
  | waiting v he ht hp hd => exact .waiting v he ht (hposted hp ht) hd
  | missed he hu => exact .missed he hu

/-- A value that is no longer followed is dead and its key posted. -/
theorem settle (h : Accounted alive entry before posted unread) (dead : Prop)
    (hposted : posted' ↔ posted ∨ dead)
    (hgone : dead → tracked = none ∧ ∃ v, before = some v ∧ alive v = false)
    (hstays : ¬dead → tracked = before) : Accounted alive entry tracked posted' unread := by
  by_cases hdead : dead
  · obtain ⟨ht, v, hv, hv'⟩ := hgone hdead
    have hp : posted' := hposted.mpr (.inr hdead)
    cases h with
    | absent he => exact .absent he
    | followed w he hw =>
      cases hw.symm.trans hv
      exact .waiting v he ht hp hv'
    | waiting w he hw _ hd => exact .waiting w he ht hp hd
    | missed he hu => exact .missed he hu
  · rw [hstays hdead]
    exact h.takeOff fun hp _ => hposted.mpr (.inl hp)

/-- When nothing is posted an entry is that of the value followed or an unread miss. -/
theorem entry_cases (h : Accounted alive entry tracked posted unread) (hposted : ¬posted)
    {e : Option Handle} (he : entry = some e) :
    (∃ v, e = some (.ofValue v) ∧ tracked = some v) ∨ e = some .dead ∧ unread := by
  cases h with
  | absent he' => exact absurd (he'.symm.trans he) (by simp)
  | followed v he' ht => exact .inl ⟨v, Option.some.inj (he.symm.trans he'), ht⟩
  | waiting v he' ht hp hd => exact absurd hp hposted
  | missed he' hu => exact .inr ⟨Option.some.inj (he.symm.trans he'), hu⟩

end Accounted

namespace Soft

section Alive

variable {κ σ : Type} [Ord κ] {env : Ambient} {v : Value}

theorem alive_iff {s : Soft κ σ} :
    s.alive env v = true ↔
      env.held v = true ∨ v ∈ s.pinned ∨ keeps s.reclaimer v = true := by
  rw [alive, Reclaimer.alive, Ambient.held_also, Bool.or_eq_true, Bool.or_eq_true,
    Custody.keeps_list_iff, or_assoc]

theorem alive_of_keeps {s : Soft κ σ} (hv : keeps s.reclaimer v = true) : s.alive env v = true :=
  alive_iff.mpr (.inr (.inr hv))

/-- With another reclaimer nothing else is alive, if what that keeps was alive. -/
theorem alive_of_reclaimer {s : Soft κ σ} {r : Reclaimer κ}
    (hkeeps : keeps r v = true → s.alive env v = true)
    (hv : Soft.alive env { s with reclaimer := r } v = true) : s.alive env v = true := by
  rcases alive_iff.mp hv with hv | hv | hv
  · exact alive_iff.mpr (.inl hv)
  · exact alive_iff.mpr (.inr (.inl hv))
  · exact hkeeps hv

/-- A value that the caller holds is alive already. -/
theorem alive_holding (hv : env.held v = true) (s : Soft κ σ) :
    s.alive (env.also v) = s.alive env := by
  funext w
  refine Bool.eq_iff_iff.mpr ?_
  rw [alive_iff, alive_iff, Ambient.held_also, Bool.or_eq_true]
  refine or_congr_left ⟨fun hw => hw.elim id fun hkept => ?_, .inl⟩
  have heq : v = w := eq_of_beq hkept
  exact heq ▸ hv

/-- A caller who holds what was found keeps that alive and nothing else. -/
theorem alive_finding {found : Option Value} {s : Soft κ σ} :
    s.alive (env.also found) v = true ↔ found = some v ∨ s.alive env v = true := by
  have hkeeps : keeps found v = true ↔ found = some v := by
    cases found with
    | none => exact ⟨fun h => absurd h (by simp [keeps]), fun h => absurd h (by simp)⟩
    | some w =>
      show (w == v) = true ↔ some w = some v
      rw [beq_iff_eq, Option.some_inj]
  rw [alive_iff, alive_iff, Ambient.held_also, Bool.or_eq_true, hkeeps]
  tauto

/-- Who looks a value up may hold and pin it, but no other value. -/
theorem alive_looked {s : Soft κ σ} {r : Reclaimer κ} {w : Value}
    (hw : Soft.alive (env.also (some v)) { s with
      pinned := (v :: s.pinned).take s.pinCapacity
      reclaimer := r } w = true) :
    w = v ∨ Soft.alive env { s with reclaimer := r } w = true := by
  rcases alive_finding.mp hw with heq | hw
  · exact .inl (Option.some.inj heq).symm
  rw [alive_iff]
  rcases alive_iff.mp hw with hw | hw | hw
  · exact .inr (.inl hw)
  · exact (List.mem_cons.mp (List.mem_of_mem_take hw)).imp_right fun hw => .inr (.inl hw)
  · exact .inr (.inr (.inr hw))

end Alive

variable {κ α : Type} [DecidableEq κ] [Ord κ] [Std.TransOrd κ]

/-- Every entry is accounted for, unless its last change was refused or the key is exempt. -/
structure Traced (faults : Faults κ) (alive : Value → Bool) (exempt unread : κ → Prop)
    (s : Soft κ (Probe κ Handle)) : Prop where
  sound : s.reclaimer.Sound
  faults_eq : s.below.faults = faults
  count_eq : s.below.count = s.below.received.length
  accounted : ∀ k, ¬exempt k → faults.refused k s.below.received = false →
    Accounted alive s.below.table.entries[k]? (s.reclaimer.tracked k) (k ∈ s.reclaimer.posted)
      (unread k)

/-- The misses that are unread after a request, by how it ends. -/
def unreadAfter (r : Except Failure α) (unread unread' : κ → Prop) : κ → Prop :=
  match r with
  | .ok _ => unread'
  | .error _ => unread

variable {faults : Faults κ} {alive alive' : Value → Bool}
  {exempt exempt' unread unread' : κ → Prop} {env : Ambient} {s : Soft κ (Probe κ Handle)}

namespace Traced

theorem mono (h : Traced faults alive exempt unread s)
    (hle : ∀ (k : κ) (v : Value), s.below.table.entries[k]? = some (some (.ofValue v)) →
      alive' v = true → alive v = true)
    (hunread : ∀ k, s.below.table.entries[k]? = some (some .dead) → unread k → unread' k) :
    Traced faults alive' exempt unread' s :=
  { h with accounted := fun k hk hr => (h.accounted k hk hr).mono (hle k) (hunread k) }

/-- More keys may be exempt. -/
theorem exempting (h : Traced faults alive exempt unread s)
    (hexempt : ∀ k, exempt k → exempt' k) : Traced faults alive exempt' unread s :=
  { h with accounted := fun k hk => h.accounted k fun hk' => hk (hexempt k hk') }

/-- Pins account for nothing. -/
theorem repinned (h : Traced faults alive exempt unread s) (pinned : List Value) :
    Traced faults alive exempt unread { s with pinned } :=
  ⟨h.sound, h.faults_eq, h.count_eq, h.accounted⟩

/-- Keys are taken off the posted ones. -/
theorem takeOff (h : Traced faults alive exempt unread s) {posted : List κ}
    (hposted : ∀ k, ¬exempt' k → ¬exempt k ∧
      (k ∈ s.reclaimer.posted → s.reclaimer.tracked k = none → k ∈ posted)) :
    Traced faults alive exempt' unread { s with reclaimer := { s.reclaimer with posted } } :=
  { sound := h.sound.reposted posted, faults_eq := h.faults_eq, count_eq := h.count_eq,
    accounted := fun k hk hr => (h.accounted k (hposted k hk).1 hr).takeOff (hposted k hk).2 }

/-- A sweep posts what it no longer follows. -/
theorem settle {env' : Ambient} {before : κ → Option Value} {keepable : Value → Prop}
    {r : Reclaimer κ} {dead : List κ} (h : Traced faults alive exempt unread s)
    (hs : Reclaimer.Settled env' s.reclaimer.posted before keepable r dead)
    (hdead : ∀ k ∈ dead, ∀ v, r.alive env' v = false → alive' v = false)
    (hbefore : ∀ k, ¬exempt' k → faults.refused k s.below.received = false →
      Accounted alive' s.below.table.entries[k]? (before k) (k ∈ s.reclaimer.posted) (unread' k)) :
    Traced faults alive' exempt' unread' { s with reclaimer := r } := by
  refine { sound := hs.sound, faults_eq := h.faults_eq, count_eq := h.count_eq,
           accounted := fun k hk hr => ?_ }
  refine (hbefore k hk hr).settle (k ∈ dead) ?_ (fun hk' => ?_) (hs.stays k)
  · rw [hs.posted_eq, List.mem_append]
  · obtain ⟨hnone, v, hv, hv'⟩ := hs.gone k hk'
    exact ⟨hnone, v, hv, hdead k hk' v hv'⟩

/-- A call settles the keys it can change: if it fails it is their last change and was refused. -/
theorem logged {c : Call κ} {p : Probe κ Handle}
    (h : Traced faults alive (fun k => exempt k ∨ c.changes k = true) unread s)
    (hlogged : Probe.Logged c s.below p)
    (hchanged : ∀ k, ¬exempt k → c.changes k = true → (faults s.below.count c).isSome = false →
      Accounted alive p.table.entries[k]? (s.reclaimer.tracked k) (k ∈ s.reclaimer.posted)
        (unread' k))
    (hunread : ∀ k, c.changes k = false → unread k → unread' k) :
    Traced faults alive exempt unread' { s with below := p } := by
  refine { sound := h.sound, faults_eq := hlogged.faults_eq.trans h.faults_eq, count_eq := ?_,
           accounted := fun k hk hr => ?_ }
  · show p.count = p.received.length
    rw [hlogged.count_eq, hlogged.received_eq, List.length_cons, h.count_eq]
  · have hr : faults.refused k p.received = false := hr
    rw [hlogged.received_eq, Faults.refused] at hr
    cases hc : c.changes k with
    | true =>
      rw [hc, if_pos rfl, ← h.count_eq] at hr
      exact hchanged k hk hc hr
    | false =>
      rw [hc, if_neg (by simp)] at hr
      have hbefore := h.accounted k (by simp [hk, hc]) hr
      show Accounted alive p.table.entries[k]? _ _ _
      rw [hlogged.entry_eq k hc]
      exact hbefore.mono (fun _ _ hv => hv) fun _ => hunread k hc

/-- A call on the store below. While it is made the keys that it can change are exempt. -/
theorem call {x : Op (Probe κ Handle) α} {c : Call κ} {a : α} {p' : Probe κ Handle}
    {Q : Except Failure α → Soft κ (Probe κ Handle) → Prop}
    (h : Traced faults alive (fun k => exempt k ∨ c.changes k = true) unread s)
    (hx : Probe.Answers x c ((env.also s.pinned).also s.reclaimer) s.below a p')
    (hlogged : Probe.Logged c s.below p')
    (hdone : ∀ k, ¬exempt k → c.changes k = true →
      Accounted alive p'.table.entries[k]? (s.reclaimer.tracked k) (k ∈ s.reclaimer.posted)
        (unread' k))
    (hunread : ∀ k, c.changes k = false → unread k → unread' k)
    (hfailed : ∀ e p, faults.Gives e → Traced faults alive exempt unread { s with below := p } →
      Q (.error e) { s with below := p })
    (hserved : Traced faults alive exempt unread' { s with below := p' } →
      Q (.ok a) { s with below := p' }) :
    (onBelow x : Op (Soft κ (Probe κ Handle)) α).Leaves env s Q := by
  refine onBelow_called hx (fun e he => ?_) fun _ => ?_
  · rw [h.faults_eq] at he
    refine hfailed e _ ⟨_, _, he⟩ (h.logged (Probe.noted_logged c s.below) ?_ fun k _ hk => hk)
    intro k _ _ hsome
    rw [he] at hsome
    exact absurd hsome (by simp)
  · exact hserved (h.logged hlogged (fun k hk hc _ => hdone k hk hc) hunread)

/-- A block that starts with a call on the store below. -/
theorem call_bind {β : Type} {x : Op (Probe κ Handle) α} {c : Call κ} {a : α}
    {p' : Probe κ Handle} {f : α → Op (Soft κ (Probe κ Handle)) β}
    {Q : Except Failure β → Soft κ (Probe κ Handle) → Prop}
    (h : Traced faults alive (fun k => exempt k ∨ c.changes k = true) unread s)
    (hx : Probe.Answers x c ((env.also s.pinned).also s.reclaimer) s.below a p')
    (hlogged : Probe.Logged c s.below p')
    (hdone : ∀ k, ¬exempt k → c.changes k = true →
      Accounted alive p'.table.entries[k]? (s.reclaimer.tracked k) (k ∈ s.reclaimer.posted)
        (unread' k))
    (hunread : ∀ k, c.changes k = false → unread k → unread' k)
    (hfailed : ∀ e p, faults.Gives e → Traced faults alive exempt unread { s with below := p } →
      Q (.error e) { s with below := p })
    (hserved : Traced faults alive exempt unread' { s with below := p' } →
      (f a).Leaves env { s with below := p' } Q) :
    (do f (← onBelow x)).Leaves env s Q := by
  have hcall : (onBelow x : Op (Soft κ (Probe κ Handle)) α).Leaves env s fun r s' =>
      match r with
      | .ok b => (f b).Leaves env s' Q
      | .error e => Q (.error e) s' := h.call hx hlogged hdone hunread hfailed hserved
  exact hcall.bind (fun _ _ hok => hok) fun _ _ herror => herror

end Traced

/-- A key is no longer followed, so it has to be exempt unless it has no entry. -/
theorem Traced.forget [Std.LawfulEqOrd κ] (h : Traced faults alive exempt unread s) {k : κ}
    (hle : ∀ v, alive' v = true → alive v = true)
    (hk : ∀ k', ¬exempt' k' → ¬exempt k' ∧ (k' = k → s.below.table.entries[k']? = none)) :
    Traced faults alive' exempt' unread { s with reclaimer := s.reclaimer.forget k } := by
  have hs := Reclaimer.forget_settled h.sound .alone k
  refine h.settle hs (fun k hk => absurd hk List.not_mem_nil) fun k' hk' hr => ?_
  obtain ⟨hnot, hnone⟩ := hk k' hk'
  by_cases heq : k' = k
  · exact .absent (hnone heq)
  · rw [Function.update_of_ne heq]
    exact (h.accounted k' hnot hr).mono (fun v _ => hle v) fun _ hu => hu

/-- Forgetting a key brings nothing to life. -/
theorem alive_of_forget [Std.LawfulEqOrd κ] (hs : s.reclaimer.Sound) {k : κ} {v : Value}
    (hv : Soft.alive env { s with reclaimer := s.reclaimer.forget k } v = true) :
    s.alive env v = true := by
  have hkeeps := (Reclaimer.forget_settled hs .alone k).keeps_only v
  exact alive_of_reclaimer (fun hkept => alive_of_keeps (hkeeps hkept)) hv

/-- A key is no longer followed before the call is made that changes its entry. -/
theorem Traced.forgetting [Std.LawfulEqOrd κ] (h : Traced faults (s.alive env) exempt unread s)
    {c : Call κ} {k : κ} (hc : c.changes k = true) :
    Traced faults (Soft.alive env { s with reclaimer := s.reclaimer.forget k })
      (fun k' => exempt k' ∨ c.changes k' = true) unread
      { s with reclaimer := s.reclaimer.forget k } := by
  refine h.forget (fun v => alive_of_forget h.sound) fun k' hk' => ⟨fun hex => hk' (.inl hex), ?_⟩
  rintro rfl
  exact absurd (.inr hc) hk'

/-! ## Draining -/

variable [Std.LawfulEqOrd κ]

/-- The first posted key is taken off. Unless it has a live value, a call is made for its entry. -/
theorem drainKey_traced (h : Traced faults (s.alive env) exempt unread s) {k : κ} {l : List κ}
    (hposted : s.reclaimer.posted = k :: l) (removed : Nat) :
    (drainKey removed k).Leaves env s fun r s' =>
      Traced faults (s'.alive env) exempt unread s' ∧ s'.reclaimer.posted = l ∧
        ∀ e, r = .error e → faults.Gives e := by
  have hmem : ∀ k', k' ∈ s.reclaimer.posted → k' = k ∨ k' ∈ l := by
    intro k' hk'
    rw [hposted] at hk'
    exact List.mem_cons.mp hk'
  refine drainKey_leaves_of hposted (fun hlive => ?_) fun _ => ?_
  · have hfollowed : s.reclaimer.tracked k ≠ none := by
      intro hnone
      rw [Reclaimer.hasLive_eq h.sound, hnone] at hlive
      exact absurd hlive (by simp)
    refine ⟨h.takeOff fun k' hk' => ⟨hk', fun hp ht => ?_⟩, rfl, fun e he => absurd he (by simp)⟩
    refine (hmem k' hp).resolve_left ?_
    rintro rfl
    exact hfollowed ht
  · -- between the books and the call nothing accounts for the entry
    have hoff : Traced faults (s.alive env)
        (fun k' => exempt k' ∨ (Call.erase k).changes k' = true) unread
        { s with reclaimer := { s.reclaimer with posted := l } } := by
      refine h.takeOff fun k' hk' => ⟨fun hex => hk' (.inl hex), fun hp _ => ?_⟩
      refine (hmem k' hp).resolve_left ?_
      rintro rfl
      exact hk' (.inr (decide_eq_true rfl))
    refine hoff.call_bind (Probe.erase_answers k)
      (Probe.removed_logged k s.below) (fun k' _ hc => ?_) (fun _ _ hu => hu)
      (fun e p he hp => ⟨hp, rfl, fun e' he' => ?_⟩) fun hp => ?_
    · have heq : k = k' := of_decide_eq_true hc
      exact .absent ((Table.getElem?_remove k k' s.below.table).trans (if_pos heq))
    · cases he'
      exact he
    · exact (Op.yields_pure _).leaves ⟨hp, rfl, fun e' he' => absurd he' (by simp)⟩

theorem drain_traced (h : Traced faults (s.alive env) exempt unread s) :
    (drain : Op (Soft κ (Probe κ Handle)) Unit).Leaves env s fun r s' =>
      Traced faults (s'.alive env) exempt unread s' ∧ (r = .ok () → s'.reclaimer.posted = []) ∧
        ∀ e, r = .error e → faults.Gives e := by
  refine (drain_leaves_of
    (I := fun l d => Traced faults (d.alive env) exempt unread d ∧ d.reclaimer.posted = l)
    (F := fun e d => Traced faults (d.alive env) exempt unread d ∧ faults.Gives e) ?_
    ⟨h, rfl⟩).imp ?_
  · rintro removed k l d ⟨hd, hposted⟩
    refine (drainKey_traced hd hposted removed).imp ?_
    rintro (e | n) d' ⟨hd', hposted', hgives⟩
    · exact ⟨hd', hgives e rfl⟩
    · exact ⟨hd', hposted'⟩
  · rintro (e | _) d ⟨hd, hd'⟩
    · exact ⟨hd, fun hr => absurd hr (by simp), fun e' he' => Except.error.inj he' ▸ hd'⟩
    · exact ⟨hd, fun _ => hd', fun e he => absurd he (by simp)⟩

theorem Traced.drain_bind {x : Op (Soft κ (Probe κ Handle)) α}
    {Q : Except Failure α → Soft κ (Probe κ Handle) → Prop}
    (h : Traced faults (s.alive env) exempt unread s)
    (hstopped : ∀ e d, faults.Gives e → Traced faults (d.alive env) exempt unread d →
      Q (.error e) d)
    (hx : ∀ d, Traced faults (d.alive env) exempt unread d → d.reclaimer.posted = [] →
      x.Leaves env d Q) : (do drain; x).Leaves env s Q := by
  refine (drain_traced h).bind ?_ ?_
  · rintro ⟨⟩ d ⟨hd, hposted, -⟩
    exact hx d hd (hposted rfl)
  · rintro e d ⟨hd, -, hgives⟩
    exact hstopped e d (hgives e rfl) hd

/-! ## Requests -/

theorem size_traced (h : Traced faults (s.alive env) exempt unread s) :
    (Store.size : Op (Soft κ (Probe κ Handle)) Nat).Leaves env s fun r s' =>
      Traced faults (s'.alive env) exempt unread s' ∧ ∀ e, r = .error e → faults.Gives e := by
  refine h.drain_bind (fun e d he hd => ⟨hd, fun e' he' => ?_⟩) fun d hd _ => ?_
  · cases he'
    exact he
  · refine (hd.exempting fun k hk => .inl hk).call Probe.size_answers
      (Probe.noted_logged .size d.below) (fun k _ hc => absurd hc (by simp [Call.changes]))
      (fun _ _ hu => hu) (fun e p he hp => ⟨hp, fun e' he' => ?_⟩) fun hp => ⟨hp, fun e he => ?_⟩
    · cases he'
      exact he
    · exact absurd he (by simp)

/-- A value is followed before its entry is there. -/
theorem write_traced {v : Value} (hv : env.held v = true) (k : κ)
    (hunread : ∀ k', k ≠ k' → unread k' → unread' k')
    (h : Traced faults (s.alive env) exempt unread s) :
    (Store.write k v : Op (Soft κ (Probe κ Handle)) Unit).Leaves env s fun r s' =>
      Traced faults (s'.alive env) exempt (unreadAfter r unread unread') s' := by
  refine Op.Leaves.holding ?_
  rw [← alive_holding hv] at h
  refine h.drain_bind (fun e d _ hd => alive_holding hv d ▸ hd) fun d hd hposted => ?_
  obtain ⟨hmem, dead, hs⟩ := Reclaimer.retain_settled hd.sound ((env.also v).also d.pinned) k v
  refine (retain_yields k v).bind_leaves ?_
  generalize (d.reclaimer.retain ((env.also v).also d.pinned) k v).2 = r at hmem hs
  have hle : ∀ w, Soft.alive env { d with reclaimer := r } w = true →
      d.alive (env.also v) w = true := by
    intro w hw
    rw [alive_holding hv]
    refine alive_of_reclaimer (fun hkept => ?_) hw
    rcases hs.keeps_only w hkept with rfl | hkept
    · exact alive_iff.mpr (.inl hv)
    · exact alive_of_keeps hkept
  have hfollowed : Traced faults (Soft.alive env { d with reclaimer := r })
      (fun k' => exempt k' ∨ (Call.write k).changes k' = true) unread
      { d with reclaimer := r } := by
    refine hd.settle hs (fun _ _ w hw => ?_) fun k' hk' hr => ?_
    · rw [← alive_holding hv]
      exact hw
    · have hne : k' ≠ k := fun heq => hk' (.inr (decide_eq_true heq.symm))
      rw [Function.update_of_ne hne]
      exact (hd.accounted k' (fun hex => hk' (.inl hex)) hr).mono (fun _ _ => hle _) fun _ hu => hu
  refine hfollowed.call (Probe.write_answers k _) (Probe.stored_logged k _ d.below)
    (fun k' _ hc => ?_) (fun k' hc => hunread k' (of_decide_eq_false hc))
    (fun e p _ hp => hp) fun hp => hp
  · have heq : k = k' := of_decide_eq_true hc
    subst heq
    refine .followed v ((Table.getElem?_put k k _ d.below.table).trans (if_pos rfl)) ?_
    exact Reclaimer.tracked_of_mem_kept hs.sound hmem

/-- A key is no longer followed before its miss is there. -/
theorem writeMiss_traced (k : κ) (hunread : ∀ k', k ≠ k' → unread k' → unread' k')
    (hk : unread' k) (h : Traced faults (s.alive env) exempt unread s) :
    (Store.writeMiss k : Op (Soft κ (Probe κ Handle)) Unit).Leaves env s fun r s' =>
      Traced faults (s'.alive env) exempt (unreadAfter r unread unread') s' := by
  refine h.drain_bind (fun e d _ hd => hd) fun d hd hposted => (tell_yields _).bind_leaves ?_
  have hk' : (Call.write k).changes k = true := decide_eq_true rfl
  refine (hd.forgetting hk').call (Probe.write_answers k _) (Probe.stored_logged k _ d.below)
    (fun k' _ hc => ?_) (fun k' hc => hunread k' (of_decide_eq_false hc))
    (fun e p _ hp => hp) fun hp => hp
  · have heq : k = k' := of_decide_eq_true hc
    subst heq
    exact .missed ((Table.getElem?_put k k _ d.below.table).trans (if_pos rfl)) hk

/-- Nothing is followed any more before the entries are out. -/
theorem clear_traced (h : Traced faults (s.alive env) exempt unread s) :
    (Store.clear : Op (Soft κ (Probe κ Handle)) Unit).Leaves env s fun r s' =>
      Traced faults (s'.alive env) exempt (unreadAfter r unread unread') s' := by
  have hunpinned : Traced faults (Soft.alive env { s with pinned := [] }) exempt unread
      { s with pinned := [] } := by
    refine (h.mono (fun _ v _ hv => alive_iff.mpr ?_) fun _ _ hu => hu).repinned []
    exact (alive_iff.mp hv).imp_right fun hv => .inr (hv.resolve_left List.not_mem_nil)
  refine (Op.yields_update _).bind_leaves ?_
  refine hunpinned.drain_bind (fun e d _ hd => hd) fun d hd hposted => ?_
  refine (tell_yields _).bind_leaves ?_
  -- whatever was followed, every key is about to be changed
  have hs := Reclaimer.reset_settled hd.sound .alone
  have hreset : Traced faults (Soft.alive env { d with reclaimer := d.reclaimer.reset })
      (fun k => exempt k ∨ (Call.clear : Call κ).changes k = true) unread
      { d with reclaimer := d.reclaimer.reset } :=
    hd.settle hs (fun k hk => absurd hk List.not_mem_nil) fun k hk => absurd (.inr rfl) hk
  exact hreset.call Probe.clear_answers (Probe.cleared_logged d.below)
    (fun k _ _ => .absent Std.ExtTreeMap.getElem?_empty)
    (fun k hc => absurd hc (by simp [Call.changes])) (fun e p _ hp => hp) fun hp => hp

/-- A lookup of a live value. The value is retained from then on, unless retention has another one
under the key. -/
theorem Traced.refresh {k : κ} {handle : Handle} {v : Value} {r : Reclaimer κ}
    (h : Traced faults (s.alive env) exempt unread s)
    (hval : s.below.table.value? k = some handle) (hup : handle.upgrade (s.alive env) = some v)
    (hr : r = (s.reclaimer.refresh (env.also s.pinned) k v).2)
    (hunread : ∀ k', k ≠ k' → unread k' → unread' k') :
    Traced faults
      (Soft.alive (env.also (some v)) { s with
        pinned := (v :: s.pinned).take s.pinCapacity
        reclaimer := r })
      exempt unread' { s with reclaimer := r } := by
  obtain ⟨htarget, hlive⟩ := Handle.upgrade_eq_some_iff.mp hup
  have hentry := Table.getElem?_of_value? hval htarget
  -- nothing has changed for the other keys, and the entry of this one is no miss
  have hmono : (∀ w, keeps r w = true → w = v ∨ keeps s.reclaimer w = true) → ∀ k', ¬exempt k' →
      faults.refused k' s.below.received = false →
        Accounted (Soft.alive (env.also (some v)) { s with
            pinned := (v :: s.pinned).take s.pinCapacity
            reclaimer := r })
          s.below.table.entries[k']? (s.reclaimer.tracked k') (k' ∈ s.reclaimer.posted)
          (unread' k') := by
    intro hkeeps k' hk' hr'
    refine (h.accounted k' hk' hr').mono (fun w _ hw => ?_) fun hdead hu => hunread k' ?_ hu
    · rcases alive_looked hw with rfl | hw
      · exact hlive
      · refine alive_of_reclaimer (fun hkept => ?_) hw
        rcases hkeeps w hkept with rfl | hkept
        · exact hlive
        · exact alive_of_keeps hkept
    · rintro rfl
      exact absurd (hentry.symm.trans hdead) (by simp [Handle.ofValue, Handle.dead])
  rcases Reclaimer.refresh_cases h.sound (env.also s.pinned) k v with
    ⟨w, -, -, hs⟩ | ⟨hmem, dead, hs⟩
  · rw [← hr] at hs
    exact h.settle hs (fun k hk => absurd hk List.not_mem_nil)
      (hmono fun w hw => .inr (hs.keeps_only w hw))
  · rw [← hr] at hmem hs
    have hkept : keeps r v = true := hs.sound.keeps_iff.mpr ⟨k, hmem⟩
    refine h.settle hs (fun _ _ w hw => Bool.eq_false_iff.mpr fun hw' => ?_) fun k' hk' hr' => ?_
    · refine ne_true_of_eq_false hw ?_
      rcases alive_looked hw' with rfl | hw'
      · exact Bool.or_eq_true_iff.mpr (.inr hkept)
      · exact hw'
    · by_cases heq : k' = k
      · subst heq
        exact .followed v hentry (Function.update_self ..)
      · rw [Function.update_of_ne heq]
        exact hmono hs.keeps_only k' hk' hr'

/-! ## Requests that find a value -/

/-- How a request ends that can find a value, for a caller who holds what was found. -/
def Finds (faults : Faults κ) (env : Ambient) (exempt unread unread' : κ → Prop) :
    Except Failure (Option Value) → Soft κ (Probe κ Handle) → Prop
  | .ok found, s => Traced faults (s.alive (env.also found)) exempt unread' s
  | .error _, s => Traced faults (s.alive env) exempt unread s

theorem read_traced (k : κ) (hunread : ∀ k', k ≠ k' → unread k' → unread' k')
    (h : Traced faults (s.alive env) exempt unread s) :
    (Store.read k : Op (Soft κ (Probe κ Handle)) (Option Value)).Leaves env s
      (Finds faults env exempt unread unread') := by
  have hnone : ∀ d : Soft κ (Probe κ Handle), d.alive (env.also (none : Option Value)) =
      d.alive env := fun d => funext fun w => Bool.eq_iff_iff.mpr (alive_finding.trans (by simp))
  refine (h.exempting fun _ => .inl).call_bind (Probe.read_answers k)
    (Probe.searched_logged k s.below) (fun k' _ hc => absurd hc (by simp [Call.changes]))
    (fun _ _ hu => hu) (fun e p _ hp => hp) fun hp => ?_
  have htable : ((s.below.noted (.read k)).searched k).table = s.below.table :=
    Probe.table_searched k _
  generalize (s.below.noted (.read k)).searched k = p at hp htable
  have hd : Traced faults (Soft.alive env { s with below := p }) exempt unread
      { s with below := p } := hp
  cases hval : s.below.table.value? k with
  | none =>
    refine (Op.yields_pure _).leaves ?_
    show Traced faults (Soft.alive (env.also none) { s with below := p }) exempt unread' _
    rw [hnone]
    refine hd.mono (fun _ _ _ hv => hv) fun k' hdead => hunread k' ?_
    rintro rfl
    rw [← htable, Table.value?_eq hdead] at hval
    exact absurd hval (by simp)
  | some handle =>
    refine (ask_yields _).bind_leaves ?_
    cases hup : handle.upgrade (s.alive env) with
    | some v =>
      rw [show handle.upgrade (s.reclaimer.alive (env.also s.pinned)) = some v from hup]
      refine (refresh_yields k v).bind_leaves ((Op.yields_update (pin v)).bind_leaves ?_)
      refine (Op.yields_pure _).leaves ?_
      have hval' : p.table.value? k = some handle := by
        rw [htable]
        exact hval
      exact (hd.refresh hval' hup rfl hunread).repinned _
    | none =>
      rw [show handle.upgrade (s.reclaimer.alive (env.also s.pinned)) = none from hup]
      refine (tell_yields _).bind_leaves ?_
      have hk : (Call.erase k).changes k = true := decide_eq_true rfl
      refine (hd.forgetting hk).call_bind (Probe.erase_answers k) (Probe.removed_logged k p)
        (fun k' _ hc => ?_) (fun k' hc => hunread k' (of_decide_eq_false hc))
        (fun e p _ hp => hp) fun hp => ?_
      · have heq : k = k' := of_decide_eq_true hc
        exact .absent ((Table.getElem?_remove k k' p.table).trans (if_pos heq))
      · refine (Op.yields_pure _).leaves ?_
        rw [← hnone] at hp
        exact hp

/-- The entry of a key is out before the key is no longer followed. -/
theorem erase_traced (k : κ) (hunread : ∀ k', k ≠ k' → unread k' → unread' k')
    (h : Traced faults (s.alive env) exempt unread s) :
    (Store.erase k : Op (Soft κ (Probe κ Handle)) (Option Value)).Leaves env s
      (Finds faults env exempt unread unread') := by
  refine h.drain_bind (fun e d _ hd => hd) fun d hd _ => ?_
  have hout : ((d.below.noted (.erase k)).removed k).table.entries[k]? = none :=
    (Table.getElem?_remove k k d.below.table).trans (if_pos rfl)
  refine (hd.exempting fun _ => .inl).call_bind (Probe.erase_answers k)
    (Probe.removed_logged k d.below) (fun k' _ hc => ?_)
    (fun k' hc => hunread k' (of_decide_eq_false hc)) (fun e p _ hp => hp) fun hp => ?_
  · have heq : k = k' := of_decide_eq_true hc
    subst heq
    exact .absent hout
  · refine (ask_yields _).bind_leaves ((tell_yields _).bind_leaves ((Op.yields_pure _).leaves ?_))
    refine hp.forget (fun v hv => ?_) fun k' hk' => ⟨hk', fun heq => heq ▸ hout⟩
    -- what was found was alive when it was looked at
    rcases alive_finding.mp hv with hfound | hv
    · obtain ⟨handle, -, hup⟩ := Option.bind_eq_some_iff.mp hfound
      exact (Handle.upgrade_eq_some_iff.mp hup).2
    · exact alive_of_forget hd.sound hv

end Soft

end SoftTier
