import SoftTier.Proofs.Probe
import SoftTier.Proofs.Soft.Operations

/-!
# A soft layer over a store that fails

Every request of a soft layer asks the store below for something, and most of them several times:
first to take posted keys out, then for what was requested. Each of these calls can fail. What was
done before the failing one stays done, at the store below and in the layer itself.

- `Soft.Looked`, `Soft.read_leaves`: how a lookup can end.
- `Soft.Takes`: some of the posted keys have been taken off, and the entries of some of them out.
- `Soft.drain_leaves_of`: a drain, told by what is so while posted keys are left.
- `Soft.drain_leaves`: what a drain leaves, whether or not it is stopped by a failure.
- `Soft.Wrote`: how a request that writes can end.
- `Soft.write_leaves`, `Soft.erase_leaves` and so on: what each request does on its way there.
-/

namespace SoftTier

namespace Soft

variable {κ α : Type} [Ord κ] {env : Ambient}

/-- Whether or not it fails, a call on the store below changes that store only. -/
theorem onBelow_leaves {σ : Type} {s : Soft κ σ} {x : Op σ α} {Q : Except Failure α → σ → Prop}
    (hx : x.Leaves ((env.also s.pinned).also s.reclaimer) s.below Q) :
    (onBelow x : Op (Soft κ σ) α).Leaves env s fun r s' =>
      s' = { s with below := s'.below } ∧ Q r s'.below := ⟨rfl, hx⟩

/-- A call on the store below is recorded there, and if it is to fail nothing else happens. -/
theorem onBelow_called {s : Soft κ (Probe κ Handle)} {x : Op (Probe κ Handle) α} {c : Call κ}
    {a : α} {p' : Probe κ Handle} {Q : Except Failure α → Soft κ (Probe κ Handle) → Prop}
    (hx : Probe.Answers x c ((env.also s.pinned).also s.reclaimer) s.below a p')
    (hfails : ∀ e, s.below.faults s.below.count c = some e →
      Q (.error e) { s with below := s.below.noted c })
    (hserves : s.below.faults s.below.count c = none → Q (.ok a) { s with below := p' }) :
    (onBelow x : Op (Soft κ (Probe κ Handle)) α).Leaves env s Q := by
  have hbelow : x.Leaves ((env.also s.pinned).also s.reclaimer) s.below fun r p =>
      Q r { s with below := p } := hx.leaves hfails hserves
  refine (onBelow_leaves hbelow).imp ?_
  rintro r s' ⟨hs', hq⟩
  rw [hs']
  exact hq

/-- What a call on the store below does to its entries: nothing, if it fails. -/
theorem onBelow_answers {s : Soft κ (Probe κ Handle)} {x : Op (Probe κ Handle) α} {c : Call κ}
    {a : α} {p' : Probe κ Handle}
    (hx : Probe.Answers x c ((env.also s.pinned).also s.reclaimer) s.below a p') :
    (onBelow x : Op (Soft κ (Probe κ Handle)) α).Leaves env s fun r s' =>
      ∃ p, s' = { s with below := p } ∧
        ((∃ e, r = .error e) ∧ p.table = s.below.table ∨ r = .ok a ∧ p.table = p'.table) := by
  refine onBelow_called hx (fun e _ => ?_) fun _ => ?_
  · exact ⟨s.below.noted c, rfl, .inl ⟨⟨e, rfl⟩, rfl⟩⟩
  · exact ⟨p', rfl, .inr ⟨rfl, rfl⟩⟩

/-- A block that starts with a call on the store below: if that fails no entry has changed, and
otherwise the block goes on with its answer. -/
theorem onBelow_bind_leaves {β : Type} {s : Soft κ (Probe κ Handle)} {x : Op (Probe κ Handle) α}
    {f : α → Op (Soft κ (Probe κ Handle)) β} {Q : Except Failure β → Soft κ (Probe κ Handle) → Prop}
    {c : Call κ} {a : α} {p' : Probe κ Handle}
    (hx : Probe.Answers x c ((env.also s.pinned).also s.reclaimer) s.below a p')
    (hrefused : ∀ e p, p.table = s.below.table → Q (.error e) { s with below := p })
    (hserved : ∀ p, p.table = p'.table → (f a).Leaves env { s with below := p } Q) :
    (do f (← onBelow x)).Leaves env s Q := by
  refine (onBelow_answers hx).bind ?_ ?_
  · rintro b s' ⟨p, rfl, ⟨⟨e, he⟩, -⟩ | ⟨hb, htable⟩⟩
    · exact absurd he (by simp)
    · cases hb
      exact hserved p htable
  · rintro e s' ⟨p, rfl, ⟨-, htable⟩ | ⟨he, -⟩⟩
    · exact hrefused e p htable
    · exact absurd he (by simp)

/-! ## Lookups -/

variable [DecidableEq κ] [Std.TransOrd κ]

/-- How a lookup ends. -/
inductive Looked (env : Ambient) (k : κ) (s : Soft κ (Probe κ Handle)) :
    Except Failure (Option Value) → Soft κ (Probe κ Handle) → Prop where
  /-- The store below did not answer. -/
  | refused (e : Failure) {p : Probe κ Handle} (htable : p.table = s.below.table) :
      Looked env k s (.error e) { s with below := p }
  /-- There is nothing. -/
  | absent (hval : s.below.table.value? k = none) {p : Probe κ Handle}
      (htable : p.table = s.below.table) :
      Looked env k s (.ok none) { s with below := p }
  /-- There is a live value. -/
  | live {handle : Handle} {v : Value} (hval : s.below.table.value? k = some handle)
      (hup : handle.upgrade (s.alive env) = some v) {p : Probe κ Handle}
      (htable : p.table = s.below.table) :
      Looked env k s (.ok (some v))
        { s with
          pinned := (v :: s.pinned).take s.pinCapacity
          reclaimer := (s.reclaimer.refresh (env.also s.pinned) k v).2
          below := p }
  /-- There is a dead value, whose entry is taken out unless that fails. -/
  | dead {handle : Handle} (hval : s.below.table.value? k = some handle)
      (hup : handle.upgrade (s.alive env) = none) {r : Except Failure (Option Value)}
      {p : Probe κ Handle}
      (hends : (∃ e, r = .error e) ∧ p.table = s.below.table ∨
        r = .ok none ∧ p.table = s.below.table.remove k) :
      Looked env k s r { s with reclaimer := s.reclaimer.forget k, below := p }

theorem read_leaves (env : Ambient) (s : Soft κ (Probe κ Handle)) (k : κ) :
    (Store.read k : Op (Soft κ (Probe κ Handle)) (Option Value)).Leaves env s
      (Looked env k s) := by
  refine onBelow_bind_leaves (Probe.read_answers k) (fun e p htable => .refused e htable)
    fun p htable => ?_
  rw [Probe.table_searched] at htable
  cases hval : s.below.table.value? k with
  | none => exact (Op.yields_pure _).leaves (.absent hval htable)
  | some handle =>
    refine (ask_yields _).bind_leaves ?_
    cases hup : handle.upgrade (s.alive env) with
    | some v =>
      rw [show handle.upgrade (s.reclaimer.alive (env.also s.pinned)) = some v from hup]
      refine (refresh_yields k v).bind_leaves ((Op.yields_update (pin v)).bind_leaves ?_)
      exact (Op.yields_pure _).leaves (.live hval hup htable)
    | none =>
      rw [show handle.upgrade (s.reclaimer.alive (env.also s.pinned)) = none from hup]
      refine (tell_yields _).bind_leaves ?_
      refine onBelow_bind_leaves (Probe.erase_answers k) (fun e p' htable' => ?_)
        fun p' htable' => ?_
      · exact .dead hval hup (.inl ⟨⟨e, rfl⟩, htable'.trans htable⟩)
      · refine (Op.yields_pure _).leaves (.dead hval hup (.inr ⟨rfl, ?_⟩))
        rw [htable', Probe.removed]
        exact congrArg (Table.remove k) htable

/-- While the store below answers, a lookup finds what the entry gives. -/
theorem read_result (env : Ambient) {s : Soft κ (Probe κ Handle)} (hs : s.below.faults = .never)
    (k : κ) :
    (Store.read k : Op (Soft κ (Probe κ Handle)) (Option Value)).Leaves env s fun r _ =>
      r = .ok ((s.below.table.value? k).bind (·.upgrade (s.alive env))) := by
  have hfaults : ((s.below.noted (.read k)).searched k).faults = .never :=
    (Probe.faults_searched k _).trans hs
  refine (onBelow_yields ((Probe.read_answers k).serves (by rw [hs]; rfl))).bind_leaves ?_
  cases s.below.table.value? k with
  | none => exact (Op.yields_pure _).leaves rfl
  | some handle =>
    refine (ask_yields _).bind_leaves ?_
    rw [Option.bind_some]
    cases hup : handle.upgrade (s.alive env) with
    | some v =>
      rw [show handle.upgrade (s.reclaimer.alive (env.also s.pinned)) = some v from hup]
      refine (refresh_yields k v).bind_leaves ((Op.yields_update (pin v)).bind_leaves ?_)
      exact (Op.yields_pure _).leaves rfl
    | none =>
      rw [show handle.upgrade (s.reclaimer.alive (env.also s.pinned)) = none from hup]
      refine (tell_yields _).bind_leaves ?_
      refine (onBelow_yields ((Probe.erase_answers k).serves (by rw [hfaults]; rfl))).bind_leaves ?_
      exact (Op.yields_pure _).leaves rfl

/-! ## Draining -/

/-- The first posted key is taken off before anything is asked, so it is off even if that fails. -/
theorem drainKey_leaves_of {σ : Type} [Store σ κ Handle] {s : Soft κ σ} {k : κ} {l : List κ}
    (hposted : s.reclaimer.posted = k :: l) {removed : Nat}
    {Q : Except Failure Nat → Soft κ σ → Prop}
    (hlive : s.reclaimer.hasLive (env.also s.pinned) k = true →
      Q (.ok removed) { s with reclaimer := { s.reclaimer with posted := l } })
    (hdead : s.reclaimer.hasLive (env.also s.pinned) k = false →
      Op.Leaves (do
        let _ ← onBelow (Store.erase k : Op σ (Option Handle))
        return removed + 1) env { s with reclaimer := { s.reclaimer with posted := l } } Q) :
    (drainKey removed k).Leaves env s Q := by
  have htail : s.reclaimer.posted.tail = l := by
    rw [hposted]
    rfl
  refine (tell_yields _).bind_leaves ((ask_yields _).bind_leaves ?_)
  dsimp only
  rw [hasLive_posted, htail]
  split
  · rename_i h
    exact (Op.yields_pure _).leaves (hlive h)
  · rename_i h
    exact hdead (Bool.eq_false_iff.mpr h)

/-- A drain takes the posted keys off one by one, and at most reports it. -/
theorem drain_leaves_of {σ : Type} [Store σ κ Handle] {s : Soft κ σ}
    {I : List κ → Soft κ σ → Prop} {F : Failure → Soft κ σ → Prop}
    (hstep : ∀ removed k l d, I (k :: l) d → (drainKey removed k).Leaves env d (Op.Ends (I l) F))
    (h : I s.reclaimer.posted s) :
    (drain : Op (Soft κ σ) Unit).Leaves env s (Op.Ends (I []) F) := by
  refine (ask_yields _).bind_leaves ((Op.foldl_leaves hstep 0 h).bind ?_ ?_)
  · intro removed d hd
    split
    · exact ((Op.yields_read _).bind (Op.yields_emit _)).leaves hd
    · exact (Op.yields_pure _).leaves hd
  · intro e d hd
    exact hd

/-- Posted keys have been taken off, and of those among `l` that have no live value some entries
are out. Nothing else has changed. -/
structure Takes (env : Ambient) (l : List κ) (s s' : Soft κ (Probe κ Handle)) : Prop where
  pinned_eq : s'.pinned = s.pinned
  reclaimer_eq : ∃ posted, posted <:+ s.reclaimer.posted ∧
    s'.reclaimer = { s.reclaimer with posted }
  entry_cases : ∀ k, s'.below.table.entries[k]? = s.below.table.entries[k]? ∨
    s'.below.table.entries[k]? = none ∧ k ∈ l ∧
      s.reclaimer.hasLive (env.also s.pinned) k = false

variable {l : List κ} {k : κ} {s s' s'' : Soft κ (Probe κ Handle)}

theorem Takes.refl (s : Soft κ (Probe κ Handle)) : Takes env l s s where
  pinned_eq := rfl
  reclaimer_eq := ⟨_, List.suffix_rfl, rfl⟩
  entry_cases _ := .inl rfl

theorem Takes.hasLive_eq (h : Takes env l s s') (k : κ) :
    s'.reclaimer.hasLive (env.also s'.pinned) k = s.reclaimer.hasLive (env.also s.pinned) k := by
  obtain ⟨posted, -, hr⟩ := h.reclaimer_eq
  rw [h.pinned_eq, hr]
  rfl

theorem Takes.keeps_eq (h : Takes env l s s') (v : Value) :
    keeps s'.reclaimer v = keeps s.reclaimer v := by
  obtain ⟨posted, -, hr⟩ := h.reclaimer_eq
  rw [hr]
  rfl

/-- A first key and then others. -/
theorem Takes.cons (h : Takes env [k] s s') (h' : Takes env l s' s'') :
    Takes env (k :: l) s s'' := by
  constructor
  · rw [h'.pinned_eq, h.pinned_eq]
  · obtain ⟨posted, hsuffix, hr⟩ := h.reclaimer_eq
    obtain ⟨posted', hsuffix', hr'⟩ := h'.reclaimer_eq
    rw [hr] at hsuffix' hr'
    exact ⟨posted', hsuffix'.trans hsuffix, hr'⟩
  · intro k'
    rcases h'.entry_cases k' with heq | ⟨hnone, hmem, hlive⟩
    · rw [heq]
      refine (h.entry_cases k').imp_right fun ⟨hnone, hmem, hlive⟩ => ?_
      exact ⟨hnone, List.mem_cons.mpr (.inl (List.mem_singleton.mp hmem)), hlive⟩
    · rw [h.hasLive_eq] at hlive
      exact .inr ⟨hnone, List.mem_cons_of_mem k hmem, hlive⟩

/-- What is left under a key was there before. -/
theorem Takes.entry_eq (h : Takes env l s s') {k : κ} {entry : Option Handle}
    (hentry : s'.below.table.entries[k]? = some entry) :
    s.below.table.entries[k]? = some entry := by
  rcases h.entry_cases k with heq | ⟨hnone, -, -⟩
  · exact heq.symm.trans hentry
  · exact absurd (hnone.symm.trans hentry) (by simp)

variable [Std.LawfulEqOrd κ]

theorem drainKey_leaves {env : Ambient} {s : Soft κ (Probe κ Handle)} {k : κ} {l : List κ}
    (hposted : s.reclaimer.posted = k :: l) (removed : Nat) :
    (drainKey removed k).Leaves env s fun _ s' =>
      Takes env [k] s s' ∧ s'.reclaimer.posted = l := by
  have hsuffix : l <:+ s.reclaimer.posted := by
    rw [hposted]
    exact List.suffix_cons k l
  refine drainKey_leaves_of hposted (fun _ => ⟨⟨rfl, ⟨l, hsuffix, rfl⟩, fun _ => .inl rfl⟩, rfl⟩)
    fun hlive => ?_
  refine onBelow_bind_leaves (Probe.erase_answers k) (fun e p htable => ?_) fun p htable => ?_
  · refine ⟨⟨rfl, ⟨l, hsuffix, rfl⟩, fun k' => .inl ?_⟩, rfl⟩
    dsimp only
    rw [htable]
  · refine (Op.yields_pure _).leaves ⟨⟨rfl, ⟨l, hsuffix, rfl⟩, fun k' => ?_⟩, rfl⟩
    dsimp only
    rw [htable, Probe.removed, Table.getElem?_remove]
    split
    · rename_i heq
      subst heq
      exact .inr ⟨rfl, List.mem_singleton_self k, hlive⟩
    · exact .inl rfl

/-- A drain that is not stopped takes all posted keys off. -/
theorem drain_leaves (env : Ambient) (s : Soft κ (Probe κ Handle)) :
    (drain : Op (Soft κ (Probe κ Handle)) Unit).Leaves env s fun r s' =>
      Takes env s.reclaimer.posted s s' ∧ (r = .ok () → s'.reclaimer.posted = []) := by
  -- what is taken from here on counts as taken from the first state on
  refine (drain_leaves_of (F := fun _ d => Takes env s.reclaimer.posted s d) (I := fun l d =>
    d.reclaimer.posted = l ∧ ∀ d', Takes env l d d' → Takes env s.reclaimer.posted s d') ?_
    ⟨rfl, fun _ htakes => htakes⟩).imp ?_
  · rintro removed k l d ⟨hposted, htakes⟩
    refine (drainKey_leaves hposted removed).imp ?_
    rintro (e | n) d' ⟨hfirst, hposted'⟩
    · exact htakes d' (hfirst.cons (.refl d'))
    · exact ⟨hposted', fun d'' hrest => htakes d'' (hfirst.cons hrest)⟩
  · rintro (e | _) d h
    · exact ⟨h, fun hr => absurd hr (by simp)⟩
    · exact ⟨h.2 d (.refl d), fun _ => h.1⟩

/-! ## Requests that drain first -/

/-- A drain that is stopped ends the block. -/
theorem drain_bind_leaves {x : Op (Soft κ (Probe κ Handle)) α}
    {Q : Except Failure α → Soft κ (Probe κ Handle) → Prop}
    (hstopped : ∀ e d, Takes env s.reclaimer.posted s d → Q (.error e) d)
    (hx : ∀ d, Takes env s.reclaimer.posted s d → d.reclaimer.posted = [] → x.Leaves env d Q) :
    (do drain; x).Leaves env s Q := by
  refine (drain_leaves env s).bind ?_ ?_
  · rintro ⟨⟩ d ⟨htakes, hposted⟩
    exact hx d htakes (hposted rfl)
  · rintro e d ⟨htakes, -⟩
    exact hstopped e d htakes

/-- How a request ends that drains, tells the reclaimer `before`, asks the store below for `change`
and tells the reclaimer `after`. -/
inductive Wrote (env : Ambient) (before : Soft κ (Probe κ Handle) → Reclaimer κ)
    (change : Table κ Handle → Table κ Handle) (after : Reclaimer κ → Reclaimer κ)
    (answer : Soft κ (Probe κ Handle) → α) (s : Soft κ (Probe κ Handle)) :
    Except Failure α → Soft κ (Probe κ Handle) → Prop where
  /-- The drain met a failure. -/
  | stopped (e : Failure) {d : Soft κ (Probe κ Handle)}
      (htakes : Takes env s.reclaimer.posted s d) :
      Wrote env before change after answer s (.error e) d
  /-- What was asked for failed. -/
  | refused (e : Failure) {d : Soft κ (Probe κ Handle)}
      (htakes : Takes env s.reclaimer.posted s d) (hposted : d.reclaimer.posted = [])
      {p : Probe κ Handle} (htable : p.table = d.below.table) :
      Wrote env before change after answer s (.error e)
        { d with reclaimer := before d, below := p }
  /-- Nothing failed. -/
  | served {d : Soft κ (Probe κ Handle)} (htakes : Takes env s.reclaimer.posted s d)
      (hposted : d.reclaimer.posted = []) {p : Probe κ Handle}
      (htable : p.table = change d.below.table) :
      Wrote env before change after answer s (.ok (answer d))
        { d with reclaimer := after (before d), below := p }

theorem size_leaves (env : Ambient) (s : Soft κ (Probe κ Handle)) :
    (Store.size : Op (Soft κ (Probe κ Handle)) Nat).Leaves env s
      (Wrote env (·.reclaimer) id id (·.below.table.entries.size) s) := by
  refine drain_bind_leaves (fun e _ h => .stopped e h) fun d h hposted => ?_
  refine (onBelow_answers Probe.size_answers).imp ?_
  rintro r s' ⟨p, rfl, ⟨⟨e, rfl⟩, htable⟩ | ⟨rfl, htable⟩⟩
  · exact .refused e h hposted htable
  · exact .served h hposted htable

theorem write_leaves (env : Ambient) (s : Soft κ (Probe κ Handle)) (k : κ) (v : Value) :
    (Store.write k v : Op (Soft κ (Probe κ Handle)) Unit).Leaves env s
      (Wrote (env.also v) (fun d => (d.reclaimer.retain ((env.also v).also d.pinned) k v).2)
        (·.put k (some (.ofValue v))) id (fun _ => ()) s) := by
  refine Op.Leaves.holding (drain_bind_leaves (fun e _ h => .stopped e h) fun d h hposted => ?_)
  refine (retain_yields k v).bind_leaves ((onBelow_answers (Probe.write_answers k _)).imp ?_)
  rintro r s' ⟨p, rfl, ⟨⟨e, rfl⟩, htable⟩ | ⟨rfl, htable⟩⟩
  · exact .refused e h hposted htable
  · exact .served h hposted htable

theorem writeMiss_leaves (env : Ambient) (s : Soft κ (Probe κ Handle)) (k : κ) :
    (Store.writeMiss k : Op (Soft κ (Probe κ Handle)) Unit).Leaves env s
      (Wrote env (·.reclaimer.forget k) (·.put k (some .dead)) id (fun _ => ()) s) := by
  refine drain_bind_leaves (fun e _ h => .stopped e h) fun d h hposted => ?_
  refine (tell_yields _).bind_leaves ((onBelow_answers (Probe.write_answers k _)).imp ?_)
  rintro r s' ⟨p, rfl, ⟨⟨e, rfl⟩, htable⟩ | ⟨rfl, htable⟩⟩
  · exact .refused e h hposted htable
  · exact .served h hposted htable

/-- The reclaimer is told only when the entry is out. -/
theorem erase_leaves (env : Ambient) (s : Soft κ (Probe κ Handle)) (k : κ) :
    (Store.erase k : Op (Soft κ (Probe κ Handle)) (Option Value)).Leaves env s
      (Wrote env (·.reclaimer) (·.remove k) (·.forget k)
        (fun d => (d.below.table.value? k).bind (·.upgrade (d.alive env))) s) := by
  refine drain_bind_leaves (fun e _ h => .stopped e h) fun d h hposted => ?_
  refine onBelow_bind_leaves (Probe.erase_answers k) (fun e p htable => .refused e h hposted htable)
    fun p htable => (ask_yields _).bind_leaves ((tell_yields _).bind_leaves ?_)
  exact (Op.yields_pure _).leaves (.served h hposted htable)

/-- The pins go before anything can fail. -/
theorem clear_leaves (env : Ambient) (s : Soft κ (Probe κ Handle)) :
    (Store.clear : Op (Soft κ (Probe κ Handle)) Unit).Leaves env s
      (Wrote env (·.reclaimer.reset) (fun t => { t with entries := ∅ }) id (fun _ => ())
        { s with pinned := [] }) := by
  refine (Op.yields_update _).bind_leaves ?_
  refine drain_bind_leaves (fun e _ h => .stopped e h) fun d h hposted => ?_
  refine (tell_yields _).bind_leaves ((onBelow_answers Probe.clear_answers).imp ?_)
  rintro r s' ⟨p, rfl, ⟨⟨e, rfl⟩, htable⟩ | ⟨rfl, htable⟩⟩
  · exact .refused e h hposted htable
  · exact .served h hposted htable

end Soft

end SoftTier
