import SoftTier.Proofs.Table
import SoftTier.Store.Soft

/-!
# What the operations of a soft layer yield

Over a base store that never fails, no operation of a soft layer fails. Each yields a result and a
layer that are told from the layer before: what it does to the pins, what it has the reclaimer do,
and which entries of the base store it changes.

- `Soft.drained`: a layer with the entries of posted keys taken out.
- `Soft.looked`: what a lookup finds, and the layer after it.
- `Soft.read_yields`, `Soft.write_yields` and so on: one statement for each operation.
-/

namespace SoftTier

namespace Soft

variable {κ σ α : Type} [Ord κ] {env : Ambient}

/-! ## The parts -/

theorem onBelow_yields {s : Soft κ σ} {x : Op σ α} {a : α} {t : σ}
    (hx : x.Yields ((env.also s.pinned).also s.reclaimer) s.below a t) :
    (onBelow x : Op (Soft κ σ) α).Yields env s a { s with below := t } := by
  obtain ⟨hresult, rfl⟩ := hx
  exact ⟨hresult, rfl⟩

theorem ask_yields {s : Soft κ σ} (f : Ambient → Reclaimer κ → α) :
    (ask f : Op (Soft κ σ) α).Yields env s (f (env.also s.pinned) s.reclaimer) s := ⟨rfl, rfl⟩

theorem tell_yields {s : Soft κ σ} (f : Ambient → Reclaimer κ → α × Reclaimer κ) :
    (tell f : Op (Soft κ σ) α).Yields env s (f (env.also s.pinned) s.reclaimer).1
      { s with reclaimer := (f (env.also s.pinned) s.reclaimer).2 } := ⟨rfl, rfl⟩

theorem sweeping_yields {s : Soft κ σ} (f : Ambient → Reclaimer κ → Nat × Reclaimer κ) :
    (sweeping f : Op (Soft κ σ) Nat).Yields env s (f (env.also s.pinned) s.reclaimer).1
      { s with reclaimer := (f (env.also s.pinned) s.reclaimer).2 } := by
  refine (tell_yields f).bind ?_
  dsimp only
  split
  · exact (Op.yields_emit _).bind (Op.yields_pure _)
  · exact Op.yields_pure _

theorem sweep_yields {s : Soft κ σ} :
    (sweep : Op (Soft κ σ) Nat).Yields env s (s.reclaimer.sweep (env.also s.pinned)).1
      { s with reclaimer := (s.reclaimer.sweep (env.also s.pinned)).2 } := sweeping_yields _

variable [DecidableEq κ] [Std.TransOrd κ]

theorem shrink_yields {s : Soft κ σ} (n : Nat) :
    (shrink n : Op (Soft κ σ) Nat).Yields env s (s.reclaimer.shrink (env.also s.pinned) n).1
      { s with reclaimer := (s.reclaimer.shrink (env.also s.pinned) n).2 } := sweeping_yields _

theorem retain_yields {s : Soft κ σ} (k : κ) (v : Value) :
    (retain k v : Op (Soft κ σ) Unit).Yields env s ()
      { s with reclaimer := (s.reclaimer.retain (env.also s.pinned) k v).2 } :=
  (sweeping_yields _).bind (Op.yields_pure _)

theorem refresh_yields {s : Soft κ σ} (k : κ) (v : Value) :
    (refresh k v : Op (Soft κ σ) Unit).Yields env s ()
      { s with reclaimer := (s.reclaimer.refresh (env.also s.pinned) k v).2 } :=
  (sweeping_yields _).bind (Op.yields_pure _)

theorem setCapacity_yields_error {s : Soft κ σ} {n : Nat} {e : Fault}
    (h : s.reclaimer.setCapacity (env.also s.pinned) n = .error e) :
    (setCapacity n : Op (Soft κ σ) _).Yields env s (.error e) s := by
  refine (tell_yields _).bind ?_
  rw [h]
  exact Op.yields_pure _

theorem setCapacity_yields_ok {s : Soft κ σ} {n : Nat} {p : Nat × Reclaimer κ}
    (h : s.reclaimer.setCapacity (env.also s.pinned) n = .ok p) :
    (setCapacity n : Op (Soft κ σ) _).Yields env s (.ok ()) { s with reclaimer := p.2 } := by
  refine (tell_yields _).bind ?_
  rw [h]
  dsimp only
  split
  · exact (Op.yields_emit _).bind (Op.yields_pure _)
  · exact Op.yields_pure _

/-! ## Draining -/

theorem hasLive_posted (env : Ambient) (k : κ) (r : Reclaimer κ) (posted : List κ) :
    Reclaimer.hasLive env k { r with posted } = r.hasLive env k := rfl

/-- The layer with the entries of posted keys taken out, but for keys with a live value. -/
def drained (env : Ambient) (s : Soft κ (Table κ Handle)) : Soft κ (Table κ Handle) :=
  { s with
    reclaimer := { s.reclaimer with posted := [] }
    below := s.below.removeWhere (fun k => !s.reclaimer.hasLive (env.also s.pinned) k)
      s.reclaimer.posted }

variable {s : Soft κ (Table κ Handle)}

theorem drainKey_yields (env : Ambient) (s : Soft κ (Table κ Handle)) (removed : Nat) (k : κ) :
    ∃ n, (drainKey removed k).Yields env s n
      { s with
        reclaimer := { s.reclaimer with posted := s.reclaimer.posted.tail }
        below := if !s.reclaimer.hasLive (env.also s.pinned) k then s.below.remove k
          else s.below } := by
  cases hlive : s.reclaimer.hasLive (env.also s.pinned) k with
  | true =>
    refine ⟨removed, (tell_yields _).bind ((ask_yields _).bind ?_)⟩
    dsimp only
    rw [hasLive_posted, if_pos hlive]
    exact Op.yields_pure _
  | false =>
    refine ⟨removed + 1, (tell_yields _).bind ((ask_yields _).bind ?_)⟩
    dsimp only
    rw [hasLive_posted, if_neg (ne_true_of_eq_false hlive)]
    exact (onBelow_yields (Table.erase_yields k)).bind (Op.yields_pure _)

/-- Taking posted keys off one by one. What is posted plays no part in which keys have a live value,
so that can be asked of the layer before the first of them. -/
theorem drainKeys_yields (env : Ambient) (s : Soft κ (Table κ Handle)) (removed : Nat)
    (l : List κ) :
    ∃ n, (Op.foldl drainKey removed l).Yields env s n
      { s with
        reclaimer := { s.reclaimer with posted := s.reclaimer.posted.drop l.length }
        below := s.below.removeWhere (fun k => !s.reclaimer.hasLive (env.also s.pinned) k) l } := by
  induction l generalizing s removed with
  | nil => exact ⟨removed, Op.yields_pure _⟩
  | cons k l ih =>
    obtain ⟨n, hk⟩ := drainKey_yields env s removed k
    obtain ⟨n', hl⟩ := ih { s with
      reclaimer := { s.reclaimer with posted := s.reclaimer.posted.tail }
      below := if !s.reclaimer.hasLive (env.also s.pinned) k then s.below.remove k
        else s.below } n
    refine ⟨n', ?_⟩
    rw [Op.foldl_cons]
    rw [List.drop_tail] at hl
    exact hk.bind hl

theorem drain_yields : (drain : Op (Soft κ (Table κ Handle)) Unit).Yields env s ()
    (s.drained env) := by
  obtain ⟨n, hn⟩ := drainKeys_yields env s 0 s.reclaimer.posted
  rw [List.drop_length] at hn
  refine (ask_yields _).bind (hn.bind ?_)
  split
  · exact (Op.yields_read _).bind (Op.yields_emit _)
  · exact Op.yields_pure _

/-! ## Requests -/

theorem size_yields :
    (Store.size : Op (Soft κ (Table κ Handle)) Nat).Yields env s
      (s.drained env).below.entries.size (s.drained env) :=
  drain_yields.bind (onBelow_yields Table.size_yields)

theorem write_yields (k : κ) (v : Value) :
    (Store.write k v : Op (Soft κ (Table κ Handle)) Unit).Yields env s ()
      { s.drained (env.also v) with
        reclaimer := ((s.drained (env.also v)).reclaimer.retain
          ((env.also v).also s.pinned) k v).2
        below := (s.drained (env.also v)).below.put k (some (.ofValue v)) } := by
  refine Op.Yields.holding (drain_yields.bind ?_)
  exact (retain_yields k v).bind (onBelow_yields (Table.write_yields k _))

theorem writeMiss_yields (k : κ) :
    (Store.writeMiss k : Op (Soft κ (Table κ Handle)) Unit).Yields env s ()
      { s.drained env with
        reclaimer := (s.drained env).reclaimer.forget k
        below := (s.drained env).below.put k (some .dead) } :=
  drain_yields.bind ((tell_yields _).bind (onBelow_yields (Table.write_yields k _)))

theorem read_yields_absent {k : κ} (h : s.below.value? k = none) :
    (Store.read k : Op (Soft κ (Table κ Handle)) (Option Value)).Yields env s none s := by
  refine (onBelow_yields (Table.read_yields k)).bind ?_
  rw [h]
  exact Op.yields_pure _

theorem read_yields_dead {k : κ} {h : Handle} (hk : s.below.value? k = some h)
    (hdead : h.upgrade (s.alive env) = none) :
    (Store.read k : Op (Soft κ (Table κ Handle)) (Option Value)).Yields env s none
      { s with reclaimer := s.reclaimer.forget k, below := s.below.remove k } := by
  refine (onBelow_yields (Table.read_yields k)).bind ?_
  rw [hk]
  refine (ask_yields _).bind ?_
  rw [show h.upgrade (s.reclaimer.alive (env.also s.pinned)) = none from hdead]
  exact (tell_yields _).bind ((onBelow_yields (Table.erase_yields k)).bind (Op.yields_pure _))

theorem read_yields_live {k : κ} {h : Handle} {v : Value} (hk : s.below.value? k = some h)
    (hlive : h.upgrade (s.alive env) = some v) :
    (Store.read k : Op (Soft κ (Table κ Handle)) (Option Value)).Yields env s (some v)
      { s with
        pinned := (v :: s.pinned).take s.pinCapacity
        reclaimer := (s.reclaimer.refresh (env.also s.pinned) k v).2 } := by
  refine (onBelow_yields (Table.read_yields k)).bind ?_
  rw [hk]
  refine (ask_yields _).bind ?_
  rw [show h.upgrade (s.reclaimer.alive (env.also s.pinned)) = some v from hlive]
  exact (refresh_yields k v).bind ((Op.yields_update (pin v)).bind (Op.yields_pure _))

/-- What a lookup finds, and the layer after it. A dead handle is taken out. -/
def looked (env : Ambient) (k : κ) (s : Soft κ (Table κ Handle)) :
    Option Value × Soft κ (Table κ Handle) :=
  match s.below.value? k with
  | none => (none, s)
  | some h =>
    match h.upgrade (s.alive env) with
    | none => (none, { s with reclaimer := s.reclaimer.forget k, below := s.below.remove k })
    | some v =>
      (some v, { s with
        pinned := (v :: s.pinned).take s.pinCapacity
        reclaimer := (s.reclaimer.refresh (env.also s.pinned) k v).2 })

theorem read_yields (k : κ) (s : Soft κ (Table κ Handle)) :
    (Store.read k : Op (Soft κ (Table κ Handle)) (Option Value)).Yields env s
      (s.looked env k).1 (s.looked env k).2 := by
  rw [looked]
  split
  · rename_i habsent
    exact read_yields_absent habsent
  · rename_i h hk
    split
    · rename_i hdead
      exact read_yields_dead hk hdead
    · rename_i v hlive
      exact read_yields_live hk hlive

theorem erase_yields (k : κ) :
    (Store.erase k : Op (Soft κ (Table κ Handle)) (Option Value)).Yields env s
      (((s.drained env).below.value? k).bind (·.upgrade (s.alive env)))
      { s.drained env with
        reclaimer := (s.drained env).reclaimer.forget k
        below := (s.drained env).below.remove k } :=
  drain_yields.bind ((onBelow_yields (Table.erase_yields k)).bind
    ((ask_yields _).bind ((tell_yields _).bind (Op.yields_pure _))))

theorem clear_yields :
    (Store.clear : Op (Soft κ (Table κ Handle)) Unit).Yields env s ()
      { ({ s with pinned := [] } : Soft κ (Table κ Handle)).drained env with
        reclaimer :=
          (({ s with pinned := [] } : Soft κ (Table κ Handle)).drained env).reclaimer.reset
        below := { (({ s with pinned := [] } : Soft κ (Table κ Handle)).drained env).below with
          entries := ∅ } } :=
  (Op.yields_update _).bind (drain_yields.bind ((tell_yields _).bind
    (onBelow_yields Table.clear_yields)))

end Soft

end SoftTier
