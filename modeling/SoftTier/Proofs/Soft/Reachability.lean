import SoftTier.Proofs.Soft.Validity

/-!
# A soft layer reads as a map cut down to what is alive

Over a base store that never fails, whatever callers do, a key reads as the value last written under
it, if anything still holds that value, and as nothing otherwise.

- `Custody.read_record`, `Custody.erase_record`: what lookups and removals put on record.
- `Custody.drain_keeps_alive`: no drain takes out the entry of a live value.
- `Custody.found_eq_written_alive`: all of this after any acts.
-/

namespace SoftTier

namespace Custody

variable {κ : Type} [Ord κ]

/-- What an operation on the layer yields is an answer. -/
theorem answered_of_yields {σ α : Type} {c : Custody κ σ} {visit : Visit} {act : Act κ}
    {reply : α → Answer} {x : Op (Soft κ σ) α} {a : α} {layer : Soft κ σ}
    (h : x.Yields (c.around visit) c.layer a layer) (hreply : ∀ fault, reply a ≠ .failed fault) :
    ∃ answer, (c.perform visit act reply x).past = (act, answer) :: c.past ∧
      ∀ fault, answer = .failed fault → act = .setCapacity 0 := by
  rw [perform_eq h]
  exact ⟨_, rfl, fun fault heq => absurd heq (hreply fault)⟩

variable [DecidableEq κ] [Std.TransOrd κ]

namespace Valid

variable {c : Custody κ (Table κ Handle)}

/-- A lookup gives what was written, if it is alive. -/
theorem read_record (h : c.Valid) (visit : Visit) (k : κ) (hold : Bool) :
    (c.step visit (.read k hold)).past =
      (.read k hold, .found ((written k c.past).filter c.alive)) :: c.past := by
  rw [← h.coherent.upgrade_entry k, step]
  cases hval : c.layer.below.value? k with
  | none => rw [performFinding_eq (Soft.read_yields_absent hval), Option.bind_none]
  | some handle =>
    rw [Option.bind_some]
    cases hup : handle.upgrade c.alive with
    | none => rw [performFinding_eq (Soft.read_yields_dead hval hup)]
    | some v => rw [performFinding_eq (Soft.read_yields_live hval hup)]

variable [Std.LawfulEqOrd κ]

/-- So does a removal. -/
theorem erase_record (h : c.Valid) (visit : Visit) (k : κ) (hold : Bool) :
    (c.step visit (.erase k hold)).past =
      (.erase k hold, .found ((written k c.past).filter c.alive)) :: c.past := by
  rw [← h.erase_found visit k, step, performFinding_eq (Soft.erase_yields k)]

/-- Whatever is held when posted keys are drained, the entry of a live value stays. -/
theorem drain_keeps_alive (h : c.Valid) (env : Ambient) (pinned : List Value) {k : κ} {v : Value}
    (hentry : c.layer.below.entries[k]? = some (some (.ofValue v))) (hv : c.alive v = true) :
    (Soft.drain env { c.layer with pinned }).state.below.entries[k]? =
      some (some (.ofValue v)) := by
  have hposted := h.coherent.notin_posted_of_entry hentry hv
  rw [Soft.drain_yields.state_eq, Soft.drained, Table.getElem?_removeWhere,
    if_neg fun hand => hposted hand.1, hentry]

/-- An act is answered without a failure, unless it sets a bound that retention cannot have. An act
on a value that its caller does not hold is not done. -/
theorem step_answered (h : c.Valid) (visit : Visit) (act : Act κ) :
    (c.step visit act).past = c.past ∨ ∃ answer, (c.step visit act).past = (act, answer) :: c.past ∧
      ∀ fault, answer = .failed fault → act = .setCapacity 0 := by
  cases act with
  | make text => exact .inr ⟨_, rfl, by simp⟩
  | keep v =>
    rw [step]
    split
    · exact .inr ⟨_, rfl, by simp⟩
    · exact .inl rfl
  | drop v => exact .inr ⟨_, rfl, by simp⟩
  | write k v =>
    rw [step]
    split
    · exact .inr (answered_of_yields (Soft.write_yields k v) (by simp))
    · exact .inl rfl
  | writeMiss k => exact .inr (answered_of_yields (Soft.writeMiss_yields k) (by simp))
  | read k hold => exact .inr ⟨_, h.read_record visit k hold, by simp⟩
  | erase k hold => exact .inr ⟨_, h.erase_record visit k hold, by simp⟩
  | clear => exact .inr (answered_of_yields Soft.clear_yields (by simp))
  | size => exact .inr (answered_of_yields Soft.size_yields (by simp))
  | setPinCapacity n => exact .inr (answered_of_yields (Op.yields_update _) (by simp))
  | sweep => exact .inr (answered_of_yields Soft.sweep_yields (by simp))
  | shrink n => exact .inr (answered_of_yields (Soft.shrink_yields n) (by simp))
  | setCapacity n =>
    rcases Nat.eq_zero_or_pos n with rfl | hn
    · rw [step, perform_eq (Soft.setCapacity_yields_error (Reclaimer.setCapacity_zero ..))]
      exact .inr ⟨_, rfl, fun _ _ => rfl⟩
    · obtain ⟨p, dead, hset, -⟩ := Reclaimer.setCapacity_settled h.coherent.sound
        ((c.around visit).also c.layer.pinned) hn
      exact .inr (answered_of_yields (Soft.setCapacity_yields_ok hset) (by simp))

end Valid

variable [Std.LawfulEqOrd κ]

theorem run_answered {c : Custody κ (Table κ Handle)} (h : c.Valid)
    (hpast : ∀ act fault, (act, .failed fault) ∈ c.past → act = .setCapacity 0)
    (acts : List (Visit × Act κ)) :
    ∀ act fault, (act, .failed fault) ∈ (c.run acts).past → act = .setCapacity 0 := by
  induction acts generalizing c with
  | nil => exact hpast
  | cons a acts ih =>
    refine ih (valid_step h a.1 a.2) fun act fault hmem => ?_
    rcases h.step_answered a.1 a.2 with hsame | ⟨answer, hcons, hanswer⟩
    · exact hpast act fault (hsame ▸ hmem)
    · rw [hcons] at hmem
      rcases List.mem_cons.mp hmem with heq | hmem
      · obtain ⟨rfl, rfl⟩ := Prod.mk.inj heq
        exact hanswer fault rfl
      · exact hpast act fault hmem

/-- **A soft layer reads as a map cut down to what is alive.** Whatever callers do with a soft layer
over a base store and with the values they make, nothing fails but the setting of a bound of zero; a
lookup and a removal of a key both give the very value last written under it, unless that was taken
back or no reference to it is left; and no drain takes out the entry of a value that is alive. -/
theorem found_eq_written_alive {settings : SoftSettings} (hcap : 0 < settings.softCapacity)
    (name : String) :
    ∃ c₀ : Custody κ (Table κ Handle), start settings (Table.named name) = .ok c₀ ∧
      ∀ acts : List (Visit × Act κ),
        let c := c₀.run acts
        (∀ act fault, (act, .failed fault) ∈ c.past → act = .setCapacity 0) ∧
        ∀ k,
          (∀ visit hold, (c.step visit (.read k hold)).past =
            (.read k hold, .found ((written k c.past).filter c.alive)) :: c.past) ∧
          (∀ visit hold, (c.step visit (.erase k hold)).past =
            (.erase k hold, .found ((written k c.past).filter c.alive)) :: c.past) ∧
          ∀ env pinned v, c.layer.below.entries[k]? = some (some (.ofValue v)) →
            c.alive v = true →
              (Soft.drain env { c.layer with pinned }).state.below.entries[k]? =
                some (some (.ofValue v)) := by
  obtain ⟨c₀, hstart, hpast⟩ := start_eq (κ := κ) hcap (Table.named name : Table κ Handle)
  have hvalid := valid_start hstart
  refine ⟨c₀, hstart, fun acts => ?_⟩
  have h := valid_run hvalid acts
  have hnone : ∀ act fault, (act, .failed fault) ∈ c₀.past → act = .setCapacity 0 := by
    simp [hpast]
  exact ⟨run_answered hvalid hnone acts, fun k => ⟨fun visit hold => h.read_record visit k hold,
    fun visit hold => h.erase_record visit k hold,
    fun env pinned _ => h.drain_keeps_alive env pinned⟩⟩

/-- Two keys with one value, of which one is overwritten. When the callers have let go and retention
is given up, the first value is gone under the key that still had it. -/
theorem found_after_release :
    0 < 2 ∧ ∃ c₀ : Custody Nat (Table Nat Handle),
      start ⟨0, 2⟩ (Table.named "users") = .ok c₀ ∧
        let c := c₀.run ([.make "a", .make "b", .write 1 ⟨0, "a"⟩, .write 2 ⟨0, "a"⟩,
          .write 1 ⟨1, "b"⟩, .drop ⟨0, "a"⟩, .read 2 false, .shrink 0].map (Visit.asListed, ·))
        (c.step .asListed (.read 1 false)).past.head? =
          some (.read 1 false, .found (some ⟨1, "b"⟩)) ∧
        (c.step .asListed (.read 2 false)).past.head? = some (.read 2 false, .found none) := by
  have hcap : 0 < (⟨0, 2⟩ : SoftSettings).softCapacity := by decide
  obtain ⟨c₀, hstart, h⟩ := found_eq_written_alive (κ := Nat) hcap "users"
  refine ⟨hcap, c₀, hstart, ?_⟩
  obtain ⟨-, h⟩ := h ([.make "a", .make "b", .write 1 ⟨0, "a"⟩, .write 2 ⟨0, "a"⟩,
    .write 1 ⟨1, "b"⟩, .drop ⟨0, "a"⟩, .read 2 false, .shrink 0].map (Visit.asListed, ·))
  dsimp only
  rw [(h 1).1, (h 2).1]
  cases Except.ok.inj hstart
  exact ⟨rfl, rfl⟩

end Custody

end SoftTier
