import SoftTier.Proofs.Soft.Persistence

/-!
# Lookups are never stale

After a failed write the reclaimer can follow one value under a key while the entry below is for
another, and it can follow none while the entry is still there. So the reclaimer is no witness for
what a lookup finds. The entries are: whichever calls fail, an entry refers to the value that was
written last under its key, since an act that does not leave an entry under the key can only take it
out. And a lookup gives nothing but what an entry refers to.

- `Custody.written_eq_some`: the value on record for a key is that of the last write that was done,
  with nothing done to the key after it.
- `Custody.Fresh`: every entry refers to the value on record for its key.
- `Custody.fresh_step`, `Custody.fresh_run`: no act changes that.
- `Custody.reads_are_fresh`: what a lookup finds is the value written last, whatever fails.
-/

namespace SoftTier

namespace Custody

section Record

variable {κ : Type} [DecidableEq κ] {k : κ} {v : Value}

/-- An entry with a value is left by a write of the value. -/
theorem Act.eq_write_of_leaves {act : Act κ} {answer : Answer} {entry : Option (Option Handle)}
    (hleaves : act.leaves k answer = some entry) (hv : entry.join.bind (·.target) = some v) :
    act = .write k v ∧ answer = .done := by
  cases act with
  | write k' w =>
    cases answer with
    | done =>
      rw [Act.leaves] at hleaves
      split at hleaves
      · rename_i heq
        cases hleaves
        cases hv
        exact ⟨heq ▸ rfl, rfl⟩
      · exact absurd hleaves (by simp)
    | _ => exact absurd hleaves (by simp [Act.leaves])
  | writeMiss k' =>
    cases answer with
    | done =>
      rw [Act.leaves] at hleaves
      split at hleaves
      · cases hleaves
        exact absurd hv (by simp [Handle.dead])
      · exact absurd hleaves (by simp)
    | _ => exact absurd hleaves (by simp [Act.leaves])
  | erase k' hold =>
    cases answer with
    | found w =>
      rw [Act.leaves] at hleaves
      split at hleaves
      · cases hleaves
        exact absurd hv (by simp)
      · exact absurd hleaves (by simp)
    | _ => exact absurd hleaves (by simp [Act.leaves])
  | clear =>
    cases answer with
    | done =>
      cases hleaves
      exact absurd hv (by simp)
    | _ => exact absurd hleaves (by simp [Act.leaves])
  | _ => exact absurd hleaves (by simp [Act.leaves])

/-- The value on record for a key was written there, and nothing that was done since was asked to
leave anything else. -/
theorem written_eq_some {past : Record κ} (h : written k past = some v) :
    ∃ later earlier, past = later ++ (.write k v, .done) :: earlier ∧
      ∀ act answer, (act, answer) ∈ later → act.leaves k answer = none := by
  induction past with
  | nil => exact absurd h (by simp [written])
  | cons e past ih =>
    obtain ⟨act, answer⟩ := e
    rw [written_cons] at h
    cases hleaves : act.leaves k answer with
    | some entry =>
      rw [hleaves] at h
      obtain ⟨rfl, rfl⟩ := Act.eq_write_of_leaves hleaves h
      exact ⟨[], past, rfl, fun act answer hmem => absurd hmem List.not_mem_nil⟩
    | none =>
      rw [hleaves] at h
      obtain ⟨later, earlier, rfl, hlater⟩ := ih h
      refine ⟨(act, answer) :: later, earlier, rfl, fun act' answer' hmem => ?_⟩
      rcases List.mem_cons.mp hmem with heq | hmem
      · cases heq
        exact hleaves
      · exact hlater act' answer' hmem

end Record

variable {κ : Type} [DecidableEq κ] [Ord κ] [Std.TransOrd κ]
  {c : Custody κ (Probe κ Handle)}

/-- Every entry refers to the value written last under its key. The reclaimer has no part in it. -/
def Fresh (c : Custody κ (Probe κ Handle)) : Prop :=
  ∀ k v, c.layer.below.table.entries[k]? = some (some (.ofValue v)) → written k c.past = some v

theorem fresh_start {settings : SoftSettings} {name : String} {blocking lockable : Bool}
    {faults : Faults κ} (h : start settings (Probe.named name blocking lockable faults) = .ok c) :
    c.Fresh := by
  obtain ⟨r, -, -, -, rfl⟩ := eq_of_start h
  intro k v hentry
  have hempty : (Probe.named name blocking lockable faults : Probe κ Handle).table.entries[k]? =
      none := Std.ExtTreeMap.getElem?_empty
  exact absurd (hempty.symm.trans hentry) (by simp)

/-- A lookup that finds a value leaves it on record that it did, and found it in the entry. -/
theorem entry_of_read_found {visit : Visit} {k : κ} {hold : Bool} {v : Value}
    (h : (c.step visit (.read k hold)).past = (.read k hold, .found (some v)) :: c.past) :
    c.layer.below.table.entries[k]? = some (some (.ofValue v)) := by
  obtain ⟨r, layer, hends, heq⟩ := performFinding_leaves (.read k hold) hold
    (Soft.read_leaves (c.around visit) c.layer k)
  rw [step, heq] at h
  cases hends with
  | refused e _ => exact absurd (List.cons.inj h).1 (by simp)
  | absent _ _ => exact absurd (List.cons.inj h).1 (by simp)
  | live hval hup _ =>
    have hanswer := (List.cons.inj h).1
    cases hanswer
    exact Table.getElem?_of_value? hval (Handle.upgrade_eq_some_iff.mp hup).1
  | dead _ _ hends =>
    -- with the entry taken out, or with that refused, there is no value to find
    rcases hends with ⟨⟨e, rfl⟩, -⟩ | ⟨rfl, -⟩
    · exact absurd (List.cons.inj h).1 (by simp)
    · exact absurd (List.cons.inj h).1 (by simp)

variable [Std.LawfulEqOrd κ]

/-- An act leaves the entry that goes on record, or leaves the entry and the record as they are, or
takes the entry out. -/
theorem fresh_step (h : c.Fresh) (hsound : c.layer.reclaimer.Sound) (visit : Visit) (act : Act κ) :
    (c.step visit act).Fresh := by
  rcases step_moved hsound visit act with heq | ⟨answer, hmoved⟩
  · rw [heq]
    exact h
  intro k v hentry
  rw [hmoved.past_eq, written_cons]
  cases hleaves : act.leaves k answer with
  | some entry =>
    have hleft := (hmoved.asked k entry hleaves).symm.trans hentry
    subst hleft
    rfl
  | none =>
    rcases hmoved.spared k hleaves with hsame | ⟨hout, -⟩
    · exact h k v (hsame.symm.trans hentry)
    · exact absurd (hout.symm.trans hentry) (by simp)

theorem fresh_run (hsafe : c.Safe) (h : c.Fresh) (acts : List (Visit × Act κ)) :
    (c.run acts).Fresh := by
  induction acts generalizing c with
  | nil => exact h
  | cons a acts ih => exact ih (safe_step hsafe a.1 a.2) (fresh_step h hsafe.sound a.1 a.2)

/-- **A lookup never finds a stale value.** Whatever callers do with a soft layer over a store whose
calls fail in any pattern, a value that a lookup then finds under a key is the very one of the last
write of the key that was done, and no write, miss or removal of the key and no clear was done after
it. -/
theorem reads_are_fresh {settings : SoftSettings} (hcap : 0 < settings.softCapacity)
    (name : String) (blocking lockable : Bool) (faults : Faults κ) :
    ∃ c₀ : Custody κ (Probe κ Handle),
      start settings (Probe.named name blocking lockable faults) = .ok c₀ ∧
        ∀ (acts : List (Visit × Act κ)) (visit : Visit) (k : κ) (hold : Bool) (v : Value),
          let c := c₀.run acts
          (c.step visit (.read k hold)).past = (.read k hold, .found (some v)) :: c.past →
            ∃ later earlier, c.past = later ++ (.write k v, .done) :: earlier ∧
              (∀ w, (.write k w, .done) ∉ later) ∧ (.writeMiss k, .done) ∉ later ∧
              (∀ hold w, (.erase k hold, .found w) ∉ later) ∧ (.clear, .done) ∉ later := by
  obtain ⟨c₀, hstart, -⟩ := start_eq (κ := κ) hcap
    (Probe.named name blocking lockable faults : Probe κ Handle)
  refine ⟨c₀, hstart, fun acts visit k hold v => ?_⟩
  intro c hfound
  have hfresh : c.Fresh := fresh_run (safe_start hstart) (fresh_start hstart) acts
  obtain ⟨later, earlier, hpast, hlater⟩ :=
    written_eq_some (hfresh k v (entry_of_read_found hfound))
  refine ⟨later, earlier, hpast, fun w hmem => ?_, fun hmem => ?_, fun hold w hmem => ?_,
    fun hmem => ?_⟩
  · exact absurd (hlater _ _ hmem) (by simp [Act.leaves])
  · exact absurd (hlater _ _ hmem) (by simp [Act.leaves])
  · exact absurd (hlater _ _ hmem) (by simp [Act.leaves])
  · exact absurd (hlater _ _ hmem) (by simp [Act.leaves])

/-- The second write fails when the reclaimer already retains its value. The lookup finds the first
value, which its writer still holds, and not the one that is retained. -/
theorem read_after_failed_write :
    let a : Value := ⟨0, "a"⟩
    let b : Value := ⟨1, "b"⟩
    let faults : Faults Nat := fun n _ => if n = 1 then some (.backend "down") else none
    0 < 1 ∧ ∃ c₀ : Custody Nat (Probe Nat Handle),
      start ⟨0, 1⟩ (Probe.named "users" false false faults) = .ok c₀ ∧
        let c := c₀.run ([.make "a", .write 1 a, .make "b", .write 1 b].map (Visit.asListed, ·))
        c.layer.reclaimer.kept = [(1, b)] ∧
          (c.step .asListed (.read 1 false)).past = (.read 1 false, .found (some a)) :: c.past ∧
          ∃ later earlier, c.past = later ++ (.write 1 a, .done) :: earlier ∧
            ∀ w, (.write 1 w, .done) ∉ later := by
  intro a b faults
  have hcap : 0 < (⟨0, 1⟩ : SoftSettings).softCapacity := by decide
  obtain ⟨c₀, hstart, h⟩ := reads_are_fresh (κ := Nat) hcap "users" false false faults
  refine ⟨hcap, c₀, hstart, ?_⟩
  intro c
  have hfacts : c.layer.reclaimer.kept = [(1, b)] ∧
      (c.step .asListed (.read 1 false)).past = (.read 1 false, .found (some a)) :: c.past := by
    cases Except.ok.inj hstart
    exact ⟨by decide +kernel, by decide +kernel⟩
  obtain ⟨hkept, hfound⟩ := hfacts
  obtain ⟨later, earlier, hpast, hwrites, -⟩ := h _ .asListed 1 false a hfound
  exact ⟨hkept, hfound, later, earlier, hpast, hwrites⟩

end Custody

end SoftTier
