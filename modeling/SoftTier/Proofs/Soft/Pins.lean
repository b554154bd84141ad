import SoftTier.Proofs.Layers.Courses
import SoftTier.Proofs.Soft.Safety

/-!
# What is pinned

A lookup that finds a value pins it as the one read last and drops the oldest pins that do not fit
at that moment. A bound that is lowered drops nothing by itself, and one that is raised again brings
nothing back. So what is pinned is told from the values found since everything was last cleared, of
which it is always the latest so many. How many depends on all bounds that there have been.

Nothing is asked of the store below here: it may answer what it likes and fail when it likes.

- `Soft.drain_fixes_pins`, `Soft.read_pins`, `Soft.clear_pins`: what requests do to the pins.
- `Custody.hits`, `Custody.room`: the values found since the last clear and how many are to be
  pinned, told from the record.
- `Custody.Act.pins`, `Custody.step_pins`: what an act makes of the pins.
- `Custody.pinned_prefix_hits`: what is pinned after any acts, and what one more does to it.
-/

namespace SoftTier

namespace Soft

section Parts

variable {κ σ α : Type} [Ord κ]

/-- What is pinned, and how much is to be. -/
def pins (s : Soft κ σ) : List Value × Nat := (s.pinned, s.pinCapacity)

theorem tell_fixes_pins (f : Ambient → Reclaimer κ → α × Reclaimer κ) :
    (tell f : Op (Soft κ σ) α).Follows (.fixing pins) := fun _ _ => rfl

theorem onBelow_fixes_pins (x : Op σ α) : (onBelow x : Op (Soft κ σ) α).Follows (.fixing pins) :=
  fun _ _ => rfl

end Parts

variable {κ σ : Type} [DecidableEq κ] [Ord κ] [Std.TransOrd κ] [Store σ κ Handle]

theorem drain_fixes_pins : (drain : Op (Soft κ σ) Unit).Follows (.fixing pins) :=
  drain_follows_of tell_fixes_pins fun _ => onBelow_fixes_pins _

/-- A lookup pins what it finds, and nothing else. -/
theorem read_pins (env : Ambient) (s : Soft κ σ) (k : κ) :
    (Store.read k : Op (Soft κ σ) (Option Value)).Leaves env s fun r s' =>
      s'.pins = match r with
        | .ok (some v) => ((v :: s.pinned).take s.pinCapacity, s.pinCapacity)
        | _ => s.pins := by
  refine (onBelow_fixes_pins (Store.read k) env s).bind ?_ fun e s' hread => hread
  intro found s₁ hread
  cases found with
  | none => exact hread
  | some handle =>
    refine (ask_yields _).bind_leaves ?_
    generalize handle.upgrade _ = found
    cases found with
    | some v =>
      refine (refresh_yields k v).bind_leaves ((Op.yields_update (pin v)).bind_leaves ?_)
      obtain ⟨hpinned, hcapacity⟩ := Prod.mk.inj hread
      rw [← hpinned, ← hcapacity]
      exact (Op.yields_pure _).leaves rfl
    | none =>
      refine (tell_yields _).bind_leaves ((onBelow_fixes_pins _ env _).bind ?_ ?_)
      · intro _ s₂ herase
        exact herase.trans hread
      · intro e s₂ herase
        exact herase.trans hread

theorem size_fixes_pins : (Store.size : Op (Soft κ σ) Nat).Follows (.fixing pins) :=
  size_follows_of drain_fixes_pins (onBelow_fixes_pins _)

theorem write_fixes_pins (k : κ) (v : Value) :
    (Store.write k v : Op (Soft κ σ) Unit).Follows (.fixing pins) :=
  write_follows_of drain_fixes_pins (retain_follows_of (tell_fixes_pins _)) (onBelow_fixes_pins _)

theorem writeMiss_fixes_pins (k : κ) :
    (Store.writeMiss k : Op (Soft κ σ) Unit).Follows (.fixing pins) :=
  writeMiss_follows_of drain_fixes_pins (tell_fixes_pins _) (onBelow_fixes_pins _)

theorem erase_fixes_pins (k : κ) :
    (Store.erase k : Op (Soft κ σ) (Option Value)).Follows (.fixing pins) :=
  erase_follows_of drain_fixes_pins (onBelow_fixes_pins _) (tell_fixes_pins _)

/-- Everything is let go before anything can fail. -/
theorem clear_pins (env : Ambient) (s : Soft κ σ) :
    (Store.clear : Op (Soft κ σ) Unit).Leaves env s fun _ s' => s'.pins = ([], s.pinCapacity) := by
  have hrest : (do drain; tell fun _ r => ((), r.reset); onBelow Store.clear :
      Op (Soft κ σ) Unit).Follows (.fixing pins) :=
    drain_fixes_pins.bind fun _ => (tell_fixes_pins _).bind fun _ => onBelow_fixes_pins _
  exact (Op.yields_update _).bind_leaves (hrest env _)

end Soft

namespace Custody

/-! ## Told from the record -/

section Record

variable {κ : Type}

/-- The values that lookups have found since everything was last cleared, or was to be, the last one
first. -/
def hits : Record κ → List Value
  | [] => []
  | (.read _ _, .found (some v)) :: past => v :: hits past
  | (.clear, _) :: _ => []
  | _ :: past => hits past

/-- How many values are to be pinned: the number last said, or the one given at the start. -/
def room (initial : Nat) : Record κ → Nat
  | [] => initial
  | (.setPinCapacity n, _) :: _ => n
  | _ :: past => room initial past

/-- What an act makes of the pins and their bound, by its answer. -/
def Act.pins (answer : Answer) (pins : List Value × Nat) : Act κ → List Value × Nat
  | .read _ _ =>
    match answer with
    | .found (some v) => ((v :: pins.1).take pins.2, pins.2)
    | _ => pins
  | .clear => ([], pins.2)
  | .setPinCapacity n => (pins.1, n)
  | _ => pins

/-- Whatever an act makes of the pins, they are the latest of the values found. -/
theorem Act.pins_prefix_hits {initial : Nat} (pins : List Value × Nat) {past : Record κ}
    (hpins : pins.1 <+: hits past) (hroom : pins.2 = room initial past) (act : Act κ)
    (answer : Answer) :
    (act.pins answer pins).1 <+: hits ((act, answer) :: past) ∧
      (act.pins answer pins).2 = room initial ((act, answer) :: past) := by
  cases act with
  | read k hold =>
    cases answer with
    | found v =>
      cases v with
      | none => exact ⟨hpins, hroom⟩
      | some v =>
        exact ⟨(List.take_prefix ..).trans (List.cons_prefix_cons.mpr ⟨rfl, hpins⟩), hroom⟩
    | _ => exact ⟨hpins, hroom⟩
  | clear => exact ⟨List.prefix_rfl, hroom⟩
  | setPinCapacity n => exact ⟨hpins, rfl⟩
  | _ => exact ⟨hpins, hroom⟩

/-- Only a clear and a lookup that finds a value change what is pinned. -/
theorem Act.pins_fst_eq {act : Act κ} {answer : Answer} (pins : List Value × Nat)
    (hclear : act ≠ .clear) (hfound : ∀ k hold v, (act, answer) ≠ (.read k hold, .found (some v))) :
    (act.pins answer pins).1 = pins.1 := by
  cases act with
  | read k hold =>
    cases answer with
    | found v =>
      cases v with
      | none => rfl
      | some v => exact absurd rfl (hfound k hold v)
    | _ => rfl
  | clear => exact absurd rfl hclear
  | _ => rfl

end Record

/-! ## Acts -/

section Performing

variable {κ σ : Type} [Ord κ] {c : Custody κ σ} {visit : Visit}

theorem perform_pins {α : Type} (act : Act κ) (reply : α → Answer) {x : Op (Soft κ σ) α}
    {p : List Value × Nat} (hx : x.Leaves (c.around visit) c.layer fun _ s' => s'.pins = p) :
    ∃ answer, (c.perform visit act reply x).past = (act, answer) :: c.past ∧
      (c.perform visit act reply x).layer.pins = p := by
  obtain ⟨r, layer, hpins, heq⟩ := perform_leaves act reply hx
  rw [heq]
  exact ⟨_, rfl, hpins⟩

end Performing

variable {κ σ : Type} [DecidableEq κ] [Ord κ] [Std.TransOrd κ] [Store σ κ Handle]

/-- What an act that is not left undone makes of the pins. -/
theorem step_pins (c : Custody κ σ) (visit : Visit) (act : Act κ) :
    c.step visit act = c ∨ ∃ answer, (c.step visit act).past = (act, answer) :: c.past ∧
      (c.step visit act).layer.pins = act.pins answer c.layer.pins := by
  cases act with
  | make text => exact .inr ⟨_, rfl, rfl⟩
  | keep v =>
    rw [step]
    split
    · exact .inr ⟨_, rfl, rfl⟩
    · exact .inl rfl
  | drop v => exact .inr ⟨_, rfl, rfl⟩
  | write k v =>
    rw [step]
    split
    · exact .inr (perform_pins (.write k v) _ (Soft.write_fixes_pins k v _ _))
    · exact .inl rfl
  | writeMiss k => exact .inr (perform_pins (.writeMiss k) _ (Soft.writeMiss_fixes_pins k _ _))
  | read k hold =>
    obtain ⟨r, layer, hpins, heq⟩ := performFinding_leaves (.read k hold) hold
      (Soft.read_pins (c.around visit) c.layer k)
    rw [step, heq]
    cases r with
    | error e => exact .inr ⟨_, rfl, hpins⟩
    | ok found =>
      cases found with
      | none => exact .inr ⟨_, rfl, hpins⟩
      | some v => exact .inr ⟨_, rfl, hpins⟩
  | erase k hold =>
    obtain ⟨r, layer, hpins, heq⟩ := performFinding_leaves (.erase k hold) hold
      (Soft.erase_fixes_pins k (c.around visit) c.layer)
    rw [step, heq]
    cases r with
    | error e => exact .inr ⟨_, rfl, hpins⟩
    | ok found => exact .inr ⟨_, rfl, hpins⟩
  | clear => exact .inr (perform_pins .clear _ (Soft.clear_pins ..))
  | size => exact .inr (perform_pins .size _ (Soft.size_fixes_pins _ _))
  | setPinCapacity n => exact .inr ⟨_, rfl, rfl⟩
  | sweep =>
    exact .inr (perform_pins .sweep _ (Soft.sweeping_follows_of (Soft.tell_fixes_pins _) _ _))
  | shrink n =>
    exact .inr (perform_pins (.shrink n) _ (Soft.sweeping_follows_of (Soft.tell_fixes_pins _) _ _))
  | setCapacity n =>
    exact .inr (perform_pins (.setCapacity n) _
      (Soft.setCapacity_follows_of n Soft.tell_fixes_pins _ _))

/-- The pins are the latest of the values found, and their bound is the one last set. -/
structure Latest (initial : Nat) (c : Custody κ σ) : Prop where
  pinned_prefix : c.layer.pinned <+: hits c.past
  capacity_eq : c.layer.pinCapacity = room initial c.past

theorem latest_step {initial : Nat} {c : Custody κ σ} (h : c.Latest initial) (visit : Visit)
    (act : Act κ) : (c.step visit act).Latest initial := by
  rcases step_pins c visit act with heq | ⟨answer, hpast, hpins⟩
  · rw [heq]
    exact h
  · obtain ⟨hpinned, hcapacity⟩ := Prod.mk.inj hpins
    have hlaw := Act.pins_prefix_hits c.layer.pins h.pinned_prefix h.capacity_eq act answer
    rw [← hpast] at hlaw
    exact ⟨hpinned ▸ hlaw.1, hcapacity ▸ hlaw.2⟩

theorem latest_run {initial : Nat} {c : Custody κ σ} (h : c.Latest initial)
    (acts : List (Visit × Act κ)) : (c.run acts).Latest initial := by
  induction acts generalizing c with
  | nil => exact h
  | cons a acts ih => exact ih (latest_step h a.1 a.2)

/-- **The pins are the values found last.** Whatever callers do with a soft layer, how often they
change the number of values to be pinned and whatever the store below answers or fails to: the pins,
the latest first, are the first so many of the values that lookups have found since everything was
last cleared. A lookup that finds a value leaves one more of them than before, or as many as are to
be pinned. A clear leaves none, even if it then fails. Nothing else changes them. -/
theorem pinned_prefix_hits {settings : SoftSettings} (hcap : 0 < settings.softCapacity)
    (below : σ) : ∃ c₀ : Custody κ σ, start settings below = .ok c₀ ∧ ∀ acts : List (Visit × Act κ),
      let c := c₀.run acts
      c.layer.pinned <+: hits c.past ∧ c.layer.pinCapacity = room settings.pinCapacity c.past ∧
        (∀ visit k hold v,
          (c.step visit (.read k hold)).past = (.read k hold, .found (some v)) :: c.past →
            (c.step visit (.read k hold)).layer.pinned =
                (v :: c.layer.pinned).take c.layer.pinCapacity ∧
              (c.step visit (.read k hold)).layer.pinned.length =
                min (c.layer.pinned.length + 1) c.layer.pinCapacity) ∧
        (∀ visit, (c.step visit .clear).layer.pinned = []) ∧
        ∀ visit act, act ≠ .clear →
          (∀ k hold v, (c.step visit act).past ≠ (.read k hold, .found (some v)) :: c.past) →
            (c.step visit act).layer.pinned = c.layer.pinned := by
  obtain ⟨c₀, hstart, -⟩ := start_eq (κ := κ) hcap below
  obtain ⟨r, -, -, -, heq⟩ := eq_of_start hstart
  have hlatest : c₀.Latest settings.pinCapacity := heq ▸ ⟨List.prefix_rfl, rfl⟩
  refine ⟨c₀, hstart, fun acts => ?_⟩
  intro c
  have h : c.Latest settings.pinCapacity := latest_run hlatest acts
  refine ⟨h.pinned_prefix, h.capacity_eq, fun visit k hold v hfound => ?_, fun visit => ?_,
    fun visit act hclear hother => ?_⟩
  · rcases step_pins c visit (.read k hold) with heq | ⟨answer, hpast, hpins⟩
    · rw [heq] at hfound
      exact absurd hfound.symm (List.cons_ne_self _ _)
    · cases (List.cons.inj (hpast.symm.trans hfound)).1
      have hpinned : (c.step visit (.read k hold)).layer.pinned =
          (v :: c.layer.pinned).take c.layer.pinCapacity := (Prod.mk.inj hpins).1
      rw [hpinned, List.length_take, List.length_cons, Nat.min_comm]
      exact ⟨rfl, rfl⟩
  · have hcleared : ∃ answer, (c.step visit .clear).past = (.clear, answer) :: c.past ∧
        (c.step visit .clear).layer.pins = ([], c.layer.pinCapacity) :=
      perform_pins .clear _ (Soft.clear_pins ..)
    obtain ⟨answer, -, hpins⟩ := hcleared
    exact (Prod.mk.inj hpins).1
  · rcases step_pins c visit act with heq | ⟨answer, hpast, hpins⟩
    · rw [heq]
    · have hfound : ∀ k hold v, (act, answer) ≠ (.read k hold, .found (some v)) := by
        intro k hold v heq
        exact hother k hold v (heq ▸ hpast)
      exact (congrArg Prod.fst hpins).trans (Act.pins_fst_eq _ hclear hfound)

/-- Three pins become one with the first lookup after the bound was lowered, and two with the first
after it was raised again. The clear fails at the store below, but the pins are gone. -/
theorem pins_after_bounds :
    let a : Value := ⟨0, "a"⟩
    let faults : Faults Nat := fun _ c => if c = .clear then some (.backend "down") else none
    0 < 4 ∧ ∃ c₀ : Custody Nat (Probe Nat Handle),
      start ⟨3, 4⟩ (Probe.named "users" false false faults) = .ok c₀ ∧
        let read : Act Nat := .read 1 false
        let c := c₀.run ([.make "a", .write 1 a, read, read, read, .setPinCapacity 1, read,
          .setPinCapacity 3, read].map (Visit.asListed, ·))
        hits c.past = [a, a, a, a, a] ∧ c.layer.pinned = [a, a] ∧ c.layer.pinned <+: hits c.past ∧
          (c.step .asListed .clear).past =
            (.clear, .failed (.failure (.backend "down"))) :: c.past ∧
          (c.step .asListed .clear).layer.pinned = [] := by
  intro a faults
  have hcap : 0 < (⟨3, 4⟩ : SoftSettings).softCapacity := by decide
  obtain ⟨c₀, hstart, h⟩ := pinned_prefix_hits (κ := Nat) hcap
    (Probe.named "users" false false faults : Probe Nat Handle)
  refine ⟨hcap, c₀, hstart, ?_⟩
  intro read c
  obtain ⟨hlatest, -, -, hclear, -⟩ := h ([.make "a", .write 1 a, read, read, read,
    .setPinCapacity 1, read, .setPinCapacity 3, read].map (Visit.asListed, ·))
  have hfacts : hits c.past = [a, a, a, a, a] ∧ c.layer.pinned = [a, a] ∧
      (c.step .asListed .clear).past =
        (.clear, .failed (.failure (.backend "down"))) :: c.past := by
    cases Except.ok.inj hstart
    exact ⟨by decide +kernel, by decide +kernel, by decide +kernel⟩
  obtain ⟨hhits, hpinned, hpast⟩ := hfacts
  exact ⟨hhits, hpinned, hlatest, hpast, hclear .asListed⟩

end Custody

end SoftTier
