import SoftTier.Proofs.Soft.Safety

/-!
# What a write that fails leaves of the content

A soft layer tells its reclaimer of a write before it asks the store below, and lets the pins go
before it clears. If the store then fails, the entries are those from before, but what kept their
values alive may be gone. So a lookup afterwards finds what it would have found, as long as a
reference is left, and the references that can be gone are known for each kind of write.

- `Custody.healed`: the store below answers again.
- `Custody.givesUp`: the references that a write lets go of even if it fails.
- `Custody.HandsOut`: the keys whose entries a write has taken out before it does anything else.
- `Custody.Spared`: what a write that failed leaves of entries and references.
- `Custody.failed_write_content`: what a lookup finds after a write that failed.
-/

namespace SoftTier

namespace Custody

variable {κ : Type} [Ord κ]

/-- Whether the act is a request that writes. -/
def Act.writes : Act κ → Bool
  | .write .. | .writeMiss _ | .erase .. | .clear => true
  | _ => false

/-- The store below answers every call from here on. -/
def healed (c : Custody κ (Probe κ Handle)) : Custody κ (Probe κ Handle) :=
  { c with layer := { c.layer with below := { c.layer.below with faults := .never } } }

/-- The values that a write lets go of, whether or not it is done: a write, of what is retained
under its key, or for a new key, when retention is full, of what was used longest ago; a miss, of
what is retained under its key; a clear, of all pins and all retention. -/
def givesUp (c : Custody κ (Probe κ Handle)) : Act κ → Value → Prop
  | .write k _, v => (k, v) ∈ c.layer.reclaimer.kept ∨
      k ∉ c.layer.reclaimer.kept.keys ∧
        c.layer.reclaimer.kept.length = c.layer.reclaimer.softCapacity ∧
        ∃ k', c.layer.reclaimer.kept.getLast? = some (k', v)
  | .writeMiss k, v => (k, v) ∈ c.layer.reclaimer.kept
  | .clear, v => v ∈ c.layer.pinned ∨ keeps c.layer.reclaimer v = true
  | _, _ => False

/-- What is kept outside the layer while a write takes posted keys out. The caller holds the value
that is written, and a clear has let the pins go by then. -/
def whileDraining (visit : Visit) (c : Custody κ (Probe κ Handle)) : Act κ → Ambient
  | .write _ v => ((c.around visit).also v).also c.layer.pinned
  | .clear => (c.around visit).also ([] : List Value)
  | _ => (c.around visit).also c.layer.pinned

variable [DecidableEq κ] [Std.TransOrd κ]

/-- A write is to have the entry of the key taken out before it does what it is for: the key is
posted, and no live value is followed under it. -/
structure HandsOut (visit : Visit) (act : Act κ) (c : Custody κ (Probe κ Handle)) (k : κ) :
    Prop where
  posted : k ∈ c.layer.reclaimer.posted
  dead : c.layer.reclaimer.hasLive (c.whileDraining visit act) k = false

/-- A write of `b` failed and its key is posted, but a lookup has found `a` there since, which is
followed again. Not even a clear, which lets the pins go first, has the entry taken out. -/
example :
    let b : Value := ⟨1, "b"⟩
    let faults : Faults Nat := fun n _ => if n = 1 then some (.backend "put failed") else none
    ∃ c₀ : Custody Nat (Probe Nat Handle),
      start ⟨0, 1⟩ (Probe.named "users" false false faults) = .ok c₀ ∧
        let c := c₀.run ([.make "a", .write 1 ⟨0, "a"⟩, .make "b", .write 1 b, .drop b, .shrink 0,
          .read 1 false].map (Visit.asListed, ·))
        unsettled 1 c.past = true ∧ 1 ∈ c.layer.reclaimer.posted ∧ ¬c.HandsOut .asListed .clear 1 :=
  ⟨_, rfl, by decide +kernel, by decide +kernel, fun h => absurd h.dead (by decide +kernel)⟩

/-- What a write that failed leaves. Keys may have been handed out and some values let go of; apart
from that entries and references are as before. -/
structure Spared (visit : Visit) (act : Act κ) (c c' : Custody κ (Probe κ Handle)) : Prop where
  entry_cases : ∀ k, c'.layer.below.table.entries[k]? = c.layer.below.table.entries[k]? ∨
    c'.layer.below.table.entries[k]? = none ∧ c.HandsOut visit act k
  alive_of_alive : ∀ v, c'.alive v = true → c.alive v = true
  alive_or_gone : ∀ v, c.alive v = true → c'.alive v = true ∨ c.givesUp act v

variable {c c' : Custody κ (Probe κ Handle)} {visit : Visit} {act : Act κ}

/-! ## Lookups when the store answers -/

/-- A lookup finds what the entry gives. -/
theorem healed_read_record (c : Custody κ (Probe κ Handle)) (visit : Visit) (k : κ) (hold : Bool) :
    (c.healed.step visit (.read k hold)).past =
      (.read k hold, .found ((c.layer.below.table.value? k).bind (·.upgrade c.alive))) ::
        c.past := by
  obtain ⟨r, layer, hr, heq⟩ := performFinding_leaves (.read k hold) hold
    (Soft.read_result (c.healed.around visit) (s := c.healed.layer) rfl k)
  rw [step, heq, hr]
  rfl

/-- A value that is read is alive. -/
theorem alive_of_upgrade {o : Option Handle} {alive : Value → Bool} {v : Value}
    (h : o.bind (·.upgrade alive) = some v) : alive v = true := by
  obtain ⟨handle, -, hup⟩ := Option.bind_eq_some_iff.mp h
  exact (Handle.upgrade_eq_some_iff.mp hup).2

/-- What an entry gives when fewer values are alive. -/
theorem upgrade_filter {alive alive' : Value → Bool} (hle : ∀ v, alive' v = true → alive v = true)
    (o : Option Handle) :
    (o.bind (·.upgrade alive)).filter alive' = o.bind (·.upgrade alive') := by
  refine Option.ext fun v => ?_
  simp only [Option.filter_eq_some_iff, Option.bind_eq_some_iff, Handle.upgrade_eq_some_iff]
  constructor
  · rintro ⟨⟨handle, ho, htarget, -⟩, hv⟩
    exact ⟨handle, ho, htarget, hv⟩
  · rintro ⟨handle, ho, htarget, hv⟩
    exact ⟨⟨handle, ho, htarget, hle v hv⟩, hv⟩

/-! ## What failed writes leave -/

/-- What was drained before a write failed, and what else let go of values. -/
theorem spared_of_takes {env : Ambient} {s d : Soft κ (Probe κ Handle)}
    (h : Soft.Takes env s.reclaimer.posted s d) (hreclaimer : s.reclaimer = c.layer.reclaimer)
    (henv : env.also s.pinned = c.whileDraining visit act) (hbelow : s.below = c.layer.below)
    (htable : c'.layer.below.table = d.below.table) (hheld : c'.held = c.held)
    (hpinned : ∀ v ∈ c'.layer.pinned, v ∈ c.layer.pinned)
    (hunpinned : ∀ v ∈ c.layer.pinned, v ∈ c'.layer.pinned ∨ c.givesUp act v)
    (hkept : ∀ v, keeps c'.layer.reclaimer v = true → c.alive v = true)
    (hunkept : ∀ v, keeps c.layer.reclaimer v = true →
      keeps c'.layer.reclaimer v = true ∨ c.givesUp act v) : c.Spared visit act c' := by
  constructor
  · intro k
    rw [htable, ← hbelow]
    refine (h.entry_cases k).imp_right fun ⟨hnone, hmem, hlive⟩ => ⟨hnone, ?_, ?_⟩
    · exact hreclaimer ▸ hmem
    · rw [← henv, ← hreclaimer]
      exact hlive
  · intro v hv
    refine alive_of hv (fun hmem => alive_of_mem_held c (hheld ▸ hmem)) (fun hmem => ?_) (hkept v)
    exact alive_of_mem_pinned c (hpinned v hmem)
  · intro v hv
    rcases alive_iff.mp hv with hmem | hmem | hkeep
    · exact .inl (alive_of_mem_held c' (hheld ▸ hmem))
    · exact (hunpinned v hmem).imp_left (alive_of_mem_pinned c')
    · exact (hunkept v hkeep).imp_left (alive_of_keeps c')

/-- A write that leaves the pins alone. What it tells the reclaimer is told of the reclaimer as it
was drained, which follows what it followed before. -/
theorem spared_of_pinned {env : Ambient} {d : Soft κ (Probe κ Handle)} {r : Reclaimer κ}
    {p : Probe κ Handle} {past : Record κ}
    (h : Soft.Takes env c.layer.reclaimer.posted c.layer d)
    (henv : env.also c.layer.pinned = c.whileDraining visit act) (htable : p.table = d.below.table)
    (hkept : ∀ v, keeps r v = true → v ∈ c.held ∨ keeps d.reclaimer v = true)
    (hunkept : ∀ v, keeps d.reclaimer v = true → keeps r v = true ∨ c.givesUp act v) :
    c.Spared visit act { c with layer := { d with reclaimer := r, below := p }, past } := by
  refine spared_of_takes h rfl henv rfl htable rfl (fun v hv => h.pinned_eq ▸ hv)
    (fun v hv => .inl (h.pinned_eq.symm ▸ hv)) (fun v hv => ?_) (fun v hv => ?_)
  · rcases hkept v hv with hmem | hkeep
    · exact alive_of_mem_held c hmem
    · exact alive_of_keeps c ((h.keeps_eq v).symm.trans hkeep)
  · exact hunkept v ((h.keeps_eq v).trans hv)

/-- A write that was stopped before it had told the reclaimer anything. -/
theorem spared_of_stopped {env : Ambient} {d : Soft κ (Probe κ Handle)} {p : Probe κ Handle}
    {past : Record κ} (h : Soft.Takes env c.layer.reclaimer.posted c.layer d)
    (henv : env.also c.layer.pinned = c.whileDraining visit act)
    (htable : p.table = d.below.table) :
    c.Spared visit act { c with layer := { d with below := p }, past } :=
  spared_of_pinned h henv htable (fun _ hv => .inr hv) (fun _ hv => .inl hv)

/-- What a key reads as after a write that failed, unless the key was left unsettled by an earlier
one and is handed out by this one. -/
theorem Safe.read_after (h : c.Safe) (hs : c.Spared visit act c') {k : κ}
    (hk : unsettled k c.past = false ∨ ¬c.HandsOut visit act k) :
    (c'.layer.below.table.value? k).bind (·.upgrade c'.alive) =
      ((c.layer.below.table.value? k).bind (·.upgrade c.alive)).filter c'.alive := by
  rw [upgrade_filter hs.alive_of_alive, Table.value?, Table.value?]
  rcases hs.entry_cases k with heq | ⟨hnone, hout⟩
  · rw [heq]
  · -- the entry that a drain takes out is dead
    have ht := h.tidy k (hk.resolve_right fun hnot => hnot hout)
    rw [hnone]
    refine (Option.eq_none_iff_forall_ne_some.mpr fun v hv => ?_).symm
    obtain ⟨handle, hval, hup⟩ := Option.bind_eq_some_iff.mp hv
    obtain ⟨htarget, hv'⟩ := Handle.upgrade_eq_some_iff.mp hup
    have hdead := ht.dead hout.posted v (Table.getElem?_of_value? hval htarget)
    exact ne_true_of_eq_false hdead (hs.alive_of_alive v hv')

variable [Std.LawfulEqOrd κ]

/-- A removal tells the reclaimer only when the entry is out, so one that fails lets nothing go. -/
theorem failed_erase {fault : Fault} {k : κ} {hold : Bool}
    (hfail : (c.step visit (.erase k hold)).past = (.erase k hold, .failed fault) :: c.past) :
    c.Spared visit (.erase k hold) (c.step visit (.erase k hold)) := by
  obtain ⟨r, layer, hends, heq⟩ := performFinding_leaves (.erase k hold) hold
    (Soft.erase_leaves (c.around visit) c.layer k)
  rw [step, heq] at hfail ⊢
  cases hends with
  | stopped e htakes => exact spared_of_stopped htakes rfl rfl
  | refused e htakes hposted htable => exact spared_of_stopped htakes rfl htable
  | served htakes _ _ => exact absurd hfail (by simp)

namespace Safe

variable {fault : Fault}

theorem failed_write (h : c.Safe) {k : κ} {v : Value}
    (hfail : (c.step visit (.write k v)).past = (.write k v, .failed fault) :: c.past) :
    c.Spared visit (.write k v) (c.step visit (.write k v)) := by
  rw [step] at hfail ⊢
  split at hfail
  · rename_i hheld
    obtain ⟨r, layer, hends, heq⟩ := perform_leaves (.write k v) (fun _ => .done)
      (Soft.write_leaves (c.around visit) c.layer k v)
    rw [if_pos hheld]
    rw [heq] at hfail ⊢
    cases hends with
    | stopped e htakes => exact spared_of_stopped htakes rfl rfl
    | refused e htakes hposted htable =>
      rename_i d p
      have hd := (h.takes htakes).sound
      obtain ⟨-, dead, hs⟩ := Reclaimer.retain_settled hd
        (((c.around visit).also v).also d.pinned) k v
      refine spared_of_pinned htakes rfl htable (fun w hw => ?_) (fun w hw => ?_)
      · refine (hs.keeps_only w hw).imp_left ?_
        rintro rfl
        exact keeps_list_iff.mp hheld
      · refine (Reclaimer.keeps_retain hd _ hw).imp_right fun hgone => ?_
        obtain ⟨posted, -, hr⟩ := htakes.reclaimer_eq
        rw [hr] at hgone
        exact hgone
    | served htakes _ _ => exact absurd hfail (by simp)
  · exact absurd hfail (by simp)

theorem failed_writeMiss (h : c.Safe) {k : κ}
    (hfail : (c.step visit (.writeMiss k)).past = (.writeMiss k, .failed fault) :: c.past) :
    c.Spared visit (.writeMiss k) (c.step visit (.writeMiss k)) := by
  obtain ⟨r, layer, hends, heq⟩ := perform_leaves (.writeMiss k) (fun _ => .done)
    (Soft.writeMiss_leaves (c.around visit) c.layer k)
  rw [step, heq] at hfail ⊢
  cases hends with
  | stopped e htakes => exact spared_of_stopped htakes rfl rfl
  | refused e htakes hposted htable =>
    have hd := (h.takes htakes).sound
    have hs := Reclaimer.forget_settled hd .alone k
    refine spared_of_pinned htakes rfl htable (fun w hw => .inr (hs.keeps_only w hw))
      (fun w hw => ?_)
    refine (Reclaimer.keeps_forget hd hw).imp_right fun hgone => ?_
    obtain ⟨posted, -, hr⟩ := htakes.reclaimer_eq
    rw [hr] at hgone
    exact hgone
  | served htakes _ _ => exact absurd hfail (by simp)

/-- A clear lets go of all pins first, and then of all retention unless it was stopped. -/
theorem failed_clear (h : c.Safe)
    (hfail : (c.step visit .clear).past = (.clear, .failed fault) :: c.past) :
    c.Spared visit .clear (c.step visit .clear) := by
  obtain ⟨r, layer, hends, heq⟩ := perform_leaves .clear (fun _ => .done)
    (Soft.clear_leaves (c.around visit) c.layer)
  rw [step, heq] at hfail ⊢
  cases hends with
  | stopped e htakes =>
    refine spared_of_takes htakes rfl rfl rfl rfl rfl (fun v hv => ?_)
      (fun v hv => .inr (.inl hv)) (fun v hv => ?_) (fun v hv => .inr (.inr hv))
    · exact absurd (htakes.pinned_eq ▸ hv) List.not_mem_nil
    · have hkept : keeps layer.reclaimer v = true := hv
      obtain ⟨posted, -, hr⟩ := htakes.reclaimer_eq
      rw [hr] at hkept
      exact alive_of_keeps c hkept
  | refused e htakes hposted htable =>
    rename_i d p
    have hs := Reclaimer.reset_settled (htakes.sound h.sound) .alone
    refine spared_of_takes htakes rfl rfl rfl htable rfl (fun v hv => ?_)
      (fun v hv => .inr (.inl hv)) (fun v hv => absurd (hs.keeps_only v hv) not_false)
      (fun v hv => .inr (.inr hv))
    exact absurd (htakes.pinned_eq ▸ hv) List.not_mem_nil
  | served htakes _ _ => exact absurd hfail (by simp)

theorem failed (h : c.Safe) (hact : act.writes = true)
    (hfail : (c.step visit act).past = (act, .failed fault) :: c.past) :
    c.Spared visit act (c.step visit act) := by
  cases act with
  | write k v => exact h.failed_write hfail
  | writeMiss k => exact h.failed_writeMiss hfail
  | erase k hold => exact failed_erase hfail
  | clear => exact h.failed_clear hfail
  | _ => exact absurd hact (by simp [Act.writes])

end Safe

/-! ## After any acts -/

/-- **A write that fails takes nothing out but what nobody holds any more.** Whatever has been done
with a soft layer over a base store that may fail, when a write, a miss, a removal or a clear fails,
a lookup afterwards, once the store answers again, finds the very value that a lookup before would
have found, as long as a reference to it is left; and a value that was alive still is, but for those
that this kind of write lets go of. A removal lets go of none. (Left out are keys under which an
earlier write failed and whose entry this one has taken out first, as they are posted and no live
value is followed under them.) -/
theorem failed_write_content {settings : SoftSettings} (hcap : 0 < settings.softCapacity)
    (name : String) (blocking lockable : Bool) (faults : Faults κ) :
    ∃ c₀ : Custody κ (Probe κ Handle),
      start settings (Probe.named name blocking lockable faults) = .ok c₀ ∧
        ∀ (acts : List (Visit × Act κ)) (visit : Visit) (act : Act κ) (fault : Fault),
          let c := c₀.run acts
          let c' := c.step visit act
          act.writes = true → c'.past = (act, .failed fault) :: c.past →
            (∀ k, unsettled k c.past = false ∨ ¬c.HandsOut visit act k →
              ∃ found : Option Value, (∀ v, found = some v → c.alive v = true) ∧
                (∀ visit hold, (c.healed.step visit (.read k hold)).past =
                  (.read k hold, .found found) :: c.past) ∧
                ∀ visit hold, (c'.healed.step visit (.read k hold)).past =
                  (.read k hold, .found (found.filter c'.alive)) :: c'.past) ∧
            ∀ v, c.alive v = true → c'.alive v = true ∨ c.givesUp act v := by
  obtain ⟨c₀, hstart, -⟩ := start_eq (κ := κ) hcap
    (Probe.named name blocking lockable faults : Probe κ Handle)
  refine ⟨c₀, hstart, fun acts visit act fault => ?_⟩
  intro c c' hact hfail
  have h : c.Safe := safe_run (safe_start hstart) acts
  have hs : c.Spared visit act c' := h.failed hact hfail
  refine ⟨fun k hk => ?_, hs.alive_or_gone⟩
  refine ⟨(c.layer.below.table.value? k).bind (·.upgrade c.alive), fun v => alive_of_upgrade,
    fun visit hold => healed_read_record c visit k hold, fun visit hold => ?_⟩
  rw [← h.read_after hs hk]
  exact healed_read_record c' visit k hold

/-- A write of a new key fails when it has already pushed out the only value retained, which nobody
else holds. So that value is gone, and its key reads as nothing. -/
theorem failed_write_of_other_key :
    let a : Value := ⟨0, "a"⟩
    let b : Value := ⟨1, "b"⟩
    let faults : Faults Nat := fun n _ => if n = 1 then some (.backend "put failed") else none
    0 < 1 ∧ ∃ c₀ : Custody Nat (Probe Nat Handle),
      start ⟨0, 1⟩ (Probe.named "users" false false faults) = .ok c₀ ∧
        let c := c₀.run ([.make "a", .write 1 a, .drop a, .make "b"].map (Visit.asListed, ·))
        let c' := c.step .asListed (.write 2 b)
        (Act.write 2 b).writes = true ∧
          c'.past = (.write 2 b, .failed (.failure (.backend "put failed"))) :: c.past ∧
          (unsettled 1 c.past = false ∨ ¬c.HandsOut .asListed (.write 2 b) 1) ∧
          (c'.healed.step .asListed (.read 1 false)).past =
            (.read 1 false, .found none) :: c'.past := by
  intro a b faults
  have hcap : 0 < (⟨0, 1⟩ : SoftSettings).softCapacity := by decide
  obtain ⟨c₀, hstart, h⟩ := failed_write_content (κ := Nat) hcap "users" false false faults
  refine ⟨hcap, c₀, hstart, ?_⟩
  cases Except.ok.inj hstart
  obtain ⟨hread, -⟩ := h ([.make "a", .write 1 a, .drop a, .make "b"].map (Visit.asListed, ·))
    .asListed (.write 2 b) (.failure (.backend "put failed")) rfl rfl
  obtain ⟨found, hlive, hbefore, hafter⟩ := hread 1 (.inl rfl)
  refine ⟨rfl, rfl, .inl rfl, ?_⟩
  have hfound : some a = found :=
    Answer.found.inj (Prod.mk.inj (List.cons.inj (hbefore .asListed false)).1).2
  rw [hafter, ← hfound]
  decide +kernel

/-- The only value of a key is retained and held by nobody else. Each kind of write but a removal
loses it when it fails: another value or a miss for the key, a value for another key, a clear. -/
theorem failed_writes_lose_value :
    let a : Value := ⟨0, "a"⟩
    let b : Value := ⟨1, "b"⟩
    let faults : Faults Nat := fun n _ => if n = 1 then some (.backend "down") else none
    ∀ act ∈ [.write 1 b, .write 2 b, .writeMiss 1, .clear],
      ∃ c₀ : Custody Nat (Probe Nat Handle),
        start ⟨0, 1⟩ (Probe.named "users" false false faults) = .ok c₀ ∧
          let c := c₀.run ([.make "a", .write 1 a, .drop a, .make "b"].map (Visit.asListed, ·))
          let c' := c.step .asListed act
          c'.past = (act, .failed (.failure (.backend "down"))) :: c.past ∧
            (c.healed.step .asListed (.read 1 false)).past =
              (.read 1 false, .found (some a)) :: c.past ∧
            (c'.healed.step .asListed (.read 1 false)).past =
              (.read 1 false, .found none) :: c'.past := by
  intro a b faults act hact
  refine ⟨_, rfl, ?_⟩
  simp only [List.mem_cons, List.not_mem_nil, or_false] at hact
  rcases hact with rfl | rfl | rfl | rfl
  · exact ⟨by decide +kernel, by decide +kernel, by decide +kernel⟩
  · exact ⟨by decide +kernel, by decide +kernel, by decide +kernel⟩
  · exact ⟨by decide +kernel, by decide +kernel, by decide +kernel⟩
  · exact ⟨by decide +kernel, by decide +kernel, by decide +kernel⟩

end Custody

end SoftTier
