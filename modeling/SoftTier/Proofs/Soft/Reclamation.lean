import SoftTier.Proofs.Soft.FailedWrites
import SoftTier.Proofs.Soft.Partition
import SoftTier.Proofs.Soft.Tracing

/-!
# Which dead entries a failing store leaves behind

A sweep followed by a size takes the entries of dead values out, if the layer still accounts for
them. Calls that failed earlier can have left entries that it does not account for, and those stay
until their keys are used again. They are told by the calls on record: the last call that could have
changed the entry was one that failed.

- `Custody.Traced`: every entry is accounted for, unless its last change was refused.
- `Custody.traced_step`, `Custody.traced_run`: so it is after any acts.
- `Custody.unreclaimed_entries_refused`: what a sweep and a size leave behind when the store answers
  again.
- `Custody.failures_leave_dead_entries`: five requests that leave a dead entry when they fail.
-/

namespace SoftTier

namespace Custody

variable {κ : Type} [DecidableEq κ]

/-- What is unread under a key other than the one a request is about stays unread. -/
theorem mem_unread_filter {past : Record κ} {k : κ} (k' : κ) (hne : k ≠ k')
    (hk : k' ∈ unread past) : k' ∈ (unread past).filter (· ≠ k) :=
  List.mem_filter.mpr ⟨hk, decide_eq_true (Ne.symm hne)⟩

variable [Ord κ] [Std.TransOrd κ]

/-- Every entry is accounted for, unless its last change was refused or the key is exempt. -/
def Traced (faults : Faults κ) (exempt : κ → Prop) (c : Custody κ (Probe κ Handle)) : Prop :=
  Soft.Traced faults c.alive exempt (· ∈ unread c.past) c.layer

theorem traced_start {settings : SoftSettings} {name : String} {blocking lockable : Bool}
    {faults : Faults κ} {exempt : κ → Prop} {c : Custody κ (Probe κ Handle)}
    (h : start settings (Probe.named name blocking lockable faults) = .ok c) :
    c.Traced faults exempt := by
  obtain ⟨r, hsound, -, -, rfl⟩ := eq_of_start h
  exact { sound := hsound, faults_eq := rfl, count_eq := rfl,
          accounted := fun k _ _ => .absent Std.ExtTreeMap.getElem?_empty }

namespace Traced

variable {faults : Faults κ} {exempt : κ → Prop} {c : Custody κ (Probe κ Handle)}

theorem layer (h : c.Traced faults exempt) (visit : Visit) :
    Soft.Traced faults (c.layer.alive (c.around visit)) exempt (· ∈ unread c.past) c.layer := h

/-- Something that changes no entry and nothing in the reclaimer. A value that is alive for it was
alive before, if it is in an entry at all. -/
theorem of_alive (h : c.Traced faults exempt) {held pinned : List Value} {pinCapacity made : Nat}
    {past : Record κ}
    (halive : ∀ (k : κ) (v : Value),
      c.layer.below.table.entries[k]? = some (some (.ofValue v)) →
        Custody.alive { c with held, layer := { c.layer with pinned } } v = true →
          c.alive v = true)
    (hunread : ∀ k, k ∈ unread c.past → k ∈ unread past) :
    Traced faults exempt { c with
      layer := { c.layer with pinned, pinCapacity }
      held, made, past } :=
  { h with accounted := fun k hk hr => (h.accounted k hk hr).mono (halive k) fun _ => hunread k }

/-- After a sweep that is no part of a request. -/
theorem swept (h : c.Traced faults exempt) {visit : Visit} {r : Reclaimer κ} {dead : List κ}
    (hs : Reclaimer.Settled ((c.around visit).also c.layer.pinned) c.layer.reclaimer.posted
      c.layer.reclaimer.tracked (keeps c.layer.reclaimer · = true) r dead)
    {act : Act κ} {answer : Answer} (hpast : unread ((act, answer) :: c.past) = unread c.past) :
    Traced faults exempt { c with
      layer := { c.layer with reclaimer := r }
      past := (act, answer) :: c.past } := by
  refine Soft.Traced.settle h hs (fun _ _ v hv => hv) fun k hk hr => ?_
  refine (h.accounted k hk hr).mono (fun v _ hv => ?_) fun _ hu => hpast ▸ hu
  exact alive_of hv (alive_of_mem_held c) (alive_of_mem_pinned c)
    fun hkept => alive_of_keeps c (hs.keeps_only v hkept)

theorem sweep (h : c.Traced faults exempt) (visit : Visit) :
    (c.step visit .sweep).Traced faults exempt := by
  rw [step, perform_eq Soft.sweep_yields]
  have hs := Reclaimer.sweep_settled ((c.around visit).also c.layer.pinned) h.sound rfl
    (fun _ => rfl) fun _ hv => hv
  exact h.swept hs rfl

/-- The next value is in no entry yet. -/
theorem make (h : c.Traced faults exempt) (hsafe : c.Safe) (visit : Visit) (text : String) :
    (c.step visit (.make text)).Traced faults exempt := by
  refine h.of_alive (fun k v hentry hv => ?_) fun k hk => hk
  refine (alive_of_held_cons c hv rfl rfl).resolve_left ?_
  rintro rfl
  exact absurd (hsafe.entry_lt k _ hentry) (Nat.lt_irrefl _)

theorem keep (h : c.Traced faults exempt) (visit : Visit) (v : Value) :
    (c.step visit (.keep v)).Traced faults exempt := by
  rw [step]
  split
  · rename_i hheld
    refine h.of_alive (fun k w _ hw => ?_) fun k hk => hk
    rcases alive_of_held_cons c hw rfl rfl with rfl | hw
    · exact alive_of_mem_held c (keeps_list_iff.mp hheld)
    · exact hw
  · exact h

theorem drop (h : c.Traced faults exempt) (visit : Visit) (v : Value) :
    (c.step visit (.drop v)).Traced faults exempt := by
  refine h.of_alive (fun k w _ hw => ?_) fun k hk => hk
  exact alive_of hw (fun hmem => alive_of_mem_held c (List.mem_of_mem_erase hmem))
    (alive_of_mem_pinned c) (alive_of_keeps c)

/-- The calls made from now on refuse nothing, so what was refused before is exempt. -/
theorem healed (h : c.Traced faults fun _ => False) :
    c.healed.Traced .never fun k => faults.refused k c.layer.below.received = true :=
  { sound := h.sound, faults_eq := rfl, count_eq := h.count_eq,
    accounted := fun k hk _ => h.accounted k not_false (Bool.eq_false_iff.mpr hk) }

section Sweeps

variable [Std.LawfulEqOrd κ]

theorem shrink (h : c.Traced faults exempt) (visit : Visit) (n : Nat) :
    (c.step visit (.shrink n)).Traced faults exempt := by
  obtain ⟨dead, hs⟩ := Reclaimer.shrink_settled h.sound ((c.around visit).also c.layer.pinned) n
  rw [step, perform_eq (Soft.shrink_yields n)]
  exact h.swept hs rfl

theorem setCapacity (h : c.Traced faults exempt) (visit : Visit) (n : Nat) :
    (c.step visit (.setCapacity n)).Traced faults exempt := by
  rcases Nat.eq_zero_or_pos n with rfl | hn
  · rw [step, perform_eq (Soft.setCapacity_yields_error (Reclaimer.setCapacity_zero ..))]
    exact h.of_alive (fun _ _ _ hv => hv) fun k hk => hk
  · obtain ⟨p, dead, hset, hs⟩ := Reclaimer.setCapacity_settled h.sound
      ((c.around visit).also c.layer.pinned) hn
    rw [step, perform_eq (Soft.setCapacity_yields_ok hset)]
    exact h.swept hs rfl

end Sweeps

/-! ## Requests -/

/-- A request, be it done or failed, when its answer tells which misses are unread. -/
theorem of_perform {α : Type} {visit : Visit} {act : Act κ} {reply : α → Answer}
    {x : Op (Soft κ (Probe κ Handle)) α} {unread' : κ → Prop}
    (hx : x.Leaves (c.around visit) c.layer fun r s' =>
      Soft.Traced faults (s'.alive (c.around visit)) exempt
        (Soft.unreadAfter r (· ∈ unread c.past) unread') s')
    (hfailed : ∀ fault, unread ((act, .failed fault) :: c.past) = unread c.past)
    (hdone : ∀ a k, unread' k → k ∈ unread ((act, reply a) :: c.past)) :
    (c.perform visit act reply x).Traced faults exempt := by
  obtain ⟨r, layer, hends, heq⟩ := perform_leaves act reply hx
  rw [heq]
  cases r with
  | ok a => exact Soft.Traced.mono hends (fun _ _ _ hv => hv) fun k _ => hdone a k
  | error e => exact Soft.Traced.mono hends (fun _ _ _ hv => hv) fun k _ hk => hfailed _ ▸ hk

/-- A request that can find a value, which the caller may hold from then on. -/
theorem of_performFinding {visit : Visit} {act : Act κ} {hold : Bool}
    {x : Op (Soft κ (Probe κ Handle)) (Option Value)} {unread' : κ → Prop}
    (hx : x.Leaves (c.around visit) c.layer
      (Soft.Finds faults (c.around visit) exempt (· ∈ unread c.past) unread'))
    (hfailed : ∀ fault, unread ((act, .failed fault) :: c.past) = unread c.past)
    (hdone : ∀ found k, unread' k → k ∈ unread ((act, .found found) :: c.past)) :
    (c.performFinding visit act hold x).Traced faults exempt := by
  obtain ⟨r, layer, hends, heq⟩ := performFinding_leaves act hold hx
  rw [heq]
  cases r with
  | ok found =>
    refine Soft.Traced.mono hends (fun _ v _ hv => Soft.alive_finding.mpr ?_) fun k _ =>
      hdone found k
    rw [Soft.alive_iff]
    rcases alive_iff.mp hv with hmem | hv
    · exact (mem_held_found hmem).imp_right fun hmem => .inl (keeps_list_iff.mpr hmem)
    · exact .inr (.inr hv)
  | error e => exact Soft.Traced.mono hends (fun _ _ _ hv => hv) fun k _ hk => hfailed _ ▸ hk

variable [Std.LawfulEqOrd κ]

theorem size (h : c.Traced faults exempt) (visit : Visit) :
    (c.step visit .size).Traced faults exempt := by
  have hsize : (Store.size : Op (Soft κ (Probe κ Handle)) Nat).Leaves (c.around visit) c.layer
      fun r s' => Soft.Traced faults (s'.alive (c.around visit)) exempt
        (Soft.unreadAfter r (· ∈ unread c.past) (· ∈ unread c.past)) s' := by
    refine (Soft.size_traced (h.layer visit)).imp fun r s' hs' => ?_
    cases r with
    | ok n => exact hs'.1
    | error e => exact hs'.1
  exact of_perform hsize (fun _ => rfl) fun _ _ hk => hk

theorem write (h : c.Traced faults exempt) (visit : Visit) (k : κ) (v : Value) :
    (c.step visit (.write k v)).Traced faults exempt := by
  rw [step]
  split
  · rename_i hheld
    exact of_perform (Soft.write_traced hheld k mem_unread_filter h) (fun _ => rfl) fun _ _ hk => hk
  · exact h

theorem writeMiss (h : c.Traced faults exempt) (visit : Visit) (k : κ) :
    (c.step visit (.writeMiss k)).Traced faults exempt :=
  of_perform (Soft.writeMiss_traced k
    (fun k' hne hk' => List.mem_cons_of_mem k (mem_unread_filter k' hne hk')) List.mem_cons_self h)
    (fun _ => rfl) fun _ _ hk => hk

theorem clear (h : c.Traced faults exempt) (visit : Visit) :
    (c.step visit .clear).Traced faults exempt :=
  of_perform (Soft.clear_traced h) (fun _ => rfl) fun _ _ hk => hk

theorem read (h : c.Traced faults exempt) (visit : Visit) (k : κ) (hold : Bool) :
    (c.step visit (.read k hold)).Traced faults exempt :=
  of_performFinding (Soft.read_traced k mem_unread_filter h) (fun _ => rfl) fun _ _ hk => hk

theorem erase (h : c.Traced faults exempt) (visit : Visit) (k : κ) (hold : Bool) :
    (c.step visit (.erase k hold)).Traced faults exempt :=
  of_performFinding (Soft.erase_traced k mem_unread_filter h) (fun _ => rfl) fun _ _ hk => hk

end Traced

/-! ## Any acts -/

variable [Std.LawfulEqOrd κ] {faults : Faults κ} {exempt : κ → Prop}
  {c : Custody κ (Probe κ Handle)}

theorem traced_step (hsafe : c.Safe) (h : c.Traced faults exempt) (visit : Visit) (act : Act κ) :
    (c.step visit act).Traced faults exempt := by
  cases act with
  | make text => exact h.make hsafe visit text
  | keep v => exact h.keep visit v
  | drop v => exact h.drop visit v
  | write k v => exact h.write visit k v
  | writeMiss k => exact h.writeMiss visit k
  | read k hold => exact h.read visit k hold
  | erase k hold => exact h.erase visit k hold
  | clear => exact h.clear visit
  | size => exact h.size visit
  | setPinCapacity n => exact h.of_alive (fun _ _ _ hv => hv) fun k hk => hk
  | sweep => exact h.sweep visit
  | shrink n => exact h.shrink visit n
  | setCapacity n => exact h.setCapacity visit n

theorem traced_run (hsafe : c.Safe) (h : c.Traced faults exempt) (acts : List (Visit × Act κ)) :
    (c.run acts).Traced faults exempt := by
  induction acts generalizing c with
  | nil => exact h
  | cons a acts ih => exact ih (safe_step hsafe a.1 a.2) (traced_step hsafe h a.1 a.2)

/-! ## When the store answers again -/

namespace Traced

/-- A size of a store that answers takes every posted key off. -/
theorem size_served (h : c.Traced .never exempt) (visit : Visit) :
    (c.step visit .size).layer.reclaimer = { c.layer.reclaimer with posted := [] } ∧
      (∀ v, (c.step visit .size).alive v = c.alive v) ∧
      (c.step visit .size).past =
        (.size, .count (c.step visit .size).layer.below.table.entries.size) :: c.past := by
  obtain ⟨r, layer, ⟨⟨-, hgives⟩, hends⟩, heq⟩ := perform_leaves .size .count
    ((Soft.size_traced (h.layer visit)).and (Soft.size_leaves (c.around visit) c.layer))
  rw [step, heq]
  cases hends with
  | stopped e _ => exact absurd (hgives e rfl) (Faults.not_gives_never e)
  | refused e _ _ _ => exact absurd (hgives e rfl) (Faults.not_gives_never e)
  | served htakes hposted htable =>
    rename_i d p
    refine ⟨?_, fun v => alive_of_takes htakes v, ?_⟩
    · obtain ⟨posted, -, hr⟩ := htakes.reclaimer_eq
      have hnil : posted = [] := by
        rw [hr] at hposted
        exact hposted
      show d.reclaimer = _
      rw [hr, hnil]
    · show (Act.size, Answer.count d.below.table.entries.size) :: c.past =
        (Act.size, Answer.count p.table.entries.size) :: c.past
      rw [htable]
      rfl

/-- What a sweep and a size leave behind. -/
theorem entry_after_sweep (h : c.Traced faults fun _ => False) (visit visit' : Visit) {k : κ}
    {entry : Option Handle}
    (hk : ((c.healed.step visit .sweep).step visit' .size).layer.below.table.entries[k]? =
      some entry) :
    (∃ v, entry = some (.ofValue v) ∧
        ((c.healed.step visit .sweep).step visit' .size).alive v = true) ∨
      (entry = some .dead ∧ k ∈ unread ((c.healed.step visit .sweep).step visit' .size).past) ∨
        faults.refused k c.layer.below.received = true := by
  have hswept := h.healed.sweep visit
  have hsized := hswept.size visit'
  obtain ⟨hreclaimer, halive, -⟩ := hswept.size_served visit'
  by_cases hrefused : faults.refused k c.layer.below.received = true
  · exact .inr (.inr hrefused)
  have haccounted := hsized.accounted k hrefused (Faults.refused_never k _)
  rw [hreclaimer] at haccounted
  rcases haccounted.entry_cases List.not_mem_nil hk with ⟨v, rfl, hv⟩ | ⟨rfl, hunread⟩
  · -- a drain changes neither what is followed nor what is alive
    refine .inl ⟨v, rfl, (halive v).trans ?_⟩
    exact alive_of_tracked_sweep h.healed.sound visit hv
  · exact .inr (.inl ⟨rfl, hunread⟩)

end Traced

/-- **What failures can leave behind.** Whatever callers do with a soft layer over a store whose
calls fail in any pattern, and with the values they make, once the store answers again a sweep and a
size leave three kinds of entries: those of live values, misses that nobody has read, and those of
keys for which the last call that could have changed the entry was one that failed. The size is
answered, and is that of the store. -/
theorem unreclaimed_entries_refused {settings : SoftSettings} (hcap : 0 < settings.softCapacity)
    (name : String) (blocking lockable : Bool) (faults : Faults κ) :
    ∃ c₀ : Custody κ (Probe κ Handle),
      start settings (Probe.named name blocking lockable faults) = .ok c₀ ∧
        ∀ (acts : List (Visit × Act κ)) (visit visit' : Visit),
          let c := c₀.run acts
          let c' := (c.healed.step visit .sweep).step visit' .size
          c'.past.head? = some (.size, .count c'.layer.below.table.entries.size) ∧
            ∀ k entry, c'.layer.below.table.entries[k]? = some entry →
              (∃ v, entry = some (.ofValue v) ∧ c'.alive v = true) ∨
                (entry = some .dead ∧ k ∈ unread c'.past) ∨
                  faults.refused k c.layer.below.received = true := by
  obtain ⟨c₀, hstart, -⟩ := start_eq (κ := κ) hcap
    (Probe.named name blocking lockable faults : Probe κ Handle)
  refine ⟨c₀, hstart, fun acts visit visit' => ?_⟩
  intro c c'
  have h : c.Traced faults fun _ => False :=
    traced_run (safe_start hstart) (traced_start hstart) acts
  constructor
  · obtain ⟨-, -, hpast⟩ := (h.healed.sweep visit).size_served visit'
    exact congrArg List.head? hpast
  · intro k entry hk
    exact h.entry_after_sweep visit visit' hk

/-- Two values have been reclaimed when a drain fails at the first of their keys. A sweep and a size
later take the second entry out, and the first is one whose last change was refused. -/
theorem refused_drain_leaves_entry :
    let a : Value := ⟨0, "a"⟩
    let b : Value := ⟨1, "b"⟩
    let faults : Faults Nat := fun n _ => if n = 2 then some (.backend "down") else none
    0 < 2 ∧ ∃ c₀ : Custody Nat (Probe Nat Handle),
      start ⟨0, 2⟩ (Probe.named "users" false false faults) = .ok c₀ ∧
        let c := c₀.run ([.make "a", .write 1 a, .make "b", .write 2 b, .drop a, .drop b, .shrink 0,
          .size].map (Visit.asListed, ·))
        let c' := (c.healed.step .asListed .sweep).step .asListed .size
        c'.past.head? = some (.size, .count 1) ∧
          c'.layer.below.table.entries[1]? = some (some (.ofValue a)) ∧
            faults.refused 1 c.layer.below.received = true := by
  intro a b faults
  have hcap : 0 < (⟨0, 2⟩ : SoftSettings).softCapacity := by decide
  obtain ⟨c₀, hstart, h⟩ := unreclaimed_entries_refused (κ := Nat) hcap "users" false false faults
  refine ⟨hcap, c₀, hstart, ?_⟩
  have hall := h ([.make "a", .write 1 a, .make "b", .write 2 b, .drop a, .drop b, .shrink 0,
    .size].map (Visit.asListed, ·)) .asListed .asListed
  dsimp only at hall ⊢
  generalize hrun : c₀.run _ = c at hall ⊢
  generalize hend : (c.healed.step _ .sweep).step _ .size = c' at hall ⊢
  have hfacts : c'.layer.below.table.entries.size = 1 ∧
      c'.layer.below.table.entries[1]? = some (some (.ofValue a)) ∧ c'.alive a = false := by
    cases Except.ok.inj hstart
    rw [← hend, ← hrun]
    exact ⟨by decide +kernel, by decide +kernel, by decide +kernel⟩
  obtain ⟨hsize, hentries⟩ := hall
  obtain ⟨hone, hentry, hdead⟩ := hfacts
  refine ⟨hsize.trans (by rw [hone]), hentry, ?_⟩
  rcases hentries 1 _ hentry with ⟨v, hv, hlive⟩ | ⟨hmiss, -⟩ | hrefused
  · have hsame : a = v := Option.some.inj (congrArg Handle.target (Option.some.inj hv))
    rw [← hsame] at hlive
    exact absurd (hdead.symm.trans hlive) (by simp)
  · exact absurd hmiss (by simp [Handle.ofValue, Handle.dead])
  · exact hrefused

/-- A value is reclaimed that its caller has let go of, and one call fails meanwhile: the removal of
a drain, the removal of a lookup, the write of a miss, of a clear or of another value. A sweep and a
size later the dead entry is still there, which is no miss. -/
theorem failures_leave_dead_entries :
    let a : Value := ⟨0, "a"⟩
    let b : Value := ⟨1, "b"⟩
    ∀ run ∈ [(1, [.make "a", .write 1 a, .drop a, .shrink 0, .size]),
        (2, [.make "a", .write 1 a, .shrink 0, .drop a, .read 1 false]),
        (1, [.make "a", .write 1 a, .drop a, .writeMiss 1]),
        (1, [.make "a", .write 1 a, .drop a, .clear]),
        (1, [.make "a", .write 1 a, .drop a, .make "b", .write 1 b])],
      ∃ c₀ : Custody Nat (Probe Nat Handle),
        start ⟨0, 1⟩ (Probe.named "users" false false fun n _ =>
          if n = run.1 then some (.backend "down") else none) = .ok c₀ ∧
          let c := c₀.run (run.2.map (Visit.asListed, ·))
          let c' := (c.healed.step .asListed .sweep).step .asListed .size
          c'.layer.below.table.entries[1]? = some (some (.ofValue a)) ∧ c'.alive a = false ∧
            unread c'.past = [] := by
  intro a b run hrun
  refine ⟨_, rfl, ?_⟩
  simp only [List.mem_cons, List.not_mem_nil, or_false] at hrun
  rcases hrun with rfl | rfl | rfl | rfl | rfl
  · exact ⟨by decide +kernel, by decide +kernel, by decide +kernel⟩
  · exact ⟨by decide +kernel, by decide +kernel, by decide +kernel⟩
  · exact ⟨by decide +kernel, by decide +kernel, by decide +kernel⟩
  · exact ⟨by decide +kernel, by decide +kernel, by decide +kernel⟩
  · exact ⟨by decide +kernel, by decide +kernel, by decide +kernel⟩

end Custody

end SoftTier
