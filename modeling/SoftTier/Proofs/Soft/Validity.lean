import SoftTier.Proofs.Soft.Coherence
import SoftTier.Proofs.Soft.Custody

/-!
# What is so after any acts

Over a base store that never fails, whatever callers do, the entries of a soft layer, the values
that its reclaimer follows and the keys posted agree with what the record says.

- `Custody.Valid`: this agreement, and that values made later are others than those seen so far.
- `Custody.Valid.write`, `Custody.Valid.read` and so on: it outlasts each act.
- `Custody.valid_start`, `Custody.valid_step`, `Custody.valid_run`: it holds after any acts.
-/

namespace SoftTier

namespace Custody

variable {κ : Type} [Ord κ]

theorem keeps_list_iff {l : List Value} {v : Value} : keeps l v = true ↔ v ∈ l := by
  show (l.any fun w => w == v) = true ↔ v ∈ l
  rw [List.any_eq_true]
  constructor
  · rintro ⟨w, hw, heq⟩
    exact eq_of_beq heq ▸ hw
  · exact fun hv => ⟨v, hv, beq_self_eq_true v⟩

theorem alive_iff {σ : Type} {c : Custody κ σ} {v : Value} :
    c.alive v = true ↔
      v ∈ c.held ∨ v ∈ c.layer.pinned ∨ keeps c.layer.reclaimer v = true := by
  rw [alive, Bool.or_eq_true, Bool.or_eq_true, keeps_list_iff, keeps_list_iff, or_assoc]

/-- What holds a value after an act may be new, but the value was alive before if each new holder
says so. -/
theorem alive_of {σ : Type} {c c' : Custody κ σ} {v : Value} (hv : c'.alive v = true)
    (hheld : v ∈ c'.held → c.alive v = true) (hpinned : v ∈ c'.layer.pinned → c.alive v = true)
    (hkeeps : keeps c'.layer.reclaimer v = true → c.alive v = true) : c.alive v = true := by
  rcases alive_iff.mp hv with hv | hv | hv
  · exact hheld hv
  · exact hpinned hv
  · exact hkeeps hv

section Holders

variable {σ : Type} (c : Custody κ σ) {v : Value}

theorem alive_of_mem_held (h : v ∈ c.held) : c.alive v = true := alive_iff.mpr (.inl h)

theorem alive_of_mem_pinned (h : v ∈ c.layer.pinned) : c.alive v = true :=
  alive_iff.mpr (.inr (.inl h))

theorem alive_of_keeps (h : keeps c.layer.reclaimer v = true) : c.alive v = true :=
  alive_iff.mpr (.inr (.inr h))

end Holders

/-- What an operation on the layer yields is put on record with its answer. -/
theorem perform_eq {σ α : Type} {c : Custody κ σ} {visit : Visit} {act : Act κ} {reply : α → Answer}
    {x : Op (Soft κ σ) α} {a : α} {layer : Soft κ σ}
    (h : x.Yields (c.around visit) c.layer a layer) :
    c.perform visit act reply x = { c with layer, past := (act, reply a) :: c.past } := by
  rw [perform, h.result_eq, h.state_eq]
  rfl

theorem performFinding_eq {σ : Type} {c : Custody κ σ} {visit : Visit} {act : Act κ} {hold : Bool}
    {x : Op (Soft κ σ) (Option Value)} {found : Option Value} {layer : Soft κ σ}
    (h : x.Yields (c.around visit) c.layer found layer) :
    c.performFinding visit act hold x = { c with
      layer
      held := if hold then found.toList ++ c.held else c.held
      past := (act, .found found) :: c.past } := by
  rw [performFinding, h.result_eq, h.state_eq]
  rfl

/-- Who takes hold of a value brings no other to life. -/
theorem alive_of_held_cons {σ : Type} (c : Custody κ σ) {c' : Custody κ σ} {v w : Value}
    (hw : c'.alive w = true) (hheld : c'.held = v :: c.held) (hlayer : c'.layer = c.layer) :
    w = v ∨ c.alive w = true := by
  by_cases hne : w = v
  · exact .inl hne
  · refine .inr (alive_of hw (fun hmem => ?_) (fun hmem => ?_) fun hkept => ?_)
    · rw [hheld] at hmem
      exact alive_of_mem_held c ((List.mem_cons.mp hmem).resolve_left hne)
    · rw [hlayer] at hmem
      exact alive_of_mem_pinned c hmem
    · rw [hlayer] at hkept
      exact alive_of_keeps c hkept

theorem mem_held_found {hold : Bool} {found : Option Value} {held : List Value} {v : Value}
    (h : v ∈ if hold then found.toList ++ held else held) : found = some v ∨ v ∈ held := by
  split at h
  · exact (List.mem_append.mp h).imp_left Option.mem_toList.mp
  · exact .inr h

/-- Who finds nothing takes hold of nothing. -/
theorem held_found_none (hold : Bool) (held : List Value) :
    (if hold then Option.toList none ++ held else held) = held := by
  cases hold with
  | false => rfl
  | true => rfl

/-- Who looks a value up may hold and pin it, but then it was alive before. -/
theorem alive_of_found {σ : Type} {c c' : Custody κ σ} {hold : Bool} {v w : Value}
    (hheld : c'.held = if hold then (some v).toList ++ c.held else c.held)
    (hpinned : c'.layer.pinned = (v :: c.layer.pinned).take c.layer.pinCapacity)
    (hkeeps : keeps c'.layer.reclaimer w = true → w = v ∨ keeps c.layer.reclaimer w = true)
    (hv : c.alive v = true) (hw : c'.alive w = true) : c.alive w = true := by
  refine alive_of hw (fun hmem => ?_) (fun hmem => ?_) fun hkept => ?_
  · rw [hheld] at hmem
    rcases mem_held_found hmem with heq | hmem
    · exact Option.some.inj heq ▸ hv
    · exact alive_of_mem_held c hmem
  · rw [hpinned] at hmem
    rcases List.mem_cons.mp (List.mem_of_mem_take hmem) with rfl | hmem
    · exact hv
    · exact alive_of_mem_pinned c hmem
  · rcases hkeeps hkept with rfl | hkept
    · exact hv
    · exact alive_of_keeps c hkept

/-- What is held or pinned in addition is the value found, and if that is retained nothing else is
alive for it. -/
theorem dead_of_found {σ : Type} {c c' : Custody κ σ} {visit : Visit} {hold : Bool} {v w : Value}
    (hheld : c'.held = if hold then (some v).toList ++ c.held else c.held)
    (hpinned : c'.layer.pinned = (v :: c.layer.pinned).take c.layer.pinCapacity)
    (hkept : keeps c'.layer.reclaimer v = true)
    (hw : c'.layer.reclaimer.alive ((c.around visit).also c.layer.pinned) w = false) :
    c'.alive w = false := by
  have hne : w ≠ v := by
    rintro rfl
    rw [Reclaimer.alive, hkept, Bool.or_true] at hw
    exact absurd hw (by simp)
  rw [Reclaimer.alive, Bool.or_eq_false_iff, Ambient.held_also, Bool.or_eq_false_iff] at hw
  obtain ⟨⟨hnotheld, hnotpinned⟩, hnotkept⟩ := hw
  refine Bool.eq_false_iff.mpr fun hlive => ?_
  rcases alive_iff.mp hlive with hmem | hmem | hlive
  · rw [hheld] at hmem
    rcases mem_held_found hmem with heq | hmem
    · exact hne (Option.some.inj heq).symm
    · exact ne_true_of_eq_false hnotheld (keeps_list_iff.mpr hmem)
  · rw [hpinned] at hmem
    have hmem := (List.mem_cons.mp (List.mem_of_mem_take hmem)).resolve_left hne
    exact ne_true_of_eq_false hnotpinned (keeps_list_iff.mpr hmem)
  · exact ne_true_of_eq_false hnotkept hlive

/-- What is dead for the reclaimer while a value is passed in is dead. -/
theorem dead_of_holding {σ : Type} {c c' : Custody κ σ} {visit : Visit} {v w : Value}
    (hheld : c'.held = c.held) (hpinned : c'.layer.pinned = c.layer.pinned)
    (hw : c'.layer.reclaimer.alive (((c.around visit).also v).also c.layer.pinned) w = false) :
    c'.alive w = false := by
  rw [Reclaimer.alive, Bool.or_eq_false_iff] at hw
  obtain ⟨hout, hkept⟩ := hw
  rw [Ambient.held_also, Ambient.held_also, Bool.or_eq_false_iff, Bool.or_eq_false_iff] at hout
  rw [alive, hheld, hpinned, Bool.or_eq_false_iff, Bool.or_eq_false_iff]
  exact ⟨⟨hout.1.1, hout.2⟩, hkept⟩

variable [DecidableEq κ] [Std.TransOrd κ]

/-- Entries, values followed and posted keys agree with the record, and a value that is made next is
one that nobody has seen. -/
structure Valid (c : Custody κ (Table κ Handle)) : Prop where
  coherent : Coherent c.alive c.layer.reclaimer c.layer.below (written · c.past) (unread c.past)
  written_lt : ∀ k v, written k c.past = some v → v.tag < c.made
  held_lt : ∀ v ∈ c.held, v.tag < c.made

/-- A soft layer with room for a value can be set up. -/
theorem start_eq {σ : Type} {settings : SoftSettings} (hcap : 0 < settings.softCapacity)
    (below : σ) : ∃ c : Custody κ σ, start settings below = .ok c ∧ c.past = [] := by
  have hne : settings.softCapacity ≠ 0 := by omega
  rw [start, Soft.ofSettings, SoftSettings.check, if_neg hne, Reclaimer.ofCapacity, if_neg hne,
    Recency.ofCapacity_eq hcap]
  exact ⟨_, rfl, rfl⟩

/-- At the start nothing is held, retained or on record. -/
theorem eq_of_start {σ : Type} {settings : SoftSettings} {below : σ} {c : Custody κ σ}
    (h : start settings below = .ok c) :
    ∃ r : Reclaimer κ, r.Sound ∧ r.posted = [] ∧ (∀ k, r.tracked k = none) ∧
      c = ⟨⟨[], settings.pinCapacity, r, below⟩, [], 0, []⟩ := by
  rw [start, Soft.ofSettings] at h
  cases hcheck : settings.check with
  | error e =>
    rw [hcheck] at h
    exact absurd h (by simp)
  | ok u =>
    rw [hcheck] at h
    cases hr : (Reclaimer.ofCapacity settings.softCapacity : Except Fault (Reclaimer κ)) with
    | error e =>
      rw [hr] at h
      exact absurd h (by simp)
    | ok r =>
      rw [hr] at h
      cases h
      obtain ⟨hsound, hposted, htracked⟩ := Reclaimer.ofCapacity_sound hr
      exact ⟨r, hsound, hposted, htracked, rfl⟩

theorem valid_start {settings : SoftSettings} {name : String} {c : Custody κ (Table κ Handle)}
    (h : start settings (Table.named name) = .ok c) : c.Valid := by
  obtain ⟨r, hsound, hposted, htracked, rfl⟩ := eq_of_start h
  refine { coherent := ?_, written_lt := fun k v hv => absurd hv (by simp [written]),
           held_lt := fun v hv => absurd hv List.not_mem_nil }
  refine { sound := hsound, posted_nodup := ?_, unread_nodup := List.nodup_nil,
           standing := fun k => ?_ }
  · show r.posted.Nodup
    rw [hposted]
    exact List.nodup_nil
  · exact .absent Std.ExtTreeMap.getElem?_empty (htracked k)
      (fun v hv => absurd hv (by simp [written])) List.not_mem_nil

namespace Valid

variable {c : Custody κ (Table κ Handle)}

/-! ## Acts with values -/

theorem make (h : c.Valid) (visit : Visit) (text : String) : (c.step visit (.make text)).Valid := by
  refine { coherent := h.coherent.mono fun k v hv hv' => ?_,
           written_lt := fun k v hv => Nat.lt_succ_of_lt (h.written_lt k v hv),
           held_lt := fun v hv => ?_ }
  · -- the value just made has not been written yet
    refine (alive_of_held_cons c hv' rfl rfl).resolve_left ?_
    rintro rfl
    exact absurd (h.written_lt k _ hv) (Nat.lt_irrefl _)
  · rcases List.mem_cons.mp hv with rfl | hv
    · exact Nat.lt_succ_self _
    · exact Nat.lt_succ_of_lt (h.held_lt v hv)

theorem keep (h : c.Valid) (visit : Visit) (v : Value) : (c.step visit (.keep v)).Valid := by
  rw [step]
  split
  · rename_i hv
    have hmem := keeps_list_iff.mp hv
    refine { coherent := h.coherent.mono fun k w _ hw => ?_, written_lt := h.written_lt,
             held_lt := fun w hw => ?_ }
    · rcases alive_of_held_cons c hw rfl rfl with rfl | hw
      · exact alive_of_mem_held c hmem
      · exact hw
    · rcases List.mem_cons.mp hw with rfl | hw
      · exact h.held_lt w hmem
      · exact h.held_lt w hw
  · exact h

theorem drop (h : c.Valid) (visit : Visit) (v : Value) : (c.step visit (.drop v)).Valid := by
  refine { coherent := h.coherent.mono fun k w _ hw => ?_, written_lt := h.written_lt,
           held_lt := fun w hw => h.held_lt w (List.mem_of_mem_erase hw) }
  refine alive_of hw (fun hheld => ?_) (alive_of_mem_pinned c) (alive_of_keeps c)
  exact alive_of_mem_held c (List.mem_of_mem_erase hheld)

/-! ## Sweeps -/

theorem setPinCapacity (h : c.Valid) (visit : Visit) (n : Nat) :
    (c.step visit (.setPinCapacity n)).Valid :=
  { coherent := h.coherent, written_lt := h.written_lt, held_lt := h.held_lt }

/-- After a sweep the agreement is the same, as what it posts is dead. -/
theorem settled (h : c.Valid) {visit : Visit} {r : Reclaimer κ} {dead : List κ}
    (hs : Reclaimer.Settled ((c.around visit).also c.layer.pinned) c.layer.reclaimer.posted
      c.layer.reclaimer.tracked (keeps c.layer.reclaimer · = true) r dead)
    {act : Act κ} {answer : Answer}
    (hwritten : ∀ k, written k ((act, answer) :: c.past) = written k c.past)
    (hunread : unread ((act, answer) :: c.past) = unread c.past) :
    Valid { c with layer := { c.layer with reclaimer := r }, past := (act, answer) :: c.past } := by
  refine { coherent := ?_, written_lt := fun k v hv => h.written_lt k v (hwritten k ▸ hv),
           held_lt := h.held_lt }
  show Coherent _ r c.layer.below (fun k => written k ((act, answer) :: c.past))
    (unread ((act, answer) :: c.past))
  rw [hunread, funext hwritten]
  refine Coherent.settle (h.coherent.mono fun k v _ hv => ?_) hs fun v hv => hv
  refine alive_of hv (alive_of_mem_held c) (alive_of_mem_pinned c) fun hkept => ?_
  exact alive_of_keeps c (hs.keeps_only v hkept)

theorem sweep (h : c.Valid) (visit : Visit) : (c.step visit .sweep).Valid := by
  rw [step, perform_eq Soft.sweep_yields]
  have hs := Reclaimer.sweep_settled ((c.around visit).also c.layer.pinned) h.coherent.sound rfl
    (fun _ => rfl) fun _ hv => hv
  exact h.settled hs (fun _ => rfl) rfl

/-! ## Acts with the layer as a store -/

/-- A lookup that finds nothing at the base store changes nothing. -/
theorem read_absent (h : c.Valid) {visit : Visit} {k : κ} (hold : Bool)
    (hval : c.layer.below.value? k = none) : (c.step visit (.read k hold)).Valid := by
  have hunread : unread ((.read k hold, .found none) :: c.past) = unread c.past :=
    Coherent.filter_ne_of_notin (h.coherent.notin_unread_of_absent hval)
  rw [step, performFinding_eq (Soft.read_yields_absent hval), held_found_none]
  refine { coherent := ?_, written_lt := h.written_lt, held_lt := h.held_lt }
  show Coherent _ _ _ _ (unread ((.read k hold, .found none) :: c.past))
  rw [hunread]
  exact h.coherent

variable [Std.LawfulEqOrd κ]

theorem size (h : c.Valid) (visit : Visit) : (c.step visit .size).Valid := by
  rw [step, perform_eq Soft.size_yields]
  exact { coherent := h.coherent.drain _, written_lt := h.written_lt, held_lt := h.held_lt }

theorem write (h : c.Valid) (visit : Visit) (k : κ) (v : Value) :
    (c.step visit (.write k v)).Valid := by
  rw [step]
  split
  · rename_i hheld
    have hv := keeps_list_iff.mp hheld
    have hdrained := h.coherent.drain (((c.around visit).also v).also c.layer.pinned)
    obtain ⟨-, dead, hs⟩ := Reclaimer.retain_settled hdrained.sound
      (((c.around visit).also v).also c.layer.pinned) k v
    rw [perform_eq (Soft.write_yields k v)]
    refine { coherent := ?_, written_lt := fun k' w hw => ?_, held_lt := h.held_lt }
    · show Coherent _ _ _ (written · ((.write k v, .done) :: c.past)) _
      rw [written_write]
      refine Coherent.write (hdrained.mono fun k' w _ hw => ?_) rfl hs (fun w hw => ?_) ?_
      · refine alive_of hw (alive_of_mem_held c) (alive_of_mem_pinned c) fun hkept => ?_
        rcases hs.keeps_only w hkept with rfl | hkept
        · exact alive_of_mem_held c hv
        · exact alive_of_keeps c hkept
      · exact dead_of_holding rfl rfl hw
      · exact alive_of_mem_held _ hv
    · rw [congrFun (written_write k v c.past) k', Function.update_apply] at hw
      split at hw
      · cases hw
        exact h.held_lt v hv
      · exact h.written_lt k' w hw
  · exact h

theorem writeMiss (h : c.Valid) (visit : Visit) (k : κ) : (c.step visit (.writeMiss k)).Valid := by
  have hdrained := h.coherent.drain ((c.around visit).also c.layer.pinned)
  have hs := Reclaimer.forget_settled hdrained.sound .alone k
  rw [step, perform_eq (Soft.writeMiss_yields k)]
  refine { coherent := ?_, written_lt := fun k' w hw => ?_, held_lt := h.held_lt }
  · show Coherent _ _ _ (written · ((.writeMiss k, .done) :: c.past)) _
    rw [written_writeMiss]
    refine Coherent.writeMiss (hdrained.mono fun k' w _ hw => ?_) rfl k
    refine alive_of hw (alive_of_mem_held c) (alive_of_mem_pinned c) fun hkept => ?_
    exact alive_of_keeps c (hs.keeps_only w hkept)
  · rw [congrFun (written_writeMiss k c.past) k', Function.update_apply] at hw
    split at hw
    · exact absurd hw (by simp)
    · exact h.written_lt k' w hw

theorem clear (h : c.Valid) (visit : Visit) : (c.step visit .clear).Valid := by
  have hcleared := (h.coherent.drain ((c.around visit).also ([] : List Value))).clear
  rw [step, perform_eq Soft.clear_yields]
  refine { coherent := hcleared.mono fun k v hv => absurd hv (by simp),
           written_lt := fun k v hv => absurd hv (by simp [written]), held_lt := h.held_lt }

/-- A lookup that finds a dead entry takes it out. -/
theorem read_dead (h : c.Valid) {visit : Visit} {k : κ} (hold : Bool) {handle : Handle}
    (hval : c.layer.below.value? k = some handle) (hup : handle.upgrade c.alive = none) :
    (c.step visit (.read k hold)).Valid := by
  have hs := Reclaimer.forget_settled h.coherent.sound .alone k
  have hdead : ∀ v, written k c.past = some v → c.alive v = false := by
    intro v hv
    have hentry := h.coherent.upgrade_entry k
    rw [hval, Option.bind_some, hup, hv, Option.filter_some] at hentry
    by_contra hne
    rw [if_pos (by simpa using hne)] at hentry
    exact absurd hentry (by simp)
  rw [step, performFinding_eq (Soft.read_yields_dead hval hup), held_found_none]
  refine { coherent := ?_, written_lt := h.written_lt, held_lt := h.held_lt }
  refine (h.coherent.takeOut (fun _ _ => rfl) hdead).mono fun k' v _ hv => ?_
  refine alive_of hv (alive_of_mem_held c) (alive_of_mem_pinned c) fun hkept => ?_
  exact alive_of_keeps c (hs.keeps_only v hkept)

/-- A lookup that finds a live value retains it, so that whoever asked may as well hold it. -/
theorem read_live (h : c.Valid) {visit : Visit} {k : κ} (hold : Bool) {handle : Handle} {v : Value}
    (hval : c.layer.below.value? k = some handle) (hup : handle.upgrade c.alive = some v) :
    (c.step visit (.read k hold)).Valid := by
  obtain ⟨hw, hv⟩ : written k c.past = some v ∧ c.alive v = true := by
    have hentry := h.coherent.upgrade_entry k
    rw [hval, Option.bind_some, hup] at hentry
    exact Option.filter_eq_some_iff.mp hentry.symm
  obtain ⟨-, htracked, -, hunread⟩ := h.coherent.followed_of_alive hw hv
  obtain ⟨hmem, dead, hs⟩ := Reclaimer.refresh_settled h.coherent.sound
    ((c.around visit).also c.layer.pinned) htracked
  have hkeeps := hs.sound.keeps_iff.mpr ⟨k, hmem⟩
  have hunread' : unread ((.read k hold, .found (some v)) :: c.past) = unread c.past :=
    Coherent.filter_ne_of_notin hunread
  rw [step, performFinding_eq (Soft.read_yields_live hval hup)]
  refine { coherent := ?_, written_lt := h.written_lt, held_lt := fun w hheld => ?_ }
  · show Coherent _ _ _ _ (unread ((.read k hold, .found (some v)) :: c.past))
    rw [hunread']
    refine Coherent.settle (h.coherent.mono fun k' w _ hw' => ?_) hs fun w hw' => ?_
    · exact alive_of_found rfl rfl (hs.keeps_only w) hv hw'
    · exact dead_of_found rfl rfl hkeeps hw'
  · rcases mem_held_found hheld with heq | hheld
    · exact Option.some.inj heq ▸ h.written_lt k v hw
    · exact h.held_lt w hheld

theorem read (h : c.Valid) (visit : Visit) (k : κ) (hold : Bool) :
    (c.step visit (.read k hold)).Valid := by
  cases hval : c.layer.below.value? k with
  | none => exact h.read_absent hold hval
  | some handle =>
    cases hup : handle.upgrade c.alive with
    | none => exact h.read_dead hold hval hup
    | some v => exact h.read_live hold hval hup

/-- A removal gives what was written, if it is alive. -/
theorem erase_found (h : c.Valid) (visit : Visit) (k : κ) :
    ((c.layer.drained (c.around visit)).below.value? k).bind
      (·.upgrade (c.layer.alive (c.around visit))) = (written k c.past).filter c.alive :=
  (h.coherent.drain ((c.around visit).also c.layer.pinned)).upgrade_entry k

theorem erase (h : c.Valid) (visit : Visit) (k : κ) (hold : Bool) :
    (c.step visit (.erase k hold)).Valid := by
  have hdrained := h.coherent.drain ((c.around visit).also c.layer.pinned)
  have hs := Reclaimer.forget_settled hdrained.sound .alone k
  have hyields : Op.Yields (Store.erase k) (c.around visit) c.layer _ _ := Soft.erase_yields k
  rw [h.erase_found visit k] at hyields
  rw [step, performFinding_eq hyields]
  refine { coherent := ?_, written_lt := fun k' v hv => ?_, held_lt := fun v hv => ?_ }
  · show Coherent _ _ _ (written · ((.erase k hold, .found ((written k c.past).filter c.alive)) ::
      c.past)) _
    rw [written_erase]
    have htaken : Coherent _ _ _ (Function.update (written · c.past) k none) _ :=
      hdrained.takeOut (fun k' hne => Function.update_of_ne (Ne.symm hne) ..) (by simp)
    refine htaken.mono fun k' v _ hv => ?_
    refine alive_of hv (fun hheld => ?_) (alive_of_mem_pinned c) fun hkept => ?_
    · -- what the removal gave was alive, whether or not the caller held it
      rcases mem_held_found hheld with heq | hheld
      · exact (Option.filter_eq_some_iff.mp heq).2
      · exact alive_of_mem_held c hheld
    · exact alive_of_keeps c (hs.keeps_only v hkept)
  · rw [congrFun (written_erase k hold _ c.past) k', Function.update_apply] at hv
    split at hv
    · exact absurd hv (by simp)
    · exact h.written_lt k' v hv
  · rcases mem_held_found hv with heq | hv
    · exact h.written_lt k v (Option.filter_eq_some_iff.mp heq).1
    · exact h.held_lt v hv

/-! ## Acts that give up retention -/

theorem shrink (h : c.Valid) (visit : Visit) (n : Nat) : (c.step visit (.shrink n)).Valid := by
  obtain ⟨dead, hs⟩ := Reclaimer.shrink_settled h.coherent.sound
    ((c.around visit).also c.layer.pinned) n
  rw [step, perform_eq (Soft.shrink_yields n)]
  exact h.settled hs (fun _ => rfl) rfl

theorem setCapacity (h : c.Valid) (visit : Visit) (n : Nat) :
    (c.step visit (.setCapacity n)).Valid := by
  rcases Nat.eq_zero_or_pos n with rfl | hn
  · rw [step, perform_eq (Soft.setCapacity_yields_error (Reclaimer.setCapacity_zero ..))]
    exact { coherent := h.coherent, written_lt := h.written_lt, held_lt := h.held_lt }
  · obtain ⟨p, dead, hset, hs⟩ := Reclaimer.setCapacity_settled h.coherent.sound
      ((c.around visit).also c.layer.pinned) hn
    rw [step, perform_eq (Soft.setCapacity_yields_ok hset)]
    exact h.settled hs (fun _ => rfl) rfl

end Valid

/-! ## Any acts -/

theorem valid_step [Std.LawfulEqOrd κ] {c : Custody κ (Table κ Handle)} (h : c.Valid)
    (visit : Visit) (act : Act κ) : (c.step visit act).Valid := by
  cases act with
  | make text => exact h.make visit text
  | keep v => exact h.keep visit v
  | drop v => exact h.drop visit v
  | write k v => exact h.write visit k v
  | writeMiss k => exact h.writeMiss visit k
  | read k hold => exact h.read visit k hold
  | erase k hold => exact h.erase visit k hold
  | clear => exact h.clear visit
  | size => exact h.size visit
  | setPinCapacity n => exact h.setPinCapacity visit n
  | sweep => exact h.sweep visit
  | shrink n => exact h.shrink visit n
  | setCapacity n => exact h.setCapacity visit n

theorem valid_run [Std.LawfulEqOrd κ] {c : Custody κ (Table κ Handle)} (h : c.Valid)
    (acts : List (Visit × Act κ)) : (c.run acts).Valid := by
  induction acts generalizing c with
  | nil => exact h
  | cons a acts ih => exact ih (valid_step h a.1 a.2)

end Custody

end SoftTier
