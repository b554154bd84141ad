import SoftTier.Proofs.Soft.Safety

/-!
# Which entries outlast an act

What one act can do to references and entries is told once, for every act: it brings no value back
to life, and an entry that it was not asked to change is there afterwards, unless its key was posted
or its value found dead. A key that no failed write has left unsettled is posted only when the value
of its entry is dead. So the entry of a live value stays until the key is written, missed, removed
or cleared.

- `Custody.Act.leaves`: the entry that an act was asked to leave under a key.
- `Custody.Moved`: what an act can do.
- `Custody.step_moved`: no act does anything else.
- `Custody.Kept`: what was written last under a settled key is there as long as it is alive.
- `Custody.settled_entries_persist`: so it is after any acts.
-/

namespace SoftTier

namespace Custody

variable {κ : Type} [DecidableEq κ]

/-- The entry that an act leaves under a key when it is done; `none` if it was not asked to leave
one. -/
def Act.leaves (k : κ) : Act κ → Answer → Option (Option (Option Handle))
  | .write k' v, .done => if k' = k then some (some (some (.ofValue v))) else none
  | .writeMiss k', .done => if k' = k then some (some (some .dead)) else none
  | .erase k' _, .found _ => if k' = k then some none else none
  | .clear, .done => some none
  | _, _ => none

/-- What is on record for a key is the value of the entry that was left there last. -/
theorem written_cons (k : κ) (act : Act κ) (answer : Answer) (past : Record κ) :
    written k ((act, answer) :: past) = match act.leaves k answer with
      | some entry => entry.join.bind (·.target)
      | none => written k past := by
  cases act with
  | write k' v =>
    cases answer with
    | done =>
      simp only [written, Act.leaves, eq_comm (a := k)]
      split <;> rfl
    | _ => rfl
  | writeMiss k' =>
    cases answer with
    | done =>
      simp only [written, Act.leaves, eq_comm (a := k)]
      split <;> rfl
    | _ => rfl
  | erase k' hold =>
    cases answer with
    | found v =>
      simp only [written, Act.leaves, eq_comm (a := k)]
      split <;> rfl
    | _ => rfl
  | clear => cases answer <;> rfl
  | _ => rfl

/-- A key that is settled after an act was settled before, unless the act left an entry there. -/
theorem unsettled_cons {k : κ} {act : Act κ} {answer : Answer} {past : Record κ}
    (h : unsettled k ((act, answer) :: past) = false) (hleaves : act.leaves k answer = none) :
    unsettled k past = false := by
  cases act with
  | write k' v =>
    cases answer with
    | failed fault =>
      rw [unsettled] at h
      split at h
      · exact absurd h (by simp)
      · exact h
    | done =>
      have hne : k ≠ k' := fun heq => absurd ((if_pos heq.symm).symm.trans hleaves) (by simp)
      rwa [unsettled, if_neg hne] at h
    | _ => exact h
  | writeMiss k' =>
    cases answer with
    | done =>
      have hne : k ≠ k' := fun heq => absurd ((if_pos heq.symm).symm.trans hleaves) (by simp)
      rwa [unsettled, if_neg hne] at h
    | _ => exact h
  | erase k' hold =>
    cases answer with
    | found v =>
      have hne : k ≠ k' := fun heq => absurd ((if_pos heq.symm).symm.trans hleaves) (by simp)
      rwa [unsettled, if_neg hne] at h
    | _ => exact h
  | clear =>
    cases answer with
    | done => exact absurd hleaves (by simp [Act.leaves])
    | _ => exact h
  | _ => exact h

variable [Ord κ] [Std.TransOrd κ]

/-- What an act can do: it brings no value to life but one that it has made, and it changes no entry
that it was not asked to change, except that the entry of a posted key or of a dead value may be
taken out. -/
structure Moved (c : Custody κ (Probe κ Handle)) (act : Act κ) (answer : Answer)
    (c' : Custody κ (Probe κ Handle)) : Prop where
  past_eq : c'.past = (act, answer) :: c.past
  made_le : c.made ≤ c'.made
  alive_cases : ∀ v, c'.alive v = true → c.alive v = true ∨ v.tag = c.made
  asked : ∀ k entry, act.leaves k answer = some entry →
    c'.layer.below.table.entries[k]? = entry
  spared : ∀ k, act.leaves k answer = none →
    c'.layer.below.table.entries[k]? = c.layer.below.table.entries[k]? ∨
      c'.layer.below.table.entries[k]? = none ∧ (k ∈ c.layer.reclaimer.posted ∨
        ∃ handle, c.layer.below.table.value? k = some handle ∧ handle.upgrade c.alive = none)

variable {c : Custody κ (Probe κ Handle)} {act : Act κ} {answer : Answer}

/-- An act that is not about any entry and changes none. -/
theorem Moved.of_table_eq {c' : Custody κ (Probe κ Handle)}
    (hpast : c'.past = (act, answer) :: c.past) (hmade : c.made ≤ c'.made)
    (hleaves : ∀ k, act.leaves k answer = none)
    (htable : c'.layer.below.table = c.layer.below.table)
    (halive : ∀ v, c'.alive v = true → c.alive v = true ∨ v.tag = c.made) :
    c.Moved act answer c' := by
  refine { past_eq := hpast, made_le := hmade, alive_cases := halive,
           asked := fun k entry hentry => ?_, spared := fun k _ => .inl (by rw [htable]) }
  exact absurd ((hleaves k).symm.trans hentry) (by simp)

/-- An act that gives up retention and is about no entry. -/
theorem Moved.of_keeps {r : Reclaimer κ} (hleaves : ∀ k, act.leaves k answer = none)
    (hkeeps : ∀ v, keeps r v = true → keeps c.layer.reclaimer v = true) :
    c.Moved act answer { c with
      layer := { c.layer with reclaimer := r }
      past := (act, answer) :: c.past } := by
  refine .of_table_eq rfl (Nat.le_refl _) hleaves rfl fun v hv => .inl ?_
  exact alive_of hv (alive_of_mem_held c) (alive_of_mem_pinned c)
    fun hkept => alive_of_keeps c (hkeeps v hkept)

/-- What was drained before the entry was left that the act was asked to leave, if it was done. -/
theorem Moved.of_takes {env : Ambient} {s d : Soft κ (Probe κ Handle)} {r : Reclaimer κ}
    {p : Probe κ Handle} {held : List Value} {change : Table κ Handle → Table κ Handle}
    (h : Soft.Takes env s.reclaimer.posted s d) (hreclaimer : s.reclaimer = c.layer.reclaimer)
    (hbelow : s.below = c.layer.below) (hpinned : ∀ v ∈ s.pinned, v ∈ c.layer.pinned)
    (hheld : ∀ v ∈ held, c.alive v = true) (hkept : ∀ v, keeps r v = true → c.alive v = true)
    (htable : p.table = change d.below.table)
    (hchange : ∀ k t, (change t).entries[k]? = (act.leaves k answer).getD t.entries[k]?) :
    c.Moved act answer { c with
      layer := { d with reclaimer := r, below := p }
      held, past := (act, answer) :: c.past } := by
  have hentry : ∀ k, p.table.entries[k]? = (act.leaves k answer).getD d.below.table.entries[k]? :=
    fun k => (congrArg (·.entries[k]?) htable).trans (hchange k _)
  refine { past_eq := rfl, made_le := Nat.le_refl _, alive_cases := fun v hv => .inl ?_,
           asked := fun k entry hleaves => ?_, spared := fun k hleaves => ?_ }
  · refine alive_of hv (hheld v) (fun hmem => ?_) (hkept v)
    exact alive_of_mem_pinned c (hpinned v (h.pinned_eq ▸ hmem))
  · rw [hentry, hleaves]
    rfl
  · dsimp only
    rw [hentry, hleaves, ← hbelow, ← hreclaimer]
    exact (h.entry_cases k).imp_right fun ⟨hnone, hmem, _⟩ => ⟨hnone, .inl hmem⟩

/-- What is drained is kept as before. -/
theorem alive_of_drained {env : Ambient} {l : List κ} {s d : Soft κ (Probe κ Handle)}
    (h : Soft.Takes env l s d) (hreclaimer : s.reclaimer = c.layer.reclaimer) {v : Value}
    (hv : keeps d.reclaimer v = true) : c.alive v = true := by
  rw [h.keeps_eq, hreclaimer] at hv
  exact alive_of_keeps c hv

/-- A request that writes, whichever way it ends. -/
theorem Moved.of_wrote {α : Type} {env : Ambient} {before : Soft κ (Probe κ Handle) → Reclaimer κ}
    {change : Table κ Handle → Table κ Handle} {after : Reclaimer κ → Reclaimer κ}
    {reply : Soft κ (Probe κ Handle) → α} {s layer : Soft κ (Probe κ Handle)}
    {r : Except Failure α} {held : List Value}
    (hends : Soft.Wrote env before change after reply s r layer)
    (hreclaimer : s.reclaimer = c.layer.reclaimer) (hbelow : s.below = c.layer.below)
    (hpinned : ∀ v ∈ s.pinned, v ∈ c.layer.pinned) (hheld : ∀ v ∈ held, c.alive v = true)
    (hkept : ∀ d, Soft.Takes env s.reclaimer.posted s d → ∀ v,
      keeps (before d) v = true ∨ keeps (after (before d)) v = true → c.alive v = true)
    (hfailed : ∀ e, r = .error e → ∀ k, act.leaves k answer = none)
    (hdone : ∀ a, r = .ok a → ∀ k t,
      (change t).entries[k]? = (act.leaves k answer).getD t.entries[k]?) :
    c.Moved act answer { c with layer, held, past := (act, answer) :: c.past } := by
  have hsame : ∀ e, r = .error e → ∀ k t, (id t : Table κ Handle).entries[k]? =
      (act.leaves k answer).getD t.entries[k]? := by
    intro e he k t
    rw [hfailed e he k]
    rfl
  cases hends with
  | stopped e htakes =>
    exact .of_takes htakes hreclaimer hbelow hpinned hheld
      (fun v => alive_of_drained htakes hreclaimer) rfl (hsame e rfl)
  | refused e htakes _ htable =>
    exact .of_takes htakes hreclaimer hbelow hpinned hheld
      (fun v hv => hkept _ htakes v (.inl hv)) htable (hsame e rfl)
  | served htakes _ htable =>
    exact .of_takes htakes hreclaimer hbelow hpinned hheld
      (fun v hv => hkept _ htakes v (.inr hv)) htable (hdone _ rfl)

/-! ## What outlasts acts -/

/-- What was written last under a settled key is there as long as it is alive. -/
structure Kept (c : Custody κ (Probe κ Handle)) : Prop where
  written_lt : ∀ k v, written k c.past = some v → v.tag < c.made
  entry_eq : ∀ k v, unsettled k c.past = false → written k c.past = some v → c.alive v = true →
    c.layer.below.table.entries[k]? = some (some (.ofValue v))

theorem kept_start {settings : SoftSettings} {below : Probe κ Handle}
    (h : start settings below = .ok c) : c.Kept := by
  obtain ⟨r, -, -, -, rfl⟩ := eq_of_start h
  exact ⟨fun k v hv => absurd hv (by simp [written]),
    fun k v _ hv => absurd hv (by simp [written])⟩

/-! ## Each act -/

variable [Std.LawfulEqOrd κ]

theorem size_moved (visit : Visit) : ∃ answer, c.Moved .size answer (c.step visit .size) := by
  obtain ⟨r, layer, hends, heq⟩ := perform_leaves .size .count
    (Soft.size_leaves (c.around visit) c.layer)
  rw [step, heq]
  exact ⟨_, .of_wrote hends rfl rfl (fun _ hv => hv) (fun _ => alive_of_mem_held c)
    (fun d htakes v hv => alive_of_drained htakes rfl (hv.elim id id))
    (fun e he k => rfl) fun a ha k t => rfl⟩

section Acts

variable (h : c.layer.reclaimer.Sound) (visit : Visit)

include h

theorem write_moved (k : κ) (v : Value) : c.step visit (.write k v) = c ∨
    ∃ answer, c.Moved (.write k v) answer (c.step visit (.write k v)) := by
  rw [step]
  split
  · rename_i hheld
    obtain ⟨r, layer, hends, heq⟩ := perform_leaves (.write k v) (fun _ => .done)
      (Soft.write_leaves (c.around visit) c.layer k v)
    rw [heq]
    refine .inr ⟨_, .of_wrote hends rfl rfl (fun _ hv => hv) (fun _ => alive_of_mem_held c)
      (fun d htakes w hw => ?_) (fun e he k' => ?_) fun a ha k' t => ?_⟩
    · obtain ⟨-, dead, hs⟩ := Reclaimer.retain_settled (htakes.sound h)
        (((c.around visit).also v).also d.pinned) k v
      rcases hs.keeps_only w (hw.elim id id) with rfl | hkept
      · exact alive_of_mem_held c (keeps_list_iff.mp hheld)
      · exact alive_of_drained htakes rfl hkept
    · rw [he]
      rfl
    · rw [ha, Table.getElem?_put, Act.leaves]
      split <;> rfl
  · exact .inl rfl

theorem writeMiss_moved (k : κ) :
    ∃ answer, c.Moved (.writeMiss k) answer (c.step visit (.writeMiss k)) := by
  obtain ⟨r, layer, hends, heq⟩ := perform_leaves (.writeMiss k) (fun _ => .done)
    (Soft.writeMiss_leaves (c.around visit) c.layer k)
  rw [step, heq]
  refine ⟨_, .of_wrote hends rfl rfl (fun _ hv => hv) (fun _ => alive_of_mem_held c)
    (fun d htakes w hw => ?_) (fun e he k' => ?_) fun a ha k' t => ?_⟩
  · have hs := Reclaimer.forget_settled (htakes.sound h) .alone k
    exact alive_of_drained htakes rfl (hs.keeps_only w (hw.elim id id))
  · rw [he]
    rfl
  · rw [ha, Table.getElem?_put, Act.leaves]
    split <;> rfl

/-- What a removal gives was alive. -/
theorem erase_moved (k : κ) (hold : Bool) :
    ∃ answer, c.Moved (.erase k hold) answer (c.step visit (.erase k hold)) := by
  obtain ⟨r, layer, hends, heq⟩ := performFinding_leaves (.erase k hold) hold
    (Soft.erase_leaves (c.around visit) c.layer k)
  rw [step, heq]
  have hkept : ∀ d : Soft κ (Probe κ Handle),
      Soft.Takes (c.around visit) c.layer.reclaimer.posted c.layer d → ∀ v,
        keeps d.reclaimer v = true ∨ keeps (d.reclaimer.forget k) v = true → c.alive v = true := by
    intro d htakes v hv
    have hs := Reclaimer.forget_settled (htakes.sound h) .alone k
    exact alive_of_drained htakes rfl (hv.elim id (hs.keeps_only v))
  cases r with
  | error e =>
    exact ⟨_, .of_wrote hends rfl rfl (fun _ hv => hv) (fun _ => alive_of_mem_held c) hkept
      (fun e' _ k' => rfl) fun a ha => absurd ha (by simp)⟩
  | ok found =>
    have hfound : ∀ v, found = some v → c.alive v = true := by
      intro v hv
      cases hends with
      | served htakes _ _ =>
        obtain ⟨handle, -, hup⟩ := Option.bind_eq_some_iff.mp hv
        exact (alive_of_takes htakes v).symm.trans (Handle.upgrade_eq_some_iff.mp hup).2
    refine ⟨_, .of_wrote hends rfl rfl (fun _ hv => hv) (fun v hv => ?_) hkept
      (fun e he => absurd he (by simp)) fun a _ k' t => ?_⟩
    · rcases mem_held_found hv with hv | hv
      · exact hfound v hv
      · exact alive_of_mem_held c hv
    · rw [Table.getElem?_remove, Act.leaves]
      split <;> rfl

/-- The pins go first, so nothing is drained that they could have saved. -/
theorem clear_moved : ∃ answer, c.Moved .clear answer (c.step visit .clear) := by
  obtain ⟨r, layer, hends, heq⟩ := perform_leaves .clear (fun _ => .done)
    (Soft.clear_leaves (c.around visit) c.layer)
  rw [step, heq]
  refine ⟨_, .of_wrote hends rfl rfl (fun _ hv => absurd hv List.not_mem_nil)
    (fun _ => alive_of_mem_held c) (fun d htakes w hw => ?_) (fun e he k' => ?_)
    fun a ha k' t => ?_⟩
  · have hs := Reclaimer.reset_settled (htakes.sound h) .alone
    exact absurd (hs.keeps_only w (hw.elim id id)) not_false
  · rw [he]
    rfl
  · rw [ha]
    exact Std.ExtTreeMap.getElem?_empty

/-- A lookup pins, holds and retains only what was alive, and takes out only what was dead. -/
theorem read_moved (k : κ) (hold : Bool) :
    ∃ answer, c.Moved (.read k hold) answer (c.step visit (.read k hold)) := by
  have hkept : ∀ v, keeps (c.layer.reclaimer.forget k) v = true → c.alive v = true := fun v hv =>
    alive_of_keeps c ((Reclaimer.forget_settled h .alone k).keeps_only v hv)
  obtain ⟨r, layer, hends, heq⟩ := performFinding_leaves (.read k hold) hold
    (Soft.read_leaves (c.around visit) c.layer k)
  rw [step, heq]
  cases hends with
  | refused e htable =>
    exact ⟨_, .of_table_eq rfl (Nat.le_refl _) (fun _ => rfl) htable fun v hv => .inl hv⟩
  | absent hval htable =>
    refine ⟨_, .of_table_eq rfl (Nat.le_refl _) (fun _ => rfl) htable fun v hv => .inl ?_⟩
    refine alive_of hv (fun hmem => ?_) (alive_of_mem_pinned c) (alive_of_keeps c)
    exact alive_of_mem_held c ((mem_held_found hmem).resolve_left (by simp))
  | live hval hup htable =>
    obtain ⟨-, hlive⟩ := Handle.upgrade_eq_some_iff.mp hup
    refine ⟨_, .of_table_eq rfl (Nat.le_refl _) (fun _ => rfl) htable fun w hw => .inl ?_⟩
    refine alive_of_found rfl rfl (fun hkept => ?_) hlive hw
    rcases Reclaimer.refresh_cases h ((c.around visit).also c.layer.pinned) k _ with
      ⟨_, -, -, hs⟩ | ⟨-, dead, hs⟩
    · exact .inr (hs.keeps_only w hkept)
    · exact hs.keeps_only w hkept
  | dead hval hup hends =>
    rcases hends with ⟨⟨e, rfl⟩, htable⟩ | ⟨rfl, htable⟩
    · refine ⟨_, .of_table_eq rfl (Nat.le_refl _) (fun _ => rfl) htable fun v hv => .inl ?_⟩
      exact alive_of hv (alive_of_mem_held c) (alive_of_mem_pinned c) (hkept v)
    · refine ⟨_, { past_eq := rfl, made_le := Nat.le_refl _, alive_cases := fun v hv => .inl ?_,
                   asked := fun k' entry hleft => ?_, spared := fun k' _ => ?_ }⟩
      · refine alive_of hv (fun hmem => ?_) (alive_of_mem_pinned c) (hkept v)
        exact alive_of_mem_held c ((mem_held_found hmem).resolve_left (by simp))
      · exact absurd hleft (by simp [Act.leaves])
      · dsimp only
        rw [htable, Table.getElem?_remove]
        split
        · rename_i heq
          subst heq
          exact .inr ⟨rfl, .inr ⟨_, hval, hup⟩⟩
        · exact .inl rfl

theorem shrink_moved (n : Nat) :
    ∃ answer, c.Moved (.shrink n) answer (c.step visit (.shrink n)) := by
  obtain ⟨dead, hs⟩ := Reclaimer.shrink_settled h ((c.around visit).also c.layer.pinned) n
  rw [step, perform_eq (Soft.shrink_yields n)]
  exact ⟨_, .of_keeps (fun _ => rfl) hs.keeps_only⟩

theorem setCapacity_moved (n : Nat) :
    ∃ answer, c.Moved (.setCapacity n) answer (c.step visit (.setCapacity n)) := by
  rcases Nat.eq_zero_or_pos n with rfl | hn
  · rw [step, perform_eq (Soft.setCapacity_yields_error (Reclaimer.setCapacity_zero ..))]
    exact ⟨_, .of_keeps (fun _ => rfl) fun _ hv => hv⟩
  · obtain ⟨p, dead, hset, hs⟩ := Reclaimer.setCapacity_settled h
      ((c.around visit).also c.layer.pinned) hn
    rw [step, perform_eq (Soft.setCapacity_yields_ok hset)]
    exact ⟨_, .of_keeps (fun _ => rfl) hs.keeps_only⟩

/-- No act does anything but what it can do; an act with a value that its caller does not hold does
nothing at all. -/
theorem step_moved (act : Act κ) :
    c.step visit act = c ∨ ∃ answer, c.Moved act answer (c.step visit act) := by
  cases act with
  | make text =>
    refine .inr ⟨.done, .of_table_eq rfl (Nat.le_succ _) (fun _ => rfl) rfl fun v hv => ?_⟩
    rcases alive_of_held_cons c hv rfl rfl with rfl | hv
    · exact .inr rfl
    · exact .inl hv
  | keep v =>
    rw [step]
    split
    · rename_i hheld
      refine .inr ⟨.done, .of_table_eq rfl (Nat.le_refl _) (fun _ => rfl) rfl fun w hw => .inl ?_⟩
      rcases alive_of_held_cons c hw rfl rfl with rfl | hw
      · exact alive_of_mem_held c (keeps_list_iff.mp hheld)
      · exact hw
    · exact .inl rfl
  | drop v =>
    refine .inr ⟨.done, .of_table_eq rfl (Nat.le_refl _) (fun _ => rfl) rfl fun w hw => .inl ?_⟩
    exact alive_of hw (fun hmem => alive_of_mem_held c (List.mem_of_mem_erase hmem))
      (alive_of_mem_pinned c) (alive_of_keeps c)
  | write k v => exact write_moved h visit k v
  | writeMiss k => exact .inr (writeMiss_moved h visit k)
  | read k hold => exact .inr (read_moved h visit k hold)
  | erase k hold => exact .inr (erase_moved h visit k hold)
  | clear => exact .inr (clear_moved h visit)
  | size => exact .inr (size_moved visit)
  | setPinCapacity n =>
    exact .inr ⟨.done, .of_table_eq rfl (Nat.le_refl _) (fun _ => rfl) rfl fun v hv => .inl hv⟩
  | sweep =>
    rw [step, perform_eq Soft.sweep_yields]
    have hs := Reclaimer.sweep_settled ((c.around visit).also c.layer.pinned) h rfl
      (fun _ => rfl) fun _ hv => hv
    exact .inr ⟨_, .of_keeps (fun _ => rfl) hs.keeps_only⟩
  | shrink n => exact .inr (shrink_moved h visit n)
  | setCapacity n => exact .inr (setCapacity_moved h visit n)

end Acts

/-! ## Any acts -/

theorem kept_step (h : c.Safe) (hkept : c.Kept) (visit : Visit) (act : Act κ) :
    (c.step visit act).Kept := by
  have hsafe := safe_step h visit act
  rcases step_moved h.sound visit act with heq | ⟨answer, hmoved⟩
  · rw [heq]
    exact hkept
  generalize c.step visit act = c' at hsafe hmoved
  have hleft : ∀ k v entry, act.leaves k answer = some entry → entry.join.bind (·.target) = some v →
      c'.layer.below.table.entries[k]? = some (some (.ofValue v)) := by
    intro k v entry hleaves hv
    obtain ⟨handle, hval, htarget⟩ := Option.bind_eq_some_iff.mp hv
    rw [← hmoved.asked k entry hleaves] at hval
    exact Table.getElem?_of_value? hval htarget
  constructor
  · intro k v hv
    rw [hmoved.past_eq, written_cons] at hv
    cases hleaves : act.leaves k answer with
    | some entry =>
      rw [hleaves] at hv
      exact hsafe.entry_lt k v (hleft k v entry hleaves hv)
    | none =>
      rw [hleaves] at hv
      exact Nat.lt_of_lt_of_le (hkept.written_lt k v hv) hmoved.made_le
  · intro k v hsettled hv hlive
    rw [hmoved.past_eq] at hsettled hv
    rw [written_cons] at hv
    cases hleaves : act.leaves k answer with
    | some entry =>
      rw [hleaves] at hv
      exact hleft k v entry hleaves hv
    | none =>
      rw [hleaves] at hv
      have hsettled' := unsettled_cons hsettled hleaves
      have hold : v.tag ≠ c.made := Nat.ne_of_lt (hkept.written_lt k v hv)
      have hlive' := (hmoved.alive_cases v hlive).resolve_right hold
      have hentry := hkept.entry_eq k v hsettled' hv hlive'
      rcases hmoved.spared k hleaves with heq | ⟨-, hposted | ⟨handle, hval, hup⟩⟩
      · exact heq.trans hentry
      · -- a settled key is posted only when its value is dead
        exact absurd hlive' (ne_true_of_eq_false ((h.tidy k hsettled').dead hposted v hentry))
      · rw [Table.value?_eq hentry] at hval
        cases hval
        rw [Handle.upgrade_ofValue, if_pos hlive'] at hup
        exact absurd hup (by simp)

theorem kept_run (h : c.Safe) (hkept : c.Kept) (acts : List (Visit × Act κ)) :
    (c.run acts).Kept := by
  induction acts generalizing c with
  | nil => exact hkept
  | cons a acts ih => exact ih (safe_step h a.1 a.2) (kept_step h hkept a.1 a.2)

/-- A drain leaves the entry of a live value under a settled key, whatever surrounds it. -/
theorem Safe.drain_spares (h : c.Safe) (env : Ambient) (pinned : List Value) {k : κ} {v : Value}
    (hsettled : unsettled k c.past = false)
    (hentry : c.layer.below.table.entries[k]? = some (some (.ofValue v)))
    (hlive : c.alive v = true) :
    (Soft.drain : Op (Soft κ (Probe κ Handle)) Unit).Leaves env { c.layer with pinned }
      fun _ d => d.below.table.entries[k]? = some (some (.ofValue v)) := by
  refine (Soft.drain_leaves env { c.layer with pinned }).imp fun r d ⟨htakes, _⟩ => ?_
  rcases htakes.entry_cases k with heq | ⟨-, hposted, -⟩
  · exact heq.trans hentry
  · exact absurd hlive (ne_true_of_eq_false ((h.tidy k hsettled).dead hposted v hentry))

/-- **The entry of a live value stays.** Whatever callers do with a soft layer over a store whose
calls fail in any pattern, and with the values they make, consider a key under which no write has
failed since the last request that settled it. A value that was written there last, and is alive, is
in the entry of the key: only a write, a miss, a removal or a clear that was done takes it out, and
no collection and no failure does. And whatever is drained, by whichever request, the entry of a
live value stays. -/
theorem settled_entries_persist {settings : SoftSettings} (hcap : 0 < settings.softCapacity)
    (name : String) (blocking lockable : Bool) (faults : Faults κ) :
    ∃ c₀ : Custody κ (Probe κ Handle),
      start settings (Probe.named name blocking lockable faults) = .ok c₀ ∧
        ∀ (acts : List (Visit × Act κ)) (k : κ),
          let c := c₀.run acts
          unsettled k c.past = false →
            (∀ v, written k c.past = some v → c.alive v = true →
              c.layer.below.table.entries[k]? = some (some (.ofValue v))) ∧
            ∀ (env : Ambient) (pinned : List Value) (v : Value),
              c.layer.below.table.entries[k]? = some (some (.ofValue v)) → c.alive v = true →
                Op.Leaves Soft.drain env { c.layer with pinned } fun _ d =>
                  d.below.table.entries[k]? = some (some (.ofValue v)) := by
  obtain ⟨c₀, hstart, -⟩ := start_eq (κ := κ) hcap
    (Probe.named name blocking lockable faults : Probe κ Handle)
  refine ⟨c₀, hstart, fun acts k => ?_⟩
  intro c hsettled
  have h : c.Safe := safe_run (safe_start hstart) acts
  have hkept : c.Kept := kept_run (safe_start hstart) (kept_start hstart) acts
  refine ⟨fun v => hkept.entry_eq k v hsettled, fun env pinned v hentry hlive => ?_⟩
  exact h.drain_spares env pinned hsettled hentry hlive

/-- A write of another key has failed, and its value was reclaimed. The value of the first key is
held, and its entry is there after a sweep and a drain. -/
theorem held_value_keeps_entry :
    let a : Value := ⟨0, "a"⟩
    let b : Value := ⟨1, "b"⟩
    let faults : Faults Nat := fun _ c => if c = .write 2 then some (.backend "down") else none
    0 < 1 ∧ ∃ c₀ : Custody Nat (Probe Nat Handle),
      start ⟨0, 1⟩ (Probe.named "users" false false faults) = .ok c₀ ∧
        let c := c₀.run ([.make "a", .write 1 a, .make "b", .write 2 b, .drop b, .shrink 0].map
          (Visit.asListed, ·))
        unsettled 1 c.past = false ∧ c.alive a = true ∧ c.layer.reclaimer.posted = [2] ∧
          Op.Leaves Soft.drain .alone { c.layer with pinned := [] } fun _ d =>
            d.below.table.entries[1]? = some (some (.ofValue a)) := by
  intro a b faults
  have hcap : 0 < (⟨0, 1⟩ : SoftSettings).softCapacity := by decide
  obtain ⟨c₀, hstart, h⟩ := settled_entries_persist (κ := Nat) hcap "users" false false faults
  refine ⟨hcap, c₀, hstart, ?_⟩
  intro c
  have hfacts : unsettled 1 c.past = false ∧ c.alive a = true ∧ c.layer.reclaimer.posted = [2] ∧
      written 1 c.past = some a := by
    cases Except.ok.inj hstart
    exact ⟨by decide, by decide, by decide, by decide⟩
  obtain ⟨hsettled, hlive, hposted, hlast⟩ := hfacts
  obtain ⟨hwritten, hdrain⟩ := h _ 1 hsettled
  exact ⟨hsettled, hlive, hposted, hdrain .alone [] a (hwritten a hlast hlive) hlive⟩

/-- A write over a held value fails, and the value that was to be written is reclaimed. Its key is
posted for that, and the next drain takes out the entry of the value that is held. -/
theorem failed_write_costs_entry :
    let a : Value := ⟨0, "a"⟩
    let b : Value := ⟨1, "b"⟩
    let faults : Faults Nat := fun n _ => if n = 1 then some (.backend "down") else none
    ∃ c₀ : Custody Nat (Probe Nat Handle),
      start ⟨0, 1⟩ (Probe.named "users" false false faults) = .ok c₀ ∧
        let c := c₀.run ([.make "a", .write 1 a, .make "b", .write 1 b, .drop b, .shrink 0].map
          (Visit.asListed, ·))
        let c' := c.step .asListed .size
        a ∈ c.held ∧ written 1 c.past = some a ∧
          c.layer.below.table.entries[1]? = some (some (.ofValue a)) ∧
          c'.layer.below.received = [.size, .erase 1] ++ c.layer.below.received ∧
          c'.layer.below.table.entries[1]? = none := by
  intro a b faults
  refine ⟨_, rfl, ?_⟩
  exact ⟨by decide +kernel, by decide +kernel, by decide +kernel, by decide +kernel,
    by decide +kernel⟩

end Custody

end SoftTier
