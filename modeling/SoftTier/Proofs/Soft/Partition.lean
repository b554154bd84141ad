import SoftTier.Proofs.Soft.Validity

/-!
# What the entries of a soft layer are for

Over a base store that never fails, every entry of a soft layer has one reason to be there: its
value is retained, or its value is released, or its value is gone and the key waits among the posted
ones, or it is a miss that nobody has read. So nothing stays behind, and the size can be told from
the parts.

- `Coherent.keys_perm`: the keys of the base store, told apart by reason.
- `Custody.keys_partition`: so it is after any acts, and a size is the sum of its parts.
-/

namespace SoftTier

namespace Coherent

section Keys

variable {κ : Type} [Ord κ] [Std.TransOrd κ] {r : Reclaimer κ} {t : Table κ Handle}

/-- The posted keys whose entries have not been taken out yet. -/
def waiting (r : Reclaimer κ) (t : Table κ Handle) : List κ :=
  r.posted.filter fun k => t.contains k

theorem mem_waiting {k : κ} : k ∈ waiting r t ↔ k ∈ r.posted ∧ t.entries[k]?.isSome := by
  rw [waiting, List.mem_filter, Table.contains, Std.ExtTreeMap.contains_eq_isSome_getElem?]

end Keys

variable {κ : Type} [DecidableEq κ] [Ord κ]

/-- A value is followed under a key exactly if the key is retained or released. -/
theorem tracked_isSome_iff {r : Reclaimer κ} {k : κ} :
    (r.tracked k).isSome ↔ k ∈ r.kept.keys ++ r.released.keys := by
  rw [← Option.ne_none_iff_isSome, ne_eq, Reclaimer.tracked_eq_none_iff, List.mem_append]
  tauto

variable [Std.TransOrd κ] {alive : Value → Bool} {r : Reclaimer κ} {t : Table κ Handle}
  {written : κ → Option Value} {unread : List κ}

/-- The entry of a posted key has a dead value. -/
theorem dead_of_mem_waiting (h : Coherent alive r t written unread) {k : κ}
    (hk : k ∈ waiting r t) :
    ∃ v, t.entries[k]? = some (some (.ofValue v)) ∧ alive v = false := by
  obtain ⟨hposted, hsome⟩ := mem_waiting.mp hk
  cases h.standing k with
  | absent he ht hd hu => exact absurd hsome (by simp [he])
  | followed v he ht hp hw hu => exact absurd hposted hp
  | gone v he ht hp hw hd hu => exact ⟨v, he, hd⟩
  | missed he ht hp hw hu => exact absurd hposted hp

/-- When nothing is posted, an entry is that of the value followed or an unread miss. -/
theorem entry_of_unposted (h : Coherent alive r t written unread) (hposted : r.posted = []) {k : κ}
    {entry : Option Handle} (hk : t.entries[k]? = some entry) :
    (∃ v, entry = some (.ofValue v) ∧ r.tracked k = some v) ∨
      (entry = some .dead ∧ k ∈ unread) := by
  cases h.standing k with
  | absent he ht hd hu => exact absurd (he.symm.trans hk) (by simp)
  | followed v he ht hp hw hu => exact .inl ⟨v, (Option.some.inj (he.symm.trans hk)).symm, ht⟩
  | gone v he ht hp hw hd hu =>
    rw [hposted] at hp
    exact absurd hp List.not_mem_nil
  | missed he ht hp hw hu => exact .inr ⟨(Option.some.inj (he.symm.trans hk)).symm, hu⟩

/-- Each key with an entry has a reason, and no key has two. -/
theorem reasons (h : Coherent alive r t written unread) (k : κ) :
    (t.entries[k]?.isSome ↔ (r.tracked k).isSome ∨ k ∈ waiting r t ∨ k ∈ unread) ∧
      ((r.tracked k).isSome → k ∉ waiting r t ∧ k ∉ unread) ∧ (k ∈ waiting r t → k ∉ unread) := by
  rw [mem_waiting]
  cases h.standing k with
  | absent he ht hd hu => simp [he, ht, hu]
  | followed v he ht hp hw hu => simp [he, ht, hp, hu]
  | gone v he ht hp hw hd hu => simp [he, ht, hp, hu]
  | missed he ht hp hw hu => simp [he, ht, hp, hu]

variable [Std.LawfulEqOrd κ]

/-- The keys of the base store are those of retained values, those of released values, those that
wait to be taken out and those of unread misses, each once. -/
theorem keys_perm (h : Coherent alive r t written unread) :
    t.entries.keys.Perm ((r.kept.keys ++ r.released.keys) ++ (waiting r t ++ unread)) := by
  have hfollowed : (r.kept.keys ++ r.released.keys).Nodup :=
    h.sound.kept_nodup.append h.sound.released_nodup fun k hk hrel => h.sound.disjoint k hk hrel
  have hrest : (waiting r t ++ unread).Nodup :=
    (h.posted_nodup.filter _).append h.unread_nodup fun k hk => (h.reasons k).2.2 hk
  refine (List.perm_ext_iff_of_nodup Std.ExtTreeMap.nodup_keys ?_).mpr fun k => ?_
  · refine hfollowed.append hrest fun k hk hk' => ?_
    obtain ⟨hwaiting, hunread⟩ := (h.reasons k).2.1 (tracked_isSome_iff.mpr hk)
    rcases List.mem_append.mp hk' with hk' | hk'
    · exact hwaiting hk'
    · exact hunread hk'
  · rw [Std.ExtTreeMap.mem_keys, Std.ExtTreeMap.mem_iff_isSome_getElem?, (h.reasons k).1,
      tracked_isSome_iff]
    simp only [List.mem_append]

/-- When nothing is posted, the size is that of the parts. -/
theorem size_eq (h : Coherent alive r t written unread) (hposted : r.posted = []) :
    t.entries.size = r.retainedSize + r.releasedSize + unread.length := by
  have hwaiting : waiting r t = [] := by
    rw [waiting, hposted]
    rfl
  rw [← Std.ExtTreeMap.length_keys, h.keys_perm.length_eq, hwaiting, List.nil_append,
    List.length_append, List.length_append, Assoc.keys, Assoc.keys, List.length_map,
    List.length_map, h.sound.retainedSize_eq, Reclaimer.releasedSize]

end Coherent

namespace Custody

variable {κ : Type} [Ord κ] [DecidableEq κ] [Std.TransOrd κ]

/-- What is followed after a sweep is alive. -/
theorem alive_of_tracked_sweep {σ : Type} [Store σ κ Handle] {c : Custody κ σ}
    (h : c.layer.reclaimer.Sound) (visit : Visit) {k : κ} {v : Value}
    (hv : (c.step visit .sweep).layer.reclaimer.tracked k = some v) :
    (c.step visit .sweep).alive v = true := by
  rw [step, perform_eq Soft.sweep_yields] at hv ⊢
  have hswept := Reclaimer.sweep_sound h ((c.around visit).also c.layer.pinned)
  rcases (Reclaimer.tracked_eq_some_iff hswept).mp hv with hkept | hreleased
  · exact alive_iff.mpr (.inr (.inr (hswept.keeps_iff.mpr ⟨k, hkept⟩)))
  · exact Reclaimer.alive_of_mem_released_sweep hreleased

namespace Valid

variable {c : Custody κ (Table κ Handle)}

variable [Std.LawfulEqOrd κ]

theorem size_record (h : c.Valid) (visit : Visit) :
    (c.step visit .size).past = (.size, .count (c.layer.reclaimer.retainedSize +
      c.layer.reclaimer.releasedSize + (unread c.past).length)) :: c.past := by
  have hdrained := h.coherent.drain ((c.around visit).also c.layer.pinned)
  rw [step, perform_eq Soft.size_yields]
  exact congrArg (fun n => (Act.size, Answer.count n) :: c.past) (hdrained.size_eq rfl)

/-- A sweep followed by a drain leaves no entry behind that could not be read. -/
theorem entry_after_sweep (h : c.Valid) (visit visit' : Visit) {k : κ} {entry : Option Handle}
    (hk : ((c.step visit .sweep).step visit' .size).layer.below.entries[k]? = some entry) :
    (∃ v, entry = some (.ofValue v) ∧
        ((c.step visit .sweep).step visit' .size).alive v = true) ∨
      (entry = some .dead ∧ k ∈ unread ((c.step visit .sweep).step visit' .size).past) := by
  have hsized := (h.sweep visit).size visit'
  -- a drain changes neither what is followed nor what is alive
  have hlive : ∀ v, (c.step visit .sweep).layer.reclaimer.tracked k = some v →
      (c.step visit .sweep).alive v = true := fun v => alive_of_tracked_sweep h.coherent.sound visit
  generalize c.step visit .sweep = c₁ at hsized hlive hk ⊢
  rw [step, perform_eq Soft.size_yields] at hsized hk ⊢
  refine (hsized.coherent.entry_of_unposted rfl hk).imp_left ?_
  rintro ⟨v, rfl, hv⟩
  exact ⟨v, rfl, hlive v hv⟩

end Valid

variable [Std.LawfulEqOrd κ]

/-- **Nothing stays behind, and sizes are exact.** Whatever callers do with a soft layer over a base
store and with the values they make, the keys of the base store are, each once, those of retained
values, those of released values, some posted ones whose entries have dead values, and those of
unread misses. A size is the sum of the first, the second and the last; and after a sweep and a size
every entry left is that of a live value or an unread miss. -/
theorem keys_partition {settings : SoftSettings} (hcap : 0 < settings.softCapacity)
    (name : String) :
    ∃ c₀ : Custody κ (Table κ Handle), start settings (Table.named name) = .ok c₀ ∧
      ∀ acts : List (Visit × Act κ),
        let c := c₀.run acts
        let r := c.layer.reclaimer
        (∃ waiting, (∀ k ∈ waiting, k ∈ r.posted ∧
            ∃ v, c.layer.below.entries[k]? = some (some (.ofValue v)) ∧ c.alive v = false) ∧
          ((r.kept.keys ++ r.released.keys) ++ (waiting ++ unread c.past)).Nodup ∧
          c.layer.below.entries.keys.Perm
            ((r.kept.keys ++ r.released.keys) ++ (waiting ++ unread c.past))) ∧
        (∀ visit, (c.step visit .size).past =
          (.size, .count (r.retainedSize + r.releasedSize + (unread c.past).length)) :: c.past) ∧
        ∀ visit visit',
          let c' := (c.step visit .sweep).step visit' .size
          ∀ k entry, c'.layer.below.entries[k]? = some entry →
            (∃ v, entry = some (.ofValue v) ∧ c'.alive v = true) ∨
              (entry = some .dead ∧ k ∈ unread c'.past) := by
  obtain ⟨c₀, hstart, -⟩ := start_eq (κ := κ) hcap (Table.named name : Table κ Handle)
  refine ⟨c₀, hstart, fun acts => ?_⟩
  have h := valid_run (valid_start hstart) acts
  refine ⟨⟨_, fun k hk => ?_, ?_, h.coherent.keys_perm⟩, h.size_record,
    fun visit visit' k entry => h.entry_after_sweep visit visit'⟩
  · exact ⟨(Coherent.mem_waiting.mp hk).1, h.coherent.dead_of_mem_waiting hk⟩
  · exact h.coherent.keys_perm.nodup_iff.mp Std.ExtTreeMap.nodup_keys

/-- One value retained, one gone whose entry is still there, and one miss. -/
theorem keys_of_each_kind :
    0 < 1 ∧ ∃ c₀ : Custody Nat (Table Nat Handle),
      start ⟨0, 1⟩ (Table.named "users") = .ok c₀ ∧
        let c := c₀.run ([.make "a", .write 1 ⟨0, "a"⟩, .make "b", .write 2 ⟨1, "b"⟩, .writeMiss 3,
          .drop ⟨0, "a"⟩, .drop ⟨1, "b"⟩, .sweep].map (Visit.asListed, ·))
        c.layer.below.entries.keys = [1, 2, 3] ∧
        (c.step .asListed .size).past.head? = some (.size, .count 2) := by
  have hcap : 0 < (⟨0, 1⟩ : SoftSettings).softCapacity := by decide
  obtain ⟨c₀, hstart, h⟩ := keys_partition (κ := Nat) hcap "users"
  refine ⟨hcap, c₀, hstart, ?_⟩
  obtain ⟨-, hsize, -⟩ := h ([.make "a", .write 1 ⟨0, "a"⟩, .make "b", .write 2 ⟨1, "b"⟩,
    .writeMiss 3, .drop ⟨0, "a"⟩, .drop ⟨1, "b"⟩, .sweep].map (Visit.asListed, ·))
  dsimp only
  rw [hsize]
  cases Except.ok.inj hstart
  exact ⟨rfl, rfl⟩

end Custody

end SoftTier
