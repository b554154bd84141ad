import Mathlib.Algebra.GroupWithZero.Nat
import Mathlib.Data.List.Dedup
import SoftTier.Proofs.Reclaimer.Episodes
import SoftTier.Proofs.Service.Sessions

/-!
# Memory under constant pressure

If all retention is given up after every session, no value outlasts the session that loaded it: the
buffer keeps it until the commit is through, retention until the pressure that follows, and then
nobody does. So every lookup loads a row, and the pressure after a commit reclaims one value for
each key that the session has looked up, however many of them retention had room for. Handles of
values that are gone still lie around in the base store; that none of them gives a value back is
told from the tags, as those of the session's own values are higher.

- `Table.Older`: the handles stored are those of values made before.
- `Soft.Follows`: the values followed, the number reclaimed so far, and old handles.
- `Follows.looked`, `Follows.write`, `Follows.writeMiss`, `Follows.shrink`: each operation.
- `Service.steps_follows`: sessions, each with the pressure after it.
- `Service.constant_pressure`: every lookup loads a row, and what is loaded and committed is
  reclaimed.
-/

namespace SoftTier

namespace Table

variable {κ : Type} [Ord κ] [Std.TransOrd κ]

/-- Each handle stored is dead or that of a value with a tag below `tag`. -/
def Older (tag : Nat) (t : Table κ Handle) : Prop :=
  ∀ (k : κ) (v : Value), t.entries[k]? = some (some (.ofValue v)) → v.tag < tag

variable {tag : Nat} {t : Table κ Handle}

theorem Older.mono (h : t.Older tag) {tag' : Nat} (htag : tag ≤ tag') : t.Older tag' :=
  fun k v hv => Nat.lt_of_lt_of_le (h k v hv) htag

variable [DecidableEq κ] [Std.LawfulEqOrd κ]

theorem Older.remove (h : t.Older tag) (k : κ) : (t.remove k).Older tag := by
  intro k' v hv
  rw [getElem?_remove] at hv
  split at hv
  · exact absurd hv (by simp)
  · exact h k' v hv

theorem Older.removeWhere (h : t.Older tag) (dead : κ → Bool) (l : List κ) :
    (t.removeWhere dead l).Older tag := by
  intro k v hv
  rw [getElem?_removeWhere] at hv
  split at hv
  · exact absurd hv (by simp)
  · exact h k v hv

theorem Older.put (h : t.Older tag) (k : κ) {handle : Handle}
    (hhandle : ∀ v, handle = .ofValue v → v.tag < tag) : (t.put k (some handle)).Older tag := by
  intro k' v hv
  rw [getElem?_put] at hv
  split at hv
  · exact hhandle v (Option.some.inj (Option.some.inj hv))
  · exact h k' v hv

end Table

namespace Soft

variable {κ : Type} [DecidableEq κ] [Ord κ] [Std.TransOrd κ]

/-- The values that a layer without pins follows, and the number reclaimed so far. All handles below
it are those of values with a tag below `tag`. -/
structure Follows (tag : Nat) (followed : Assoc κ Value) (count : Nat)
    (s : Soft κ (Table κ Handle)) : Prop where
  sound : s.reclaimer.Sound
  pinned_eq : s.pinned = []
  tracked_eq : ∀ k, s.reclaimer.tracked k = Assoc.get? k followed
  reclaimed_eq : s.reclaimer.reclaimed = .ofNat count
  older : s.below.Older tag

namespace Follows

variable {tag count : Nat} {followed : Assoc κ Value} {s : Soft κ (Table κ Handle)} {env : Ambient}

theorem mono (h : Follows tag followed count s) {tag' : Nat} (htag : tag ≤ tag') :
    Follows tag' followed count s :=
  { h with older := h.older.mono htag }

/-- Without pins a value is held by what is around the layer or not at all. -/
theorem held_pinned (h : Follows tag followed count s) (env : Ambient) :
    (env.also s.pinned).held = env.held := by
  rw [h.pinned_eq]
  exact funext fun v => Bool.or_false (env.held v)

variable [Std.LawfulEqOrd κ]

theorem drained (h : Follows tag followed count s) (env : Ambient) :
    Follows tag followed count (s.drained env) where
  sound := h.sound.reposted []
  pinned_eq := h.pinned_eq
  tracked_eq := h.tracked_eq
  reclaimed_eq := h.reclaimed_eq
  older := h.older.removeWhere _ _

/-- Forgetting a key when nothing is followed. -/
theorem forget (h : Follows tag [] count s) (k : κ) {t : Table κ Handle} (ht : t.Older tag) :
    Follows tag [] count { s with reclaimer := s.reclaimer.forget k, below := t } := by
  have hs := Reclaimer.forget_settled h.sound .alone k
  refine { sound := hs.sound, pinned_eq := h.pinned_eq, tracked_eq := fun k' => ?_,
           reclaimed_eq := h.reclaimed_eq, older := ht }
  refine (hs.stays k' List.not_mem_nil).trans ?_
  rw [Function.update_apply]
  split
  · rfl
  · exact h.tracked_eq k'

/-- If nothing is followed and only newer values are held, nothing can be read. -/
theorem looked (h : Follows tag [] count s) (hnewer : ∀ v, env.held v = true → tag ≤ v.tag)
    (k : κ) : (s.looked env k).1 = none ∧ Follows tag [] count (s.looked env k).2 := by
  have hkept : ∀ v, keeps s.reclaimer v = false := by
    intro v
    refine Bool.eq_false_iff.mpr fun hv => ?_
    obtain ⟨k', hmem⟩ := h.sound.keeps_iff.mp hv
    have htracked := (Reclaimer.tracked_of_mem_kept h.sound hmem).symm.trans (h.tracked_eq k')
    exact absurd htracked (by simp [Assoc.get?])
  rw [Soft.looked]
  cases hentry : s.below.entries[k]? with
  | none =>
    rw [Table.value?_eq hentry]
    exact ⟨rfl, h⟩
  | some entry =>
    rw [Table.value?_eq hentry]
    cases entry with
    | none => exact ⟨rfl, h⟩
    | some handle =>
      have hdead : handle.upgrade (s.alive env) = none := by
        -- an old value is neither retained nor pinned, and all that is held is newer
        refine Option.eq_none_iff_forall_ne_some.mpr fun v hv => ?_
        obtain ⟨htarget, halive⟩ := Handle.upgrade_eq_some_iff.mp hv
        rw [alive, Reclaimer.alive, h.held_pinned, hkept, Bool.or_false] at halive
        have hold := h.older k v (hentry.trans (congrArg (some <| some <| Handle.mk ·) htarget))
        exact absurd (hnewer v halive) (by omega)
      dsimp only [Option.join_some]
      rw [hdead]
      exact ⟨rfl, h.forget k (h.older.remove k)⟩

/-- A miss when nothing is followed. -/
theorem writeMiss (h : Follows tag [] count s) (env : Ambient) (k : κ) :
    Follows tag [] count (s.sent env (k, none)) :=
  (h.drained env).forget k ((h.drained env).older.put k fun v hv =>
    absurd (congrArg Handle.target hv) (Option.some_ne_none v).symm)

/-- A value written is followed from then on, with all that were and are held. -/
theorem write (h : Follows tag followed count s)
    (hheld : ∀ k v, (k, v) ∈ followed → env.held v = true) (k : κ) {v : Value}
    (hv : v.tag < tag) :
    Follows tag ((k, v) :: followed) count (s.sent env (k, some v)) := by
  have hd := h.drained (env.also v)
  have hheld' : ∀ k' w, (s.drained (env.also v)).reclaimer.tracked k' = some w →
      ((env.also v).also s.pinned).held w = true := by
    intro k' w hw
    have hmem := Assoc.mem_of_get?_eq_some ((hd.tracked_eq k').symm.trans hw)
    simp [hheld k' w hmem]
  obtain ⟨hreclaimed, htracked⟩ := Reclaimer.retain_held hd.sound hheld' k v
  refine { sound := ?_, pinned_eq := h.pinned_eq, tracked_eq := fun k' => ?_,
           reclaimed_eq := hreclaimed.trans hd.reclaimed_eq,
           older := hd.older.put k fun w hw => ?_ }
  · exact (Reclaimer.retain_settled hd.sound _ k v).2.choose_spec.sound
  · refine (congrFun htracked k').trans ?_
    rw [Function.update_apply, Assoc.get?, hd.tracked_eq]
    by_cases hkk : k = k'
    · simp [hkk]
    · simp [hkk, Ne.symm hkk]
  · cases hw
    exact hv

/-- Giving up all retention when nothing is held. -/
theorem shrink (h : Follows tag followed count s) (hheld : ∀ v, env.held v = false)
    (hnodup : followed.keys.Nodup) : Follows tag [] (count + followed.length)
      { s with reclaimer := (s.reclaimer.shrink (env.also s.pinned) 0).2 } := by
  have hheld' : ∀ v, (env.also s.pinned).held v = false := fun v =>
    (congrFun (h.held_pinned env) v).trans (hheld v)
  obtain ⟨hreclaimed, hnone⟩ := Reclaimer.shrink_zero h.sound hheld' hnodup h.tracked_eq
  exact { sound := (Reclaimer.shrink_settled h.sound (env.also s.pinned) 0).choose_spec.sound
          pinned_eq := h.pinned_eq
          tracked_eq := hnone
          reclaimed_eq := by rw [hreclaimed, h.reclaimed_eq, UInt64.ofNat_add]
          older := h.older }

theorem writeMisses (h : Follows tag [] count s) (env : Ambient) (l : List κ) :
    Follows tag [] count ((l.map (·, none)).foldl (sent env) s) := by
  induction l generalizing s with
  | nil => exact h
  | cons k l ih => exact ih (h.writeMiss env k)

/-- Values written while all of them are held. -/
theorem writes (h : Follows tag followed count s)
    (hheld : ∀ k v, (k, v) ∈ followed → env.held v = true) {es : Assoc κ (Option Value)}
    (hvalued : ∀ e ∈ es, e.2.isSome)
    (hes : ∀ k v, (k, some v) ∈ es → env.held v = true ∧ v.tag < tag) :
    Follows tag (es.valued.reverse ++ followed) count (es.foldl (sent env) s) := by
  induction es generalizing followed s with
  | nil => exact h
  | cons e es ih =>
    obtain ⟨k, entry⟩ := e
    obtain ⟨v, rfl⟩ := Option.isSome_iff_exists.mp (hvalued _ List.mem_cons_self)
    obtain ⟨hv, htag⟩ := hes k v List.mem_cons_self
    have hheld' : ∀ k' w, (k', w) ∈ (k, v) :: followed → env.held w = true := by
      intro k' w hw
      rcases List.mem_cons.mp hw with heq | hw
      · exact (Prod.mk.inj heq).2 ▸ hv
      · exact hheld k' w hw
    have hrest := ih (h.write hheld k htag) hheld'
      (fun e he => hvalued e (List.mem_cons_of_mem _ he))
      fun k' w hw => hes k' w (List.mem_cons_of_mem _ hw)
    have hvalues : Assoc.valued ((k, some v) :: es) = (k, v) :: Assoc.valued es := rfl
    rw [hvalues, List.reverse_cons, List.append_assoc]
    exact hrest

end Follows

end Soft

namespace Service

open Soft (Follows)

variable {layers : List Layer} {env : Ambient} {tag count : Nat} {asked : List Nat}

/-- A session that has found nothing yet: it has loaded a row for every lookup, and the last one for
each key waits in its buffer. -/
structure Progress.Missing (tag count : Nat) (asked : List Nat) (p : Progress layers) : Prop where
  follows : p.core.Follows tag [] count
  loads_eq : p.loads = asked.length
  mem_pending : ∀ k, k ∈ p.buffer.pending.keys ↔ k ∈ asked
  tags : ∀ k v, (k, some v) ∈ p.buffer.pending → tag ≤ v.tag ∧ v.tag < tag + p.loads

namespace Progress.Missing

variable {p : Progress layers}

/-- Nothing is found: the values of the layer are gone, and those of the session are newer. -/
theorem looked (h : p.Missing tag count asked) (hheld : ∀ v, env.held v = false) (key : Nat) :
    p.found env key = none ∧
      (p.core.looked (env.also p.buffer) key).2.Follows tag [] count := by
  refine h.follows.looked (fun v hv => ?_) key
  rw [Ambient.held_also, hheld, Bool.false_or, Buffer.keeps_iff] at hv
  obtain ⟨k, hmem⟩ := hv
  exact (h.tags k v hmem).1

/-- One lookup more. -/
theorem lookUp (h : p.Missing tag count asked) (hheld : ∀ v, env.held v = false) (key : Nat) :
    (p.lookUp env tag key).Missing tag count (asked ++ [key]) := by
  obtain ⟨hfound, hfollows⟩ := h.looked hheld key
  have hbuffer : (p.lookUp env tag key).buffer =
      (p.buffer.miss key).put key (some (row (tag + p.loads) key)) := by
    rw [Progress.lookUp, hfound]
  have hloads : (p.lookUp env tag key).loads = p.loads + 1 := by
    rw [loads_lookUp, hfound]
    rfl
  refine { follows := by rwa [core_lookUp], loads_eq := ?_, mem_pending := fun k => ?_,
           tags := fun k v hv => ?_ }
  · rw [hloads, h.loads_eq, List.length_append]
    rfl
  · rw [mem_pending_lookUp, h.mem_pending, List.mem_append, List.mem_singleton, or_comm]
    exact or_congr_right (and_iff_left hfound)
  · rw [hbuffer] at hv
    rw [hloads]
    rcases Assoc.mem_of_mem_insert hv with heq | hv
    · cases heq
      exact ⟨Nat.le_add_right .., Nat.lt_succ_self _⟩
    · obtain ⟨hle, hlt⟩ := h.tags k v hv
      exact ⟨hle, Nat.lt_succ_of_lt hlt⟩

/-- What is followed when a session has ended: a value for each key it has looked up, if it was a
commit. -/
theorem ended (h : p.Missing tag count asked) (hloaded : p.buffer.Loaded) (env : Ambient)
    (rollsBack : Bool) :
    ∃ followed : Assoc Nat Value, followed.keys.Nodup ∧
      followed.length = (if rollsBack then 0 else asked.dedup.length) ∧
      (p.ended env rollsBack).base.Follows (tag + p.loads) followed count := by
  have hfollows := h.follows.mono (Nat.le_add_right tag p.loads)
  rw [Progress.ended, Stack.base_foldl_sent]
  cases rollsBack with
  | true => exact ⟨[], List.nodup_nil, rfl, hfollows.writeMisses _ _⟩
  | false =>
    obtain ⟨hperm, hnodup, hvalued⟩ := sends_commit hloaded env
    have hkeys := Assoc.keys_valued hvalued
    have hasked : (p.sends env false).keys.Perm asked.dedup := by
      refine (List.perm_ext_iff_of_nodup hnodup (List.nodup_dedup asked)).mpr fun k => ?_
      rw [List.mem_dedup, ← h.mem_pending k]
      exact (hperm.map Prod.fst).mem_iff
    -- what is sent still waits in the buffer, which keeps it alive
    have hwaits : ∀ k v, (k, some v) ∈ p.sends env false →
        (env.also p.buffer).held v = true ∧ v.tag < tag + p.loads := by
      intro k v hv
      have hmem := hperm.mem_iff.mp hv
      have hkeeps : keeps p.buffer v = true := Buffer.keeps_iff.mpr ⟨k, hmem⟩
      exact ⟨by simp [hkeeps], (h.tags k v hmem).2⟩
    have hwrites := hfollows.writes (fun k v hv => absurd hv List.not_mem_nil) hvalued hwaits
    rw [List.append_nil] at hwrites
    refine ⟨_, ?_, ?_, hwrites⟩
    · rw [Assoc.keys, List.map_reverse, List.nodup_reverse, ← Assoc.keys, hkeys]
      exact hnodup
    · rw [if_neg Bool.false_ne_true, ← hasked.length_eq, ← hkeys, List.length_reverse, Assoc.keys,
        List.length_map]

end Progress.Missing

/-- No lookup of a session finds anything. -/
theorem progress_missing {stack : Stack Nat Value Core layers} (h : stack.base.Follows tag [] count)
    (hheld : ∀ v, env.held v = false) (t : Traffic) (i n : Nat) :
    (progress env t i tag stack n).Missing tag count ((List.range n).map (t.key i)) := by
  induction n with
  | zero =>
    refine { follows := h, loads_eq := rfl, mem_pending := fun k => ?_, tags := fun k v hv => ?_ }
    · simp [progress, Progress.start, Assoc.keys]
    · exact absurd hv List.not_mem_nil
  | succ n ih =>
    rw [List.range_succ, List.map_append]
    exact ih.lookUp hheld (t.key i n)

/-- The number of values that the first sessions of some traffic commit. -/
def committed (t : Traffic) (n : Nat) : Nat :=
  (((List.range n).filter fun i => !t.rollsBack i).map fun i => (t.keysOf i).dedup.length).sum

theorem committed_succ (t : Traffic) (n : Nat) : committed t (n + 1) =
    committed t n + if t.rollsBack n then 0 else (t.keysOf n).dedup.length := by
  rw [committed, List.range_succ, List.filter_append, List.map_append, List.sum_append, committed]
  cases h : t.rollsBack n <;> simp [h]

/-- Sessions with the memory under pressure after each load all they look up, and what they commit
is reclaimed. -/
theorem steps_follows {t : Traffic} (hpressure : t.pressureEvery = 1)
    (hheld : ∀ v, env.held v = false) {c : Service} (h : c.soft.Follows c.nextTag [] count)
    (n : Nat) :
    (steps env t c n).2.soft.Follows (steps env t c n).2.nextTag [] (count + committed t n) ∧
      (steps env t c n).1.loads = n * t.reads := by
  induction n with
  | zero => exact ⟨h, (Nat.zero_mul _).symm⟩
  | succ n ih =>
    rw [steps]
    generalize steps env t c n = p at ih
    obtain ⟨hn, hloads⟩ := ih
    have hmissing := progress_missing hn hheld t n t.reads
    have hloaded := progress_loaded env t n p.2.nextTag p.2.stack t.reads
    obtain ⟨followed, hnodup, hlength, hended⟩ := hmissing.ended hloaded env (t.rollsBack n)
    have hpresses : t.pressesAfter n = true := by
      rw [Traffic.pressesAfter, hpressure, Nat.mod_one]
      rfl
    constructor
    · have hkeys : (if t.rollsBack n then 0 else (t.keysOf n).dedup.length) = followed.length :=
        hlength.symm
      rw [stepped, hpresses, committed_succ, ← Nat.add_assoc, hkeys]
      dsimp only
      rw [if_pos rfl, soft_pressed]
      exact hended.shrink hheld hnodup
    · rw [loads_stepped, hloads, hmissing.loads_eq, List.length_map, List.length_range,
        Nat.succ_mul]

/-- A new service follows nothing. -/
theorem ofSettings_follows {settings : ServiceSettings} (hcap : 0 < settings.soft.softCapacity) :
    ∃ c₀, ofSettings settings = .ok c₀ ∧ c₀.layers = layersOf settings ∧
      c₀.soft.Follows c₀.nextTag [] 0 := by
  obtain ⟨r, hr, hc₀⟩ := ofSettings_eq hcap
  obtain ⟨hsound, -, htracked⟩ := Reclaimer.ofCapacity_sound hr
  have hreclaimed : r.reclaimed = 0 := by
    rw [Reclaimer.ofCapacity_eq hcap] at hr
    rw [← Except.ok.inj hr]
  refine ⟨_, hc₀, rfl, ?_⟩
  rw [soft, Stack.base_fresh]
  refine { sound := hsound, pinned_eq := rfl, tracked_eq := htracked, reclaimed_eq := hreclaimed,
           older := fun k v hv => ?_ }
  have hempty : (Table.named settings.id : Table Nat Handle).entries[k]? = none :=
    Std.ExtTreeMap.getElem?_empty
  rw [hempty] at hv
  exact absurd hv (by simp)

/-- The values committed are among those loaded. -/
theorem committed_le (t : Traffic) (n : Nat) : committed t n ≤ n * t.reads := by
  induction n with
  | zero => exact Nat.zero_le _
  | succ n ih =>
    have hkeys : (t.keysOf n).length = t.reads := by
      rw [Traffic.keysOf, List.length_map, List.length_range]
    have hdedup : (t.keysOf n).dedup.length ≤ t.reads := hkeys ▸ (List.dedup_sublist _).length_le
    rw [committed_succ, Nat.succ_mul]
    split <;> omega

/-- **Constant pressure.** If the memory is under pressure after every session and nobody else holds
a value, then a new service finds nothing, however much it could retain or pin: every lookup loads a
row. The rows that were committed are reclaimed, one for each key that the session has looked up,
and the count is exact as long as it does not wrap around. -/
theorem constant_pressure {settings : ServiceSettings} (hcap : 0 < settings.soft.softCapacity) :
    ∃ c₀, ofSettings settings = .ok c₀ ∧
      ∀ (visit : Visit) (t : Traffic), t.pressureEvery = 1 →
        let env : Ambient := ⟨fun _ => false, visit⟩
        (∀ i < t.sessions, ∀ n ≤ t.reads,
          (lookUps env t i n (afterSessions env t i c₀)).result = .ok n) ∧
        ∃ summary, (run t env c₀).result = .ok summary ∧
          summary.loads = t.sessions * t.reads ∧
          (t.sessions * t.reads < UInt64.size → summary.reclaimed.toNat =
            (((List.range t.sessions).filter fun i => !t.rollsBack i).map fun i =>
              (t.keysOf i).dedup.length).sum) := by
  obtain ⟨c₀, hc₀, hlayers₀, h₀⟩ := ofSettings_follows hcap
  refine ⟨c₀, hc₀, fun visit t hpressure => ?_⟩
  intro env
  have hl : .session ∉ c₀.layers := hlayers₀ ▸ session_notin_layersOf settings
  have hsteps := steps_follows hpressure (fun v => (rfl : env.held v = false)) h₀
  constructor
  · intro i _ n _
    have hl' : .session ∉ (afterSessions env t i c₀).layers :=
      (layers_afterSessions env hl t i).symm ▸ hl
    have hfollows := (hsteps i).1
    rw [← afterSessions_eq env hl] at hfollows
    have hmissing := progress_missing hfollows (fun v => (rfl : env.held v = false)) t i n
    rw [lookUps_result env hl', hmissing.loads_eq, List.length_map, List.length_range]
  · obtain ⟨hfollows, hallLoads⟩ := hsteps t.sessions
    obtain ⟨summary, hrun, -, -, hloads, hreclaimed, -⟩ := run_yields env hl t
    refine ⟨summary, hrun.result_eq, hloads.trans hallLoads, fun hbound => ?_⟩
    rw [hreclaimed, hfollows.reclaimed_eq, Nat.zero_add]
    exact UInt64.toNat_ofNat_of_lt' (Nat.lt_of_le_of_lt (committed_le t t.sessions) hbound)

/-- Three sessions of five lookups, where retention has room for one value. The second one commits,
and its five lookups are of four keys. -/
theorem one_commit_is_reclaimed :
    let settings : ServiceSettings := ⟨"users", ⟨0, 1⟩, false⟩
    let t : Traffic := ⟨3, 4, 5, 2, 1⟩
    0 < settings.soft.softCapacity ∧ t.pressureEvery = 1 ∧ t.sessions * t.reads < UInt64.size ∧
      ∃ c₀ summary, ofSettings settings = .ok c₀ ∧ (run t .alone c₀).result = .ok summary ∧
        summary.loads = 15 ∧ summary.reclaimed.toNat = 4 := by
  intro settings t
  have hcap : 0 < settings.soft.softCapacity := by decide
  obtain ⟨c₀, hc₀, h⟩ := constant_pressure hcap
  obtain ⟨-, summary, hrun, hloads, hreclaimed⟩ := h .asListed t rfl
  exact ⟨hcap, rfl, by decide, c₀, summary, hc₀, hrun, hloads,
    (hreclaimed (by decide)).trans (by decide)⟩

end Service

end SoftTier
