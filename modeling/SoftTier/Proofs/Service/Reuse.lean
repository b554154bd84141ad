import Mathlib.Algebra.GroupWithZero.Nat
import Mathlib.Data.List.Dedup
import SoftTier.Proofs.Reclaimer.Episodes
import SoftTier.Proofs.Service.Sessions

/-!
# Which lookups load a row

As long as all keys that are ever looked up fit into soft retention and the memory is never under
pressure, nothing is evicted. So the keys that committed sessions have looked up stay readable, and
just those: a session that rolls back leaves misses, and rows that wait for a commit cannot be read.

- `Traffic.published`: the keys looked up by the sessions that committed.
- `Soft.Stocked`: these keys have a retained value each, and no other key has any.
- `Stocked.looked`, `Stocked.write`, `Stocked.writeMiss`: a lookup and what an end sends.
- `Service.steps_stocked`, `Service.runs_stocked`: sessions and runs.
- `Service.published_keys_load_once`: a lookup loads a row exactly if its key is not published.
-/

namespace SoftTier

namespace Traffic

/-- The keys that the first sessions look up. -/
def keysBefore (t : Traffic) (n : Nat) : List Nat := (List.range n).flatMap t.keysOf

/-- The keys that those of the first sessions look up that commit. -/
def published (t : Traffic) (n : Nat) : List Nat :=
  ((List.range n).filter fun i => !t.rollsBack i).flatMap t.keysOf

theorem published_succ (t : Traffic) (n : Nat) :
    t.published (n + 1) = t.published n ++ if t.rollsBack n then [] else t.keysOf n := by
  rw [published, List.range_succ, List.filter_append, List.flatMap_append, published]
  cases h : t.rollsBack n <;> simp [h]

theorem published_subset (t : Traffic) {n m : Nat} (h : n ≤ m) :
    t.published n ⊆ t.keysBefore m := by
  intro k hk
  obtain ⟨i, hi, hk⟩ := List.mem_flatMap.mp hk
  have hlt := List.mem_range.mp (List.mem_filter.mp hi).1
  exact List.mem_flatMap.mpr ⟨i, List.mem_range.mpr (by omega), hk⟩

theorem keysOf_subset (t : Traffic) {i n : Nat} (h : i < n) : t.keysOf i ⊆ t.keysBefore n :=
  fun _ hk => List.mem_flatMap.mpr ⟨i, List.mem_range.mpr h, hk⟩

end Traffic

namespace Soft

variable {κ : Type} [DecidableEq κ] [Ord κ] [Std.TransOrd κ]

/-- With no key posted there is nothing to drain. -/
theorem drained_eq_self (env : Ambient) {s : Soft κ (Table κ Handle)}
    (h : s.reclaimer.posted = []) : s.drained env = s := by
  rw [drained, h]
  obtain ⟨pinned, pinCapacity, ⟨retained, released, posted, reclaimed⟩, below⟩ := s
  cases h
  rfl

/-- The keys listed have a retained value each, which is stored under them; under other keys nothing
is followed and nothing stored but misses. -/
structure Stocked (capacity : Nat) (keys : List κ) (s : Soft κ (Table κ Handle)) : Prop where
  sound : s.reclaimer.Sound
  softCapacity_eq : s.reclaimer.softCapacity = capacity
  posted_eq : s.reclaimer.posted = []
  stored : ∀ k ∈ keys, ∃ v, (k, v) ∈ s.reclaimer.kept ∧
    s.below.entries[k]? = some (some (.ofValue v))
  others : ∀ k, k ∉ keys → s.reclaimer.tracked k = none ∧
    (s.below.entries[k]? = none ∨ s.below.entries[k]? = some (some .dead))

namespace Stocked

variable {capacity : Nat} {keys all : List κ} {s : Soft κ (Table κ Handle)} {env : Ambient} {k : κ}

/-- It matters which keys are listed, not how. -/
theorem congr {keys' : List κ} (h : Stocked capacity keys s) (hkeys : ∀ k, k ∈ keys' ↔ k ∈ keys) :
    Stocked capacity keys' s :=
  { h with
    stored := fun k hk => h.stored k ((hkeys k).mp hk)
    others := fun k hk => h.others k fun hk' => hk ((hkeys k).mpr hk') }

/-- A value retained under a listed key, and under no other. -/
theorem mem_keys_kept (h : Stocked capacity keys s) : k ∈ s.reclaimer.kept.keys ↔ k ∈ keys := by
  constructor
  · intro hk
    by_contra hnot
    exact (Reclaimer.tracked_eq_none_iff.mp (h.others k hnot).1).1 hk
  · intro hk
    obtain ⟨v, hv, -⟩ := h.stored k hk
    exact Assoc.mem_keys_of_mem hv

/-- There is room for one key more as long as all of them fit. -/
theorem length_kept_lt (h : Stocked capacity keys s) (hall : all.dedup.length ≤ capacity)
    (hkeys : keys ⊆ all) (hk : k ∈ all) (hnew : k ∉ keys) :
    s.reclaimer.kept.length < capacity := by
  -- the new key and those retained are different keys, and all of them have to fit
  have hnodup : (k :: s.reclaimer.kept.keys).Nodup :=
    List.nodup_cons.mpr ⟨fun hmem => hnew (h.mem_keys_kept.mp hmem), h.sound.kept_nodup⟩
  have hsub : k :: s.reclaimer.kept.keys ⊆ all.dedup := by
    intro k' hk'
    rw [List.mem_dedup]
    rcases List.mem_cons.mp hk' with rfl | hk'
    · exact hk
    · exact hkeys (h.mem_keys_kept.mp hk')
  have hlen := (hnodup.subperm hsub).length_le
  rw [List.length_cons, Assoc.keys, List.length_map] at hlen
  omega

/-- A listed key has a value, and reading it changes nothing of this. -/
theorem looked_listed (h : Stocked capacity keys s) (env : Ambient) (hk : k ∈ keys) :
    (s.looked env k).1.isSome ∧ Stocked capacity keys (s.looked env k).2 := by
  obtain ⟨v, hv, hentry⟩ := h.stored k hk
  have halive : s.alive env v = true := by
    have hkeeps := h.sound.keeps_iff.mpr ⟨k, hv⟩
    simp [alive, Reclaimer.alive, hkeeps]
  have hupgrade : (Handle.ofValue v).upgrade (s.alive env) = some v := by
    rw [Handle.upgrade_ofValue, if_pos halive]
  obtain ⟨retained, hrefresh, hr⟩ := Reclaimer.refresh_of_mem h.sound (env.also s.pinned) hv v
  obtain ⟨-, hs⟩ := Reclaimer.touch_settled h.sound (env.also s.pinned) hv hr
  rw [looked, Table.value?_eq hentry]
  dsimp only [Option.join_some]
  rw [hupgrade]
  dsimp only
  rw [hrefresh]
  refine ⟨rfl, { sound := hs.sound, softCapacity_eq := ?_, posted_eq := ?_, stored := ?_,
                 others := ?_ }⟩
  · exact hr.capacity_eq.trans h.softCapacity_eq
  · exact h.posted_eq
  · intro k' hk'
    obtain ⟨w, hw, hentry'⟩ := h.stored k' hk'
    refine ⟨w, ?_, hentry'⟩
    have hkept : ({ s.reclaimer with retained } : Reclaimer κ).kept =
        (k, v) :: Assoc.erase k s.reclaimer.kept := hr.toList_eq
    rw [hkept]
    by_cases hkk : k' = k
    · subst hkk
      have heq := List.inj_on_of_nodup_map h.sound.kept_nodup hv hw rfl
      exact heq ▸ List.mem_cons_self
    · exact List.mem_cons_of_mem _ (Assoc.mem_erase.mpr ⟨hw, hkk⟩)
  · intro k' hk'
    exact ⟨(hs.stays k' List.not_mem_nil).trans (h.others k' hk').1, (h.others k' hk').2⟩

variable [Std.LawfulEqOrd κ]

/-- Forgetting a key that is not listed. -/
theorem forget (h : Stocked capacity keys s) (hk : k ∉ keys) {t : Table κ Handle}
    (hself : t.entries[k]? = none ∨ t.entries[k]? = some (some .dead))
    (hother : ∀ k', k' ≠ k → t.entries[k']? = s.below.entries[k']?) :
    Stocked capacity keys { s with reclaimer := s.reclaimer.forget k, below := t } := by
  have hs := Reclaimer.forget_settled h.sound .alone k
  refine { sound := hs.sound, softCapacity_eq := ?_, posted_eq := h.posted_eq, stored := ?_,
           others := ?_ }
  · exact (Reclaimer.softCapacity_forget h.sound k).trans h.softCapacity_eq
  · intro k' hk'
    have hne : k' ≠ k := fun heq => hk (heq ▸ hk')
    obtain ⟨v, hv, hentry⟩ := h.stored k' hk'
    refine ⟨v, ?_, (hother k' hne).trans hentry⟩
    show (k', v) ∈ (s.reclaimer.forget k).kept
    rw [Reclaimer.kept_forget h.sound]
    exact Assoc.mem_erase.mpr ⟨hv, hne⟩
  · intro k' hk'
    refine ⟨(hs.stays k' List.not_mem_nil).trans ?_, ?_⟩
    · rw [Function.update_apply]
      split
      · rfl
      · exact (h.others k' hk').1
    · by_cases hkk : k' = k
      · exact hkk ▸ hself
      · show t.entries[k']? = none ∨ t.entries[k']? = some (some .dead)
        rw [hother k' hkk]
        exact (h.others k' hk').2

/-- Any other key has none, and reading it takes at most a miss out. -/
theorem looked_unlisted (h : Stocked capacity keys s) (env : Ambient) (hk : k ∉ keys) :
    (s.looked env k).1 = none ∧ Stocked capacity keys (s.looked env k).2 := by
  rw [looked]
  rcases (h.others k hk).2 with hentry | hentry
  · rw [Table.value?_eq hentry]
    exact ⟨rfl, h⟩
  · rw [Table.value?_eq hentry]
    dsimp only [Option.join_some]
    rw [Handle.upgrade_dead]
    refine ⟨rfl, h.forget hk (.inl ?_) fun k' hne => ?_⟩
    · rw [Table.getElem?_remove, if_pos rfl]
    · rw [Table.getElem?_remove, if_neg hne.symm]

/-- What is found is told by whether the key is listed. -/
theorem looked (h : Stocked capacity keys s) (env : Ambient) (k : κ) :
    ((s.looked env k).1.isSome ↔ k ∈ keys) ∧ Stocked capacity keys (s.looked env k).2 := by
  by_cases hk : k ∈ keys
  · obtain ⟨hsome, hafter⟩ := h.looked_listed env hk
    exact ⟨iff_of_true hsome hk, hafter⟩
  · obtain ⟨hnone, hafter⟩ := h.looked_unlisted env hk
    refine ⟨iff_of_false ?_ hk, hafter⟩
    rw [hnone]
    simp

/-- A miss for a key that is not listed. -/
theorem writeMiss (h : Stocked capacity keys s) (env : Ambient) (hk : k ∉ keys) :
    Stocked capacity keys (s.sent env (k, none)) := by
  rw [sent]
  dsimp only
  rw [drained_eq_self env h.posted_eq]
  refine h.forget hk (.inr ?_) fun k' hne => ?_
  · rw [Table.getElem?_put, if_pos rfl]
  · rw [Table.getElem?_put, if_neg hne.symm]

/-- A value for a key that is not listed lists it, if there is room. -/
theorem write (h : Stocked capacity keys s) (env : Ambient) (hk : k ∉ keys)
    (hroom : s.reclaimer.kept.length < capacity) (v : Value) :
    Stocked capacity (k :: keys) (s.sent env (k, some v)) := by
  have hnotin : k ∉ s.reclaimer.kept.keys := fun hmem => hk (h.mem_keys_kept.mp hmem)
  obtain ⟨hkept, hposted, htracked⟩ := Reclaimer.retain_room h.sound ((env.also v).also s.pinned)
    hnotin (h.softCapacity_eq ▸ hroom) v
  rw [sent]
  dsimp only
  rw [drained_eq_self (env.also v) h.posted_eq]
  refine { sound := ?_, softCapacity_eq := ?_, posted_eq := hposted.trans h.posted_eq, stored := ?_,
           others := ?_ }
  · exact (Reclaimer.retain_settled h.sound _ k v).2.choose_spec.sound
  · exact (Reclaimer.softCapacity_retain h.sound ..).trans h.softCapacity_eq
  · intro k' hk'
    dsimp only
    rw [hkept, Table.getElem?_put]
    by_cases hkk : k = k'
    · subst hkk
      exact ⟨v, List.mem_cons_self, if_pos rfl⟩
    · obtain ⟨w, hw, hentry⟩ := h.stored k' ((List.mem_cons.mp hk').resolve_left (Ne.symm hkk))
      exact ⟨w, List.mem_cons_of_mem _ hw, (if_neg hkk).trans hentry⟩
  · intro k' hk'
    obtain ⟨hne, hk'⟩ := not_or.mp (mt List.mem_cons.mpr hk')
    obtain ⟨hnone, hentry⟩ := h.others k' hk'
    dsimp only
    rw [htracked, Function.update_of_ne hne, Table.getElem?_put, if_neg (Ne.symm hne)]
    exact ⟨hnone, hentry⟩

/-- Misses for keys that are not listed. -/
theorem writeMisses (h : Stocked capacity keys s) (env : Ambient) {l : List κ}
    (hl : ∀ k ∈ l, k ∉ keys) : Stocked capacity keys ((l.map (·, none)).foldl (sent env) s) := by
  induction l generalizing s with
  | nil => exact h
  | cons k l ih =>
    refine ih (h.writeMiss env (hl k List.mem_cons_self)) fun k' hk' => ?_
    exact hl k' (List.mem_cons_of_mem k hk')

/-- Values for keys that are not listed, if all of them fit. -/
theorem writes (h : Stocked capacity keys s) (env : Ambient) (hall : all.dedup.length ≤ capacity)
    {es : Assoc κ (Option Value)} (hnodup : es.keys.Nodup) (hvalued : ∀ e ∈ es, e.2.isSome)
    (hnew : ∀ k ∈ es.keys, k ∉ keys) (hkeys : keys ++ es.keys ⊆ all) :
    Stocked capacity (keys ++ es.keys) (es.foldl (sent env) s) := by
  induction es generalizing keys s with
  | nil => exact h.congr fun k => by simp [Assoc.keys]
  | cons e es ih =>
    obtain ⟨k, entry⟩ := e
    obtain ⟨v, rfl⟩ := Option.isSome_iff_exists.mp (hvalued _ List.mem_cons_self)
    obtain ⟨hfirst, hrest⟩ := List.nodup_cons.mp hnodup
    have hk : k ∉ keys := hnew k List.mem_cons_self
    obtain ⟨hlisted, hsent⟩ := List.append_subset.mp hkeys
    have hroom := h.length_kept_lt hall hlisted (hsent List.mem_cons_self) hk
    have hperm : ∀ k', k' ∈ keys ++ Assoc.keys ((k, some v) :: es) ↔
        k' ∈ k :: keys ++ Assoc.keys es := fun k' => by
      simp [Assoc.keys, or_left_comm]
    refine (ih (h.write env hk hroom v) hrest (fun e he => hvalued e (List.mem_cons_of_mem _ he))
      (fun k' hk' hmem => ?_) fun k' hk' => hkeys ((hperm k').mpr hk')).congr hperm
    rcases List.mem_cons.mp hmem with heq | hmem
    · exact hfirst (heq ▸ hk')
    · exact hnew k' (List.mem_cons_of_mem k hk') hmem

end Stocked

end Soft

namespace Service

open Soft (Stocked)

variable {layers : List Layer} {capacity : Nat} {keys all : List Nat}

/-- What a session has looked up of the keys that were not published. -/
structure Progress.Loading (capacity : Nat) (keys asked : List Nat) (p : Progress layers) :
    Prop where
  stocked : Stocked capacity keys p.core
  loads_eq : p.loads = (asked.filter fun k => k ∉ keys).length
  mem_pending : ∀ k, k ∈ p.buffer.pending.keys ↔ k ∈ asked ∧ k ∉ keys

/-- One key more. -/
theorem Progress.Loading.lookUp {asked : List Nat} {p : Progress layers}
    (h : p.Loading capacity keys asked) (env : Ambient) (tag key : Nat) :
    (p.lookUp env tag key).Loading capacity keys (asked ++ [key]) := by
  obtain ⟨hfound, hafter⟩ := h.stocked.looked (env.also p.buffer) key
  change (p.found env key).isSome ↔ key ∈ keys at hfound
  refine { stocked := by rwa [Progress.core_lookUp], loads_eq := ?_, mem_pending := fun k => ?_ }
  · rw [Progress.loads_lookUp, List.filter_append, List.length_append, h.loads_eq]
    by_cases hk : key ∈ keys
    · simp [hfound.mpr hk, hk]
    · simp [mt hfound.mp hk, hk]
  · have hmissing : p.found env key = none ↔ key ∉ keys := by
      rw [← hfound, Option.not_isSome_iff_eq_none]
    rw [Progress.mem_pending_lookUp, hmissing, h.mem_pending, List.mem_append, List.mem_singleton]
    constructor
    · rintro (⟨rfl, hk⟩ | ⟨hasked, hk⟩)
      · exact ⟨.inr rfl, hk⟩
      · exact ⟨.inl hasked, hk⟩
    · rintro ⟨hasked | rfl, hk⟩
      · exact .inr ⟨hasked, hk⟩
      · exact .inl ⟨rfl, hk⟩

theorem progress_loading {stack : Stack Nat Value Core layers}
    (h : Stocked capacity keys stack.base) (env : Ambient) (t : Traffic) (i tag n : Nat) :
    (progress env t i tag stack n).Loading capacity keys ((List.range n).map (t.key i)) := by
  induction n with
  | zero =>
    refine { stocked := h, loads_eq := rfl, mem_pending := fun k => ?_ }
    simp [progress, Progress.start, Assoc.keys]
  | succ n ih =>
    rw [List.range_succ, List.map_append]
    exact ih.lookUp env tag (t.key i n)

/-- A session that commits publishes what it has looked up, and one that rolls back does not. -/
theorem ended_stocked {asked : List Nat} {p : Progress layers}
    (h : p.Loading capacity keys asked) (hloaded : p.buffer.Loaded) (env : Ambient)
    (hall : all.dedup.length ≤ capacity) (hkeys : keys ++ asked ⊆ all) (rollsBack : Bool) :
    Stocked capacity (keys ++ if rollsBack then [] else asked) (p.ended env rollsBack).base := by
  rw [Progress.ended, Stack.base_foldl_sent]
  cases rollsBack with
  | true =>
    rw [if_pos rfl, List.append_nil]
    refine h.stocked.writeMisses _ fun k hk => ?_
    have hmissed := (env.visit.arrange_perm p.buffer.missed).mem_iff.mp hk
    exact ((h.mem_pending k).mp ((hloaded.missed_iff k).mp hmissed)).2
  | false =>
    obtain ⟨hperm, hnodup, hvalued⟩ := Progress.sends_commit hloaded env
    have hmem : ∀ k, k ∈ (p.sends env false).keys ↔ k ∈ asked ∧ k ∉ keys := fun k =>
      (hperm.map Prod.fst).mem_iff.trans (h.mem_pending k)
    obtain ⟨hlisted, hasked⟩ := List.append_subset.mp hkeys
    have hfits : keys ++ (p.sends env false).keys ⊆ all := List.append_subset.mpr
      ⟨hlisted, fun k hk => hasked ((hmem k).mp hk).1⟩
    refine (h.stocked.writes _ hall hnodup hvalued (fun k hk => ((hmem k).mp hk).2) hfits).congr
      fun k => ?_
    simp only [List.mem_append, hmem, if_neg Bool.false_ne_true]
    tauto

section Runs

variable (env : Ambient) {t : Traffic} {c : Service}

/-- Sessions publish what they commit, and load what is not published. -/
theorem steps_stocked (hpressure : t.pressureEvery = 0) (h : Stocked capacity keys c.soft)
    (hall : all.dedup.length ≤ capacity) (hlisted : keys ⊆ all) {n : Nat}
    (hasked : t.keysBefore n ⊆ all) :
    Stocked capacity (keys ++ t.published n) (steps env t c n).2.soft ∧
      (steps env t c n).1.loads = ((List.range n).map fun i =>
        ((t.keysOf i).filter fun k => k ∉ keys ++ t.published i).length).sum := by
  induction n with
  | zero => exact ⟨h.congr fun k => by simp [Traffic.published], rfl⟩
  | succ n ih =>
    have hbefore : t.keysBefore n ⊆ all := fun k hk => hasked (by
      rw [Traffic.keysBefore, List.range_succ, List.flatMap_append]
      exact List.mem_append_left _ hk)
    have hpublished : keys ++ t.published n ⊆ all := List.append_subset.mpr
      ⟨hlisted, fun k hk => hbefore (t.published_subset (Nat.le_refl n) hk)⟩
    obtain ⟨hn, hloads⟩ := ih hbefore
    rw [steps]
    generalize steps env t c n = p at hn hloads
    have hloading := progress_loading hn env t n p.2.nextTag t.reads
    have hloaded := progress_loaded env t n p.2.nextTag p.2.stack t.reads
    have hended := ended_stocked hloading hloaded env hall (List.append_subset.mpr
      ⟨hpublished, fun k hk => hasked (t.keysOf_subset (Nat.lt_succ_self n) hk)⟩) (t.rollsBack n)
    have hpresses : t.pressesAfter n = false := by
      rw [Traffic.pressesAfter, hpressure]
      rfl
    constructor
    · rw [stepped, hpresses, t.published_succ, ← List.append_assoc]
      exact hended
    · rw [loads_stepped, hloads, hloading.loads_eq, List.range_succ, List.map_append,
        List.sum_append, List.map_singleton, List.sum_singleton]
      rfl

/-- With nothing posted, the size is told without taking anything out. -/
theorem afterRun_stocked (hpressure : t.pressureEvery = 0) (h : Stocked capacity keys c.soft)
    (hall : all.dedup.length ≤ capacity) (hlisted : keys ⊆ all)
    (hasked : t.keysBefore t.sessions ⊆ all) :
    Stocked capacity (keys ++ t.published t.sessions) (afterRun env t c).soft := by
  obtain ⟨hsteps, -⟩ := steps_stocked env hpressure h hall hlisted hasked
  rw [afterRun, soft_settled, Soft.drained_eq_self env hsteps.posted_eq]
  exact hsteps

/-- Runs publish what their sessions commit. -/
theorem runs_stocked (hl : .session ∉ c.layers) (h : Stocked capacity keys c.soft)
    (hall : all.dedup.length ≤ capacity) (hlisted : keys ⊆ all) {l : List (Ambient × Traffic)}
    (hpressure : ∀ run ∈ l, run.2.pressureEvery = 0)
    (hasked : ∀ run ∈ l, run.2.keysBefore run.2.sessions ⊆ all) :
    Stocked capacity (keys ++ l.flatMap fun run => run.2.published run.2.sessions)
      (runs c l).2.soft := by
  induction l generalizing c keys with
  | nil => exact h.congr fun k => by simp
  | cons run l ih =>
    obtain ⟨env, t⟩ := run
    have hkeys := hasked _ List.mem_cons_self
    obtain ⟨summary, -, hruns⟩ := runs_cons env hl t l
    have hfirst := afterRun_stocked env (hpressure _ List.mem_cons_self) h hall hlisted hkeys
    have hlisted' : keys ++ t.published t.sessions ⊆ all := List.append_subset.mpr
      ⟨hlisted, fun k hk => hkeys (t.published_subset (Nat.le_refl _) hk)⟩
    have hrest := ih (by rwa [layers_afterRun]) hfirst hlisted'
      (fun run hrun => hpressure run (List.mem_cons_of_mem _ hrun))
      fun run hrun => hasked run (List.mem_cons_of_mem _ hrun)
    rw [hruns, List.flatMap_cons, ← List.append_assoc]
    exact hrest

end Runs

/-- A new service has published nothing. -/
theorem ofSettings_stocked {settings : ServiceSettings} (hcap : 0 < settings.soft.softCapacity) :
    ∃ c₀, ofSettings settings = .ok c₀ ∧ c₀.layers = layersOf settings ∧
      Stocked settings.soft.softCapacity [] c₀.soft := by
  obtain ⟨r, hr, hc₀⟩ := ofSettings_eq hcap
  obtain ⟨hsound, hposted, htracked⟩ := Reclaimer.ofCapacity_sound hr
  have hcapacity : r.softCapacity = settings.soft.softCapacity := by
    rw [Reclaimer.ofCapacity_eq hcap] at hr
    rw [← Except.ok.inj hr]
    rfl
  refine ⟨_, hc₀, rfl, ?_⟩
  rw [soft, Stack.base_fresh]
  exact { sound := hsound, softCapacity_eq := hcapacity, posted_eq := hposted,
          stored := fun k hk => absurd hk List.not_mem_nil,
          others := fun k _ => ⟨htracked k, .inl Std.ExtTreeMap.getElem?_empty⟩ }

/-- **Published keys load once.** If the memory is never under pressure and all keys that are ever
looked up fit into soft retention, then whatever is pinned or held outside a lookup loads a row
exactly if no earlier session that committed, in this run or in one before it, has looked the key
up. So lookups repeated in a session that loads a key load it again, and a session that rolls back
spares nobody a load and costs nobody one. The summary counts these loads. -/
theorem published_keys_load_once {settings : ServiceSettings}
    (hcap : 0 < settings.soft.softCapacity) :
    ∃ c₀, ofSettings settings = .ok c₀ ∧
      ∀ (before : List (Ambient × Traffic)) (env : Ambient) (t : Traffic),
        (∀ run ∈ before, run.2.pressureEvery = 0) → t.pressureEvery = 0 →
        ((before.flatMap fun run => run.2.keysBefore run.2.sessions) ++
          t.keysBefore t.sessions).dedup.length ≤ settings.soft.softCapacity →
        let c := (runs c₀ before).2
        let published := fun i =>
          (before.flatMap fun run => run.2.published run.2.sessions) ++ t.published i
        (∀ i < t.sessions, ∀ r < t.reads,
          let c' := afterSessions env t i c
          ∃ loads, (lookUps env t i r c').result = .ok loads ∧
            (lookUps env t i (r + 1) c').result =
              .ok (if t.key i r ∈ published i then loads else loads + 1)) ∧
        ∃ summary, (run t env c).result = .ok summary ∧
          summary.loads = ((List.range t.sessions).map fun i =>
            ((t.keysOf i).filter fun k => k ∉ published i).length).sum := by
  obtain ⟨c₀, hc₀, hlayers₀, h₀⟩ := ofSettings_stocked hcap
  refine ⟨c₀, hc₀, fun before env t hbefore hpressure hall => ?_⟩
  intro c published
  set all := (before.flatMap fun run => run.2.keysBefore run.2.sessions) ++
    t.keysBefore t.sessions with hallkeys
  have hl₀ : .session ∉ c₀.layers := hlayers₀ ▸ session_notin_layersOf settings
  have hasked : ∀ run ∈ before, run.2.keysBefore run.2.sessions ⊆ all := fun run hrun k hk =>
    List.mem_append_left _ (List.mem_flatMap.mpr ⟨run, hrun, hk⟩)
  have hc := runs_stocked hl₀ h₀ hall (List.nil_subset all) hbefore hasked
  rw [List.nil_append] at hc
  have hl : .session ∉ c.layers := (layers_runs hl₀ before).symm ▸ hl₀
  have hlisted : (before.flatMap fun run => run.2.published run.2.sessions) ⊆ all := by
    intro k hk
    obtain ⟨run, hrun, hk⟩ := List.mem_flatMap.mp hk
    exact hasked run hrun (run.2.published_subset (Nat.le_refl _) hk)
  have hsteps : ∀ n ≤ t.sessions, _ := fun n hn =>
    steps_stocked env hpressure hc hall hlisted (n := n) fun k hk => by
      obtain ⟨i, hi, hk⟩ := List.mem_flatMap.mp hk
      have hlt := List.mem_range.mp hi
      exact List.mem_append_right _ (t.keysOf_subset (by omega) hk)
  constructor
  · intro i hi r _ c'
    have hc' : c' = (steps env t c i).2 := afterSessions_eq env hl t i
    have hl' : .session ∉ c'.layers := (layers_afterSessions env hl t i).symm ▸ hl
    have hstocked : Stocked settings.soft.softCapacity (published i) c'.soft := by
      rw [hc']
      exact (hsteps i (Nat.le_of_lt hi)).1
    have hloading := fun n => progress_loading hstocked env t i c'.nextTag n
    refine ⟨_, lookUps_result env hl' t i r, ?_⟩
    rw [lookUps_result env hl' t i (r + 1), (hloading (r + 1)).loads_eq, (hloading r).loads_eq,
      List.range_succ, List.map_append, List.filter_append, List.length_append]
    by_cases hk : t.key i r ∈ published i
    · simp [hk]
    · simp [hk]
  · obtain ⟨summary, hrun, -, -, hloads, -⟩ := run_yields env hl t
    exact ⟨summary, hrun.result_eq, hloads.trans (hsteps t.sessions (Nat.le_refl _)).2⟩

/-- The first session rolls back, the second loads its four keys, one of them twice, and commits.
After that nothing is loaded, in the same run or in the next. -/
theorem second_run_loads_nothing :
    let settings : ServiceSettings := ⟨"users", ⟨0, 4⟩, false⟩
    let t : Traffic := ⟨3, 4, 5, 2, 0⟩
    0 < settings.soft.softCapacity ∧ t.pressureEvery = 0 ∧
      (t.keysBefore t.sessions ++ t.keysBefore t.sessions).dedup.length = 4 ∧
      ∃ c₀ first second, ofSettings settings = .ok c₀ ∧
        (run t .alone c₀).result = .ok first ∧ first.loads = 10 ∧
        (run t .alone (runs c₀ [(.alone, t)]).2).result = .ok second ∧ second.loads = 0 := by
  intro settings t
  have hcap : 0 < settings.soft.softCapacity := by decide
  obtain ⟨c₀, hc₀, h⟩ := published_keys_load_once hcap
  obtain ⟨-, first, hfirst, hloads⟩ := h [] .alone t (fun run hrun => absurd hrun List.not_mem_nil)
    rfl (by decide)
  obtain ⟨-, second, hsecond, hloads'⟩ := h [(.alone, t)] .alone t
    (fun run hrun => List.mem_singleton.mp hrun ▸ rfl) rfl (by decide)
  exact ⟨hcap, rfl, by decide, c₀, first, second, hc₀, hfirst, hloads.trans (by decide),
    hsecond, hloads'.trans (by decide)⟩

end Service

end SoftTier
