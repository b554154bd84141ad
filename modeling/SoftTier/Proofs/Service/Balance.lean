import Mathlib.Algebra.GroupWithZero.Nat
import SoftTier.Proofs.Service.Calls

/-!
# What a service counts

The summary of a run, the counters of a metered layer and the pins are kept by different parts of a
service, and every lookup moves one side of each: it is a hit, which pins a value, or a miss, which
loads a row. So they balance, whatever is evicted, reclaimed, committed or rolled back.

- `Service.Balanced`: the counters and the pins, told from the hits and the misses so far.
- `Service.steps_balanced`, `Service.runs_balanced`: sessions and runs keep the balance.
- `Service.summaries_balance`: what the summary of any run says.
-/

namespace SoftTier

namespace Soft

variable {κ : Type} [DecidableEq κ] [Ord κ] [Std.TransOrd κ]

/-- A lookup pins what it finds. -/
theorem pinned_looked (env : Ambient) (k : κ) (s : Soft κ (Table κ Handle)) :
    (s.looked env k).2.pinCapacity = s.pinCapacity ∧
      (s.looked env k).2.pinned = match (s.looked env k).1 with
        | some v => (v :: s.pinned).take s.pinCapacity
        | none => s.pinned := by
  rw [looked]
  split
  · exact ⟨rfl, rfl⟩
  · split
    · exact ⟨rfl, rfl⟩
    · exact ⟨rfl, rfl⟩

/-- Writes pin nothing. -/
theorem pinned_sent (env : Ambient) (e : κ × Option Value) (s : Soft κ (Table κ Handle)) :
    (s.sent env e).pinCapacity = s.pinCapacity ∧ (s.sent env e).pinned = s.pinned := by
  obtain ⟨k, entry⟩ := e
  cases entry with
  | some v => exact ⟨rfl, rfl⟩
  | none => exact ⟨rfl, rfl⟩

end Soft

/-- Every so many sessions there is one rollback more. -/
theorem Traffic.rollbacks_succ (t : Traffic) (n : Nat) :
    (if t.rollbackEvery = 0 then 0 else (n + 1 + t.rollbackEvery - 1) / t.rollbackEvery) =
      (if t.rollbackEvery = 0 then 0 else (n + t.rollbackEvery - 1) / t.rollbackEvery) +
        if t.rollsBack n then 1 else 0 := by
  rw [rollsBack]
  cases t.rollbackEvery with
  | zero => rfl
  | succ m =>
    have hdvd : m + 1 ∣ n + m + 1 ↔ n % (m + 1) = 0 := by
      rw [Nat.add_assoc, Nat.dvd_add_left (Nat.dvd_refl (m + 1)), Nat.dvd_iff_mod_eq_zero]
    have hsucc : n + 1 + (m + 1) - 1 = n + m + 1 := by omega
    rw [if_neg (by omega), if_neg (by omega), hsucc, Nat.succ_div, Nat.add_succ_sub_one]
    simp [hdvd]

namespace Service

variable {layers : List Layer}

/-- The counters and the pins after so many hits and misses, of which the pins hold `bound` at
most. -/
structure Balanced (bound hits misses : Nat) (stack : Stack Nat Value Core layers) : Prop where
  tallied : ∀ tally ∈ stack.tallies, tally.hits = .ofNat hits ∧ tally.misses = .ofNat misses
  pinCapacity_eq : stack.base.pinCapacity = bound
  pinned_eq : stack.base.pinned.length = min bound hits

namespace Balanced

variable {bound hits misses : Nat} {stack : Stack Nat Value Core layers}

/-- More hits and misses are counted, and more is pinned. -/
theorem count (h : Balanced bound hits misses stack) (more more' : Nat) {f : Tally → Tally}
    {core : Core} (hf : ∀ tally, (f tally).hits = tally.hits + .ofNat more ∧
      (f tally).misses = tally.misses + .ofNat more')
    (hcapacity : core.pinCapacity = stack.base.pinCapacity)
    (hpinned : core.pinned.length = min bound (hits + more)) :
    Balanced bound (hits + more) (misses + more') (stack.change f core) := by
  refine { tallied := ?_, pinCapacity_eq := ?_, pinned_eq := ?_ }
  · intro tally htally
    rw [Stack.tallies_change] at htally
    obtain ⟨tally₀, htally₀, rfl⟩ := List.mem_map.mp htally
    obtain ⟨hhits, hmisses⟩ := h.tallied tally₀ htally₀
    rw [(hf tally₀).1, (hf tally₀).2, hhits, hmisses, UInt64.ofNat_add, UInt64.ofNat_add]
    exact ⟨rfl, rfl⟩
  · rw [Stack.base_change, hcapacity]
    exact h.pinCapacity_eq
  · rw [Stack.base_change]
    exact hpinned

/-- What touches neither lookups nor pins keeps the balance. -/
theorem change (h : Balanced bound hits misses stack) {f : Tally → Tally} {core : Core}
    (hf : ∀ tally, (f tally).hits = tally.hits ∧ (f tally).misses = tally.misses)
    (hcapacity : core.pinCapacity = stack.base.pinCapacity)
    (hpinned : core.pinned = stack.base.pinned) :
    Balanced bound hits misses (stack.change f core) := by
  refine h.count 0 0 (fun tally => ?_) hcapacity (hpinned ▸ h.pinned_eq)
  rw [(hf tally).1, (hf tally).2]
  exact ⟨(UInt64.add_zero _).symm, (UInt64.add_zero _).symm⟩

theorem fresh (bound : Nat) {core : Core} (hcapacity : core.pinCapacity = bound)
    (hpinned : core.pinned = []) : Balanced bound 0 0 (.fresh core layers) := by
  refine { tallied := ?_, pinCapacity_eq := ?_, pinned_eq := ?_ }
  · intro tally htally
    rw [Stack.tallies_fresh core tally htally]
    exact ⟨rfl, rfl⟩
  · rw [Stack.base_fresh, hcapacity]
  · rw [Stack.base_fresh, hpinned, Nat.min_zero]
    rfl

/-- A lookup is a hit and pins a value, or it is a miss. -/
theorem lookUp {p : Progress layers} (h : Balanced bound hits misses p.stack) (env : Ambient)
    (tag key : Nat) :
    Balanced bound (hits + if (p.found env key).isSome then 1 else 0)
      (misses + if (p.found env key).isSome then 0 else 1) (p.lookUp env tag key).stack := by
  obtain ⟨hcapacity, hpinned⟩ := Soft.pinned_looked (env.also p.buffer) key p.core
  change (p.core.looked _ key).2.pinned = match p.found env key with
    | some v => _
    | none => _ at hpinned
  rw [Progress.stack_lookUp, Progress.looked]
  cases hfound : p.found env key with
  | none =>
    rw [hfound] at hpinned
    refine h.count 0 1 (fun tally => ⟨(UInt64.add_zero _).symm, rfl⟩) hcapacity ?_
    rw [hpinned]
    exact h.pinned_eq
  | some v =>
    rw [hfound] at hpinned
    refine h.count 1 0 (fun tally => ⟨rfl, (UInt64.add_zero _).symm⟩) hcapacity ?_
    have hlen : p.core.pinned.length = min bound hits := h.pinned_eq
    have hbound : p.core.pinCapacity = bound := h.pinCapacity_eq
    rw [hpinned]
    dsimp only
    rw [List.length_take, List.length_cons, hlen, hbound]
    omega

/-- The lookups of a session are its hits and its loads. -/
theorem progress (h : Balanced bound hits misses stack) (env : Ambient) (t : Traffic)
    (i tag n : Nat) :
    ∃ hits', Balanced bound hits' (misses + (progress env t i tag stack n).loads)
        (Service.progress env t i tag stack n).stack ∧
      hits' + (Service.progress env t i tag stack n).loads = hits + n := by
  induction n with
  | zero => exact ⟨hits, h, rfl⟩
  | succ n ih =>
    obtain ⟨hits', hn, hsum⟩ := ih
    have hnext := hn.lookUp env tag (t.key i n)
    rw [Service.progress, Progress.loads_lookUp, ← Nat.add_assoc]
    refine ⟨_, hnext, ?_⟩
    split <;> omega

/-- The end of a session looks nothing up. -/
theorem ended {p : Progress layers} (h : Balanced bound hits misses p.stack) (env : Ambient)
    (rollsBack : Bool) : Balanced bound hits misses (p.ended env rollsBack) := by
  rw [Progress.ended]
  generalize p.sends env rollsBack = es
  generalize p.stack = stack at h ⊢
  induction es generalizing stack with
  | nil => exact h
  | cons e es ih =>
    obtain ⟨hcapacity, hpinned⟩ := Soft.pinned_sent (env.also p.buffer) e stack.base
    exact ih _ (h.change (fun _ => ⟨rfl, rfl⟩) hcapacity hpinned)

end Balanced

section Runs

variable {bound hits misses : Nat} {c : Service}

/-- Sessions keep the balance. -/
theorem steps_balanced (h : Balanced bound hits misses c.stack) (env : Ambient) (t : Traffic)
    (n : Nat) : ∃ hits', Balanced bound hits' (misses + (steps env t c n).1.loads)
        (steps env t c n).2.stack ∧
      hits' + (steps env t c n).1.loads = hits + n * t.reads := by
  induction n with
  | zero =>
    refine ⟨hits, h, ?_⟩
    rw [Nat.zero_mul]
    rfl
  | succ n ih =>
    rw [steps]
    generalize steps env t c n = p at ih
    obtain ⟨hits₁, h₁, hsum₁⟩ := ih
    obtain ⟨hits₂, h₂, hsum₂⟩ := h₁.progress env t n p.2.nextTag t.reads
    have hended := h₂.ended env (t.rollsBack n)
    refine ⟨hits₂, ?_, ?_⟩
    · -- pressure touches neither the counters nor the pins
      have hafter : ∀ presses : Bool, Balanced bound hits₂
          (misses + p.1.loads + (progress env t n p.2.nextTag p.2.stack t.reads).loads)
          (if presses then (afterSession env t n p.2).2.pressed env
            else (afterSession env t n p.2).2).stack := by
        intro presses
        cases presses with
        | true => exact hended.change (fun _ => ⟨rfl, rfl⟩) rfl rfl
        | false => exact hended
      rw [loads_stepped, ← Nat.add_assoc]
      exact hafter (t.pressesAfter n)
    · rw [loads_stepped, Nat.succ_mul]
      omega

/-- Each session is counted once, by the way in which it ended. -/
theorem steps_ends (env : Ambient) (t : Traffic) (c : Service) (n : Nat) :
    (steps env t c n).1.commits + (steps env t c n).1.rollbacks = n ∧
      (steps env t c n).1.rollbacks =
        if t.rollbackEvery = 0 then 0 else (n + t.rollbackEvery - 1) / t.rollbackEvery := by
  induction n with
  | zero =>
    refine ⟨rfl, ?_⟩
    split
    · rfl
    · rename_i hevery
      rw [Nat.zero_add, Nat.div_eq_of_lt (by omega)]
      rfl
  | succ n ih =>
    obtain ⟨hsessions, hrollbacks⟩ := ih
    rw [t.rollbacks_succ, steps, stepped, ← hrollbacks]
    dsimp only
    split
    · exact ⟨congrArg (· + 1) hsessions, rfl⟩
    · refine ⟨?_, rfl⟩
      dsimp only
      omega

/-- So does a run. -/
theorem afterRun_balanced (h : Balanced bound hits misses c.stack) (env : Ambient) (t : Traffic) :
    ∃ hits', Balanced bound hits' (misses + (steps env t c t.sessions).1.loads)
        (afterRun env t c).stack ∧
      hits' + (steps env t c t.sessions).1.loads = hits + t.sessions * t.reads := by
  obtain ⟨hits', hsteps, hsum⟩ := steps_balanced h env t t.sessions
  exact ⟨hits', hsteps.change (fun _ => ⟨rfl, rfl⟩) rfl rfl, hsum⟩

/-- Runs succeed and keep the balance. -/
theorem runs_balanced (hl : .session ∉ c.layers) (h : Balanced bound hits misses c.stack)
    (l : List (Ambient × Traffic)) :
    ∃ summaries : List Summary, (runs c l).1 = summaries.map .ok ∧
      ∃ hits', Balanced bound hits' (misses + (summaries.map Summary.loads).sum)
          (runs c l).2.stack ∧
        hits' + (summaries.map Summary.loads).sum =
          hits + (l.map fun run => run.2.sessions * run.2.reads).sum := by
  induction l generalizing c hits misses with
  | nil => exact ⟨[], rfl, hits, h, rfl⟩
  | cons run l ih =>
    obtain ⟨env, t⟩ := run
    obtain ⟨summary, hloads, hruns⟩ := runs_cons env hl t l
    obtain ⟨hits₁, h₁, hsum₁⟩ := afterRun_balanced h env t
    rw [← hloads] at h₁ hsum₁
    obtain ⟨summaries, hresults, hits₂, h₂, hsum₂⟩ := ih (by rwa [layers_afterRun]) h₁
    rw [hruns]
    dsimp only
    rw [hresults]
    refine ⟨summary :: summaries, rfl, hits₂, ?_, ?_⟩
    · rw [List.map_cons, List.sum_cons, ← Nat.add_assoc]
      exact h₂
    · rw [List.map_cons, List.map_cons, List.sum_cons, List.sum_cons]
      dsimp only
      omega

theorem ofSettings_balanced {settings : ServiceSettings} (hcap : 0 < settings.soft.softCapacity) :
    ∃ c₀, ofSettings settings = .ok c₀ ∧ c₀.layers = layersOf settings ∧
      Balanced settings.soft.pinCapacity 0 0 c₀.stack := by
  obtain ⟨r, -, hc₀⟩ := ofSettings_eq hcap
  exact ⟨_, hc₀, rfl, .fresh settings.soft.pinCapacity rfl rfl⟩

/-- The counters of a metered service are exact as long as they do not wrap around. -/
theorem Balanced.tally (h : Balanced bound hits misses c.stack) (hlayers : c.layers = [.metered])
    (hbound : hits + misses < UInt64.size) :
    ∃ tally, c.tally? = some tally ∧ tally.hits.toNat = hits ∧ tally.misses.toNat = misses := by
  have hcount : c.stack.tallies.length = 1 := by
    rw [Stack.length_tallies, hlayers]
    rfl
  obtain ⟨tally, htally⟩ := List.length_eq_one_iff.mp hcount
  obtain ⟨hhits, hmisses⟩ := h.tallied tally (htally ▸ List.mem_singleton_self tally)
  refine ⟨tally, congrArg List.head? htally, ?_, ?_⟩
  · rw [hhits]
    exact UInt64.toNat_ofNat_of_lt' (by omega)
  · rw [hmisses]
    exact UInt64.toNat_ofNat_of_lt' (by omega)

end Runs

/-- **Summaries balance.** A service that can be set up serves any traffic, however often. In each
run every session is counted once, by the way in which it ended, and one in so many rolled back. Of
all lookups so far, those that were not loads have been pinned, as many as fit; if requests are
counted, they are the hits and the loads are the misses, as long as the counters do not wrap around.
At the end of its lookups each session has gathered a row for every key that it has missed, which
are the keys that it has loaded, and nothing else; and what the layers are asked for in the session
is its lookups, and then one write for each such key if it commits, or one miss for each if it rolls
back. The run goes on from there. -/
theorem summaries_balance {settings : ServiceSettings} (hcap : 0 < settings.soft.softCapacity) :
    ∃ c₀, ofSettings settings = .ok c₀ ∧
      ∀ (before : List (Ambient × Traffic)) (env : Ambient) (t : Traffic),
        let c := (runs c₀ before).2
        let lookups :=
          (before.map fun run => run.2.sessions * run.2.reads).sum + t.sessions * t.reads
        ∃ (summaries : List Summary) (summary : Summary),
          (runs c₀ before).1 = summaries.map .ok ∧ (run t env c).result = .ok summary ∧
          let loads := (summaries.map Summary.loads).sum + summary.loads
          summary.commits + summary.rollbacks = t.sessions ∧
          summary.rollbacks = (if t.rollbackEvery = 0 then 0
            else (t.sessions + t.rollbackEvery - 1) / t.rollbackEvery) ∧
          loads ≤ lookups ∧ summary.pinned = min settings.soft.pinCapacity (lookups - loads) ∧
          (settings.metered = true → lookups < UInt64.size →
            ∃ tally, (run t env c).state.tally? = some tally ∧ tally.misses.toNat = loads ∧
              tally.hits.toNat + tally.misses.toNat = lookups) ∧
          ∀ i < t.sessions,
            let c' := afterSessions env t i c
            let b := ((lookUps env t i t.reads c').state.session 0).buffer
            b.missed.Nodup ∧ (∀ k, k ∈ b.missed ↔ k ∈ b.pending.keys) ∧
            (∀ k, k ∈ b.missed ↔ ∃ r < t.reads, t.key i r = k ∧
              (lookUps env t i (r + 1) c').result ≠ (lookUps env t i r c').result) ∧
            Asks env t i c' b ∧
            let s := (runSession t i env c').state
            afterSessions env t (i + 1) c =
              if t.pressesAfter i then (onStack (Stack.onBase (Soft.shrink 0) _) env s).state
              else s := by
  obtain ⟨c₀, hc₀, hlayers₀, hfresh⟩ := ofSettings_balanced hcap
  refine ⟨c₀, hc₀, fun before env t => ?_⟩
  intro c lookups
  have hl₀ : .session ∉ c₀.layers := hlayers₀ ▸ session_notin_layersOf settings
  obtain ⟨summaries, hresults, hits₁, h₁, hsum₁⟩ := runs_balanced hl₀ hfresh before
  have hlayers : c.layers = c₀.layers := layers_runs hl₀ before
  have hl : .session ∉ c.layers := hlayers ▸ hl₀
  obtain ⟨summary, hrun, hcommits, hrollbacks, hloads, -, hpinned⟩ := run_yields env hl t
  obtain ⟨hits, h, hsum⟩ := afterRun_balanced h₁ env t
  obtain ⟨hends, hrolls⟩ := steps_ends env t c t.sessions
  rw [Nat.zero_add, ← hloads] at h
  rw [← hloads] at hsum
  refine ⟨summaries, summary, hresults, hrun.result_eq, ?_⟩
  intro loads
  have hlookups : hits + loads = lookups := by
    show hits + ((summaries.map Summary.loads).sum + summary.loads) =
      (before.map fun run => run.2.sessions * run.2.reads).sum + t.sessions * t.reads
    omega
  refine ⟨?_, ?_, by omega, ?_, fun hmetered hbound => ?_, fun i _ => ?_⟩
  · rw [hcommits, hrollbacks]
    exact hends
  · rw [hrollbacks]
    exact hrolls
  · rw [hpinned, ← hlookups, Nat.add_sub_cancel]
    exact h.pinned_eq
  · have hmeters : (afterRun env t c).layers = [.metered] := by
      rw [layers_afterRun, hlayers, hlayers₀, layersOf, if_pos hmetered]
    obtain ⟨tally, htally, hhits, hmisses⟩ := h.tally hmeters (by omega)
    rw [hrun.state_eq]
    refine ⟨tally, htally, hmisses, ?_⟩
    rw [hhits, hmisses]
    exact hlookups
  · have hl' : .session ∉ (afterSessions env t i c).layers :=
      (layers_afterSessions env hl t i).symm ▸ hl
    obtain ⟨hloaded, hpending⟩ := lookUps_gathered env hl' t i t.reads
    exact ⟨hloaded.sound.missed_nodup, hloaded.missed_iff,
      fun k => (hloaded.missed_iff k).trans (hpending k), session_asks env hl' t i,
      afterSessions_succ env hl t i⟩

/-- Three sessions of four lookups, two of which roll back, run for the second time. The one that
commits asks for writes when its lookups are over. -/
theorem second_run_balances :
    let settings : ServiceSettings := ⟨"users", ⟨1, 2⟩, true⟩
    let t : Traffic := ⟨3, 5, 4, 2, 1⟩
    0 < settings.soft.softCapacity ∧ settings.metered = true ∧ 24 < UInt64.size ∧ 1 < t.sessions ∧
      ∃ c₀ summary tally, ofSettings settings = .ok c₀ ∧
        (run t .alone (runs c₀ [(.alone, t)]).2).result = .ok summary ∧
        (run t .alone (runs c₀ [(.alone, t)]).2).state.tally? = some tally ∧
        summary.commits = 1 ∧ summary.rollbacks = 2 ∧
        tally.hits.toNat + tally.misses.toNat = 24 ∧
        let c := afterSessions .alone t 1 (runs c₀ [(.alone, t)]).2
        let b := ((lookUps .alone t 1 t.reads c).state.session 0).buffer
        ∃ (found : Nat → Option Value) (rowOf : Nat → Value) (ended : List (Heard Nat Value)),
          ((onRecord .alone t 1 c).state.shelf.nth 0).heard.reverse =
            .read 2 (.ok (found 0)) :: .read 0 (.ok (found 1)) :: .read 3 (.ok (found 2)) ::
              .read 1 (.ok (found 3)) :: ended ∧
          ended.Perm (b.missed.map fun k => .change (.put k (some (rowOf k)))) := by
  intro settings t
  have hcap : 0 < settings.soft.softCapacity := by decide
  obtain ⟨c₀, hc₀, h⟩ := summaries_balance hcap
  obtain ⟨summaries, summary, -, hrun, hends, hrollbacks, -, -, htally, hsessions⟩ :=
    h [(.alone, t)] .alone t
  obtain ⟨tally, htally, -, hsum⟩ := htally rfl (by decide)
  obtain ⟨-, -, -, ⟨-, found, rowOf, ended, hheard, -, hended⟩, -⟩ := hsessions 1 (by decide)
  have hasked : ((List.range t.reads).map fun r => .read (t.key 1 r) (.ok (found r)) :
      List (Heard Nat Value)) = [.read 2 (.ok (found 0)), .read 0 (.ok (found 1)),
        .read 3 (.ok (found 2)), .read 1 (.ok (found 3))] := by
    simp [t, Traffic.key, List.range, List.range.loop]
  have hcommits : t.rollsBack 1 = false := by decide
  rw [hasked] at hheard
  simp only [hcommits] at hended
  have hrolls : summary.rollbacks = 2 := hrollbacks.trans (by decide)
  have hcount : summary.commits + summary.rollbacks = 3 := hends
  exact ⟨hcap, rfl, by decide, by decide, c₀, summary, tally, hc₀, hrun, htally, by omega, hrolls,
    hsum, found, rowOf, ended, hheard, hended⟩

end Service

end SoftTier
