import Mathlib.Logic.Relation
import SoftTier.Proofs.Changes
import SoftTier.Proofs.Session.Operations

/-!
# Ending a session over a store that fails

An end that fails may have changed some of the store, but the session keeps what it has gathered. So
its client can try again: whatever the failed attempts have left undone or half done, the commit
that succeeds writes all of it anew.

- `Buffer.publishing`, `Buffer.freeing`: the changes that a commit asks for.
- `Session.commit_leaves`, `Session.rollback_leaves`: what an end comes to, whatever fails.
- `Buffer.Spares`: two stores that differ only where a commit writes anyway.
- `Session.failed_ends_converge`: a commit after failed ends is as good as one without them.
-/

namespace SoftTier

namespace Buffer

variable {κ ν : Type}

/-- The changes that publish a buffer. -/
def publishing (visit : Visit) (b : Buffer κ ν) : List (Change κ ν) :=
  (if b.clears then [.clear] else []) ++ (visit.arrange b.pending).map fun e => .put e.1 e.2

/-- The changes that free the missed keys which publishing leaves blocked. -/
def freeing [DecidableEq κ] (visit : Visit) (b : Buffer κ ν) : List (Change κ ν) :=
  ((visit.arrange b.missed).filter fun k => !b.pending.has k).map fun k => .put k none

/-- The changes that free all missed keys. -/
def freeingAll (visit : Visit) (b : Buffer κ ν) : List (Change κ ν) :=
  (visit.arrange b.missed).map fun k => .put k none

/-- All the changes that a rollback asks for make of a store what a rollback leaves. -/
theorem foldl_freeingAll [Ord κ] [Std.TransOrd κ] (b : Buffer κ ν) (visit : Visit)
    (t : Table κ ν) : (b.freeingAll visit).foldl Change.apply t = b.released visit t := by
  rw [freeingAll, List.foldl_map]
  rfl

variable [DecidableEq κ] [Ord κ] [Std.TransOrd κ]

/-! ## What is asked of the store -/

section Makes

variable [Keeper ν] {env : Ambient}

theorem makes_writeMiss (k : κ) :
    Probe.Makes (Store.writeMiss k : Op (Probe κ ν) Unit) env [.put k none] :=
  Probe.makes_one fun _ => Probe.writeMiss_answers k

theorem makes_send (e : κ × Option ν) :
    Probe.Makes (send e : Op (Probe κ ν) Unit) env [.put e.1 e.2] := by
  obtain ⟨k, entry⟩ := e
  cases entry with
  | none => exact makes_writeMiss k
  | some a => exact Probe.makes_one fun _ => Probe.write_answers k a

theorem flush_makes (b : Buffer κ ν) :
    Probe.Makes (b.flush : Op (Probe κ ν) Unit) env (b.publishing env.visit) := by
  have hsend : Probe.Makes (do Op.each send (← Op.visiting b.pending)) env
      ((env.visit.arrange b.pending).map fun e => .put e.1 e.2) :=
    Probe.Makes.of_yields (fun _ => Op.yields_visiting _) (Probe.makes_each makes_send _)
  rw [flush, publishing]
  cases b.clears with
  | true => exact (Probe.makes_one fun _ => Probe.clear_answers).bind hsend
  | false => exact hsend

theorem freeMissed_makes (b : Buffer κ ν) :
    Probe.Makes (b.freeMissed : Op (Probe κ ν) Unit) env (b.freeing env.visit) :=
  Probe.Makes.of_yields (fun _ => Op.yields_visiting _) (Probe.makes_each makes_writeMiss _)

theorem freeAll_makes (b : Buffer κ ν) :
    Probe.Makes (b.freeAll : Op (Probe κ ν) Unit) env (b.freeingAll env.visit) :=
  Probe.Makes.of_yields (fun _ => Op.yields_visiting _) (Probe.makes_each makes_writeMiss _)

end Makes

/-- All the changes that a commit asks for make of a store what a commit leaves. -/
theorem foldl_changes (b : Buffer κ ν) (visit : Visit) (t : Table κ ν) :
    (b.publishing visit ++ b.freeing visit).foldl Change.apply t = b.published visit t := by
  rw [List.foldl_append, publishing, freeing, List.foldl_append, List.foldl_map, List.foldl_map,
    published, flushed, Table.putAll, Table.putMisses]
  cases b.clears <;> rfl

/-! ## Where a commit writes -/

section Asks

variable {κ ν : Type} {b : Buffer κ ν} {visit : Visit} {c : Change κ ν}

/-- The change is one that some end of the session asks for. -/
def Asks (b : Buffer κ ν) : Change κ ν → Prop
  | .clear => b.clears = true
  | .put k _ => k ∈ b.pending.keys ∨ k ∈ b.missed

theorem asks_of_mem_publishing (hc : c ∈ b.publishing visit) : b.Asks c := by
  rw [publishing, List.mem_append] at hc
  rcases hc with hc | hc
  · split at hc
    · rename_i hclears
      rw [List.mem_singleton.mp hc]
      exact hclears
    · exact absurd hc List.not_mem_nil
  · obtain ⟨e, he, rfl⟩ := List.mem_map.mp hc
    exact .inl (Assoc.mem_keys_of_mem ((visit.arrange_perm b.pending).mem_iff.mp he))

theorem asks_of_mem_freeing [DecidableEq κ] (hc : c ∈ b.freeing visit) : b.Asks c := by
  obtain ⟨k, hk, rfl⟩ := List.mem_map.mp hc
  exact .inr ((visit.arrange_perm b.missed).mem_iff.mp (List.mem_filter.mp hk).1)

theorem asks_of_mem_freeingAll (hc : c ∈ b.freeingAll visit) : b.Asks c := by
  obtain ⟨k, hk, rfl⟩ := List.mem_map.mp hc
  exact .inr ((visit.arrange_perm b.missed).mem_iff.mp hk)

end Asks

/-- The second store is the first but for keys that a commit writes, and for everything if the
commit clears. -/
structure Spares (b : Buffer κ ν) (t t' : Table κ ν) : Prop where
  name_eq : t'.name = t.name
  entry_eq : b.clears = false → ∀ k, k ∉ b.pending.keys → k ∉ b.missed →
    t'.entries[k]? = t.entries[k]?

variable [Std.LawfulEqOrd κ] {b : Buffer κ ν} {t t' : Table κ ν}

/-- A change that an end asks for is where a commit writes anyway. -/
theorem Spares.apply (h : b.Spares t t') {c : Change κ ν} (hc : b.Asks c) :
    b.Spares t (c.apply t') := by
  constructor
  · rw [Change.name_apply, h.name_eq]
  · intro hclears k hpending hmissed
    cases c with
    | clear =>
      have hclear : b.clears = true := hc
      exact absurd (hclears.symm.trans hclear) (by simp)
    | put k' entry =>
      have hne : k' ≠ k := by
        rintro rfl
        exact hc.elim hpending hmissed
      rw [Change.apply, Table.getElem?_put, if_neg hne]
      exact h.entry_eq hclears k hpending hmissed

/-- A commit makes the same of both stores, in whatever order it visits what was gathered. -/
theorem published_eq_of_spares (hb : b.Sound) (h : b.Spares t t') (visit visit' : Visit) :
    b.published visit' t' = b.published visit t := by
  have hname : (b.published visit' t').name = (b.published visit t).name := by
    rw [← foldl_changes, ← foldl_changes, Change.name_foldl_apply, Change.name_foldl_apply,
      h.name_eq]
  have hentries : (b.published visit' t').entries = (b.published visit t).entries := by
    refine Std.ExtTreeMap.ext_getElem? fun k => ?_
    rw [getElem?_published hb, getElem?_published hb]
    cases hget : Assoc.get? k b.pending with
    | some entry => rfl
    | none =>
      by_cases hmissed : k ∈ b.missed
      · simp [hmissed]
      · cases hclears : b.clears with
        | true => simp
        | false =>
          rw [h.entry_eq hclears k (Assoc.get?_eq_none_iff.mp hget) hmissed]
  calc b.published visit' t'
      = ⟨(b.published visit' t').name, (b.published visit' t').entries⟩ := rfl
    _ = ⟨(b.published visit t).name, (b.published visit t).entries⟩ := by rw [hname, hentries]

end Buffer

namespace Session

variable {κ ν : Type} [DecidableEq κ] [Ord κ] [Std.TransOrd κ] [Keeper ν] {env : Ambient}
  {b : Buffer κ ν} {p : Probe κ ν}

/-! ## What an end comes to -/

/-- A commit asks for the changes that publish and then for those that free, up to the first failure
in each row; if the first row fails, its failure is the answer. Only a commit that succeeds ends the
session. -/
theorem commit_leaves (env : Ambient) (b : Buffer κ ν) (p : Probe κ ν) :
    (commit : Op (Session κ ν (Probe κ ν)) Unit).Leaves env ⟨b, p⟩ fun r s' =>
      r = (p.change (b.publishing env.visit ++ b.freeing env.visit)).1 ∧
      s'.below = ((p.change (b.publishing env.visit)).2.change (b.freeing env.visit)).2 ∧
      s'.buffer = if r = .ok () then {} else b := by
  have hfree : ∀ published p₁, (published, p₁) = p.change (b.publishing env.visit) →
      Op.Leaves b.freeMissed (env.also b) p₁ fun freed p₂ =>
        ∃ p₁, (published, p₁) = p.change (b.publishing env.visit) ∧
          (freed, p₂) = p₁.change (b.freeing env.visit) := fun published p₁ hpublished =>
    (b.freeMissed_makes p₁).imp fun freed p₂ hfreed => ⟨p₁, hpublished, hfreed⟩
  refine (commit_leaves_of (b.flush_makes p) hfree).imp ?_
  rintro r s' ⟨published, freed, ⟨p₁, hpublished, hfreed⟩, rfl, hbuffer⟩
  rw [Probe.change_append, ← hpublished]
  refine ⟨?_, congrArg Prod.snd hfreed, hbuffer⟩
  cases published with
  | error e => rfl
  | ok u => exact congrArg Prod.fst hfreed

/-- A rollback asks for the changes that free all missed keys, up to the first failure. -/
theorem rollback_leaves (env : Ambient) (b : Buffer κ ν) (p : Probe κ ν) :
    (rollback : Op (Session κ ν (Probe κ ν)) Unit).Leaves env ⟨b, p⟩ fun r s' =>
      (r, s'.below) = p.change (b.freeingAll env.visit) ∧
      s'.buffer = if r = .ok () then {} else b := by
  exact rollback_leaves_of (s := ⟨b, p⟩) (b.freeAll_makes p)

/-- A commit that succeeds has published. -/
theorem commit_of_ok (h : (commit env ⟨b, p⟩).result = .ok ()) :
    (commit env ⟨b, p⟩).state.buffer = {} ∧
      (commit env ⟨b, p⟩).state.below.table = b.published env.visit p.table := by
  obtain ⟨hresult, hbelow, hbuffer⟩ : Op.Leaves _ _ _ _ := commit_leaves env b p
  rw [h, if_pos rfl] at hbuffer
  rw [h] at hresult
  refine ⟨hbuffer, ?_⟩
  rw [← Buffer.foldl_changes, ← Probe.change_table hresult.symm, hbelow, Probe.change_append]
  rw [Probe.change_append] at hresult
  cases hpublish : p.change (b.publishing env.visit) with
  | mk r p' =>
    cases r with
    | ok u => rfl
    | error e =>
      rw [hpublish] at hresult
      exact absurd hresult (by simp)

/-! ## Trying again -/

/-- The second state is the first after an end of the session that failed. -/
inductive FailedEnd : Session κ ν (Probe κ ν) → Session κ ν (Probe κ ν) → Prop
  | commit (env : Ambient) (s : Session κ ν (Probe κ ν)) (e : Failure)
      (h : (Session.commit env s).result = .error e) : FailedEnd s (Session.commit env s).state
  | rollback (env : Ambient) (s : Session κ ν (Probe κ ν)) (e : Failure)
      (h : (Session.rollback env s).result = .error e) : FailedEnd s (Session.rollback env s).state

variable [Std.LawfulEqOrd κ]

/-- A failed end leaves the buffer as it is, and changes the store only where a commit writes. -/
theorem FailedEnd.spares {s s' : Session κ ν (Probe κ ν)} (h : FailedEnd s s') :
    s'.buffer = s.buffer ∧ ∀ t, s.buffer.Spares t s.below.table →
      s.buffer.Spares t s'.below.table := by
  cases h with
  | commit env s e h =>
    obtain ⟨b, p⟩ := s
    obtain ⟨-, hbelow, hbuffer⟩ : Op.Leaves _ _ _ _ := commit_leaves env b p
    rw [h, if_neg (by simp)] at hbuffer
    refine ⟨hbuffer, fun t ht => ?_⟩
    rw [hbelow]
    refine Probe.change_keeps (fun c hc t' ht' => ht'.apply (b.asks_of_mem_freeing hc)) ?_
    exact Probe.change_keeps (fun c hc t' ht' => ht'.apply (b.asks_of_mem_publishing hc)) ht
  | rollback env s e h =>
    obtain ⟨b, p⟩ := s
    obtain ⟨hbelow, hbuffer⟩ : Op.Leaves _ _ _ _ := rollback_leaves env b p
    rw [h, if_neg (by simp)] at hbuffer
    refine ⟨hbuffer, fun t ht => ?_⟩
    have hstate : (Session.rollback env ⟨b, p⟩).state.below = (p.change _).2 :=
      congrArg Prod.snd hbelow
    show b.Spares t (Session.rollback env ⟨b, p⟩).state.below.table
    rw [hstate]
    exact Probe.change_keeps (fun c hc t' ht' => ht'.apply (b.asks_of_mem_freeingAll hc)) ht

/-- Ends that fail, in any number and order, leave the buffer as it is and the store as it was but
for keys that a commit writes. -/
theorem spares_of_failedEnds {s s' : Session κ ν (Probe κ ν)}
    (h : Relation.ReflTransGen FailedEnd s s') :
    s'.buffer = s.buffer ∧ s.buffer.Spares s.below.table s'.below.table := by
  induction h with
  | refl => exact ⟨rfl, rfl, fun _ _ _ _ => rfl⟩
  | tail _ hend ih =>
    obtain ⟨hbuffer, hspares⟩ := ih
    obtain ⟨hbuffer', hspares'⟩ := hend.spares
    rw [hbuffer] at hbuffer' hspares'
    exact ⟨hbuffer', hspares' _ hspares⟩

/-- **A failed end keeps the session, and trying again gets there.** Whatever fails and in whatever
order entries are visited, the failure of a commit is that of the first call that fails among those
that publish, or else among those that free missed keys; that of a rollback is the first one too.
However many ends have failed, the session has gathered what it had gathered before them, and the
commit that succeeds at last leaves the store as a single commit would have left it. -/
theorem failed_ends_converge (hb : b.Sound) (p : Probe κ ν) :
    (∀ env, (commit env ⟨b, p⟩).result = Faults.answer
      ((p.faults.first p.count ((b.publishing env.visit).map Change.call)).or
        (p.faults.first (p.count + (b.publishing env.visit).length)
          ((b.freeing env.visit).map Change.call)))) ∧
    (∀ env, (rollback env ⟨b, p⟩).result = Faults.answer
      (p.faults.first p.count ((b.freeingAll env.visit).map Change.call))) ∧
    ∀ s, Relation.ReflTransGen FailedEnd ⟨b, p⟩ s →
      s.buffer = b ∧
      ∀ env, (commit env s).result = .ok () →
        (commit env s).state.buffer = {} ∧
        ∀ env' (p' : Probe κ ν), p'.table = p.table → (commit env' ⟨b, p'⟩).result = .ok () →
          (commit env s).state.below.table = (commit env' ⟨b, p'⟩).state.below.table := by
  refine ⟨fun env => ?_, fun env => ?_, fun s hs => ?_⟩
  · -- the failure of a commit
    obtain ⟨hresult, -⟩ : Op.Leaves _ _ _ _ := commit_leaves env b p
    rw [hresult, Probe.change_result, List.map_append, Faults.first_append, List.length_map]
  · -- the failure of a rollback
    obtain ⟨hbelow, -⟩ : Op.Leaves _ _ _ _ := rollback_leaves env b p
    rw [← Probe.change_result]
    exact congrArg Prod.fst hbelow
  · -- the commit that succeeds at last
    obtain ⟨hbuffer, hspares⟩ := spares_of_failedEnds hs
    refine ⟨hbuffer, fun env hok => ?_⟩
    obtain ⟨b', q⟩ := s
    obtain rfl : b' = b := hbuffer
    obtain ⟨hended, htable⟩ := commit_of_ok hok
    refine ⟨hended, fun env' p' hp' hok' => ?_⟩
    obtain ⟨-, htable'⟩ := commit_of_ok hok'
    rw [htable, htable', hp']
    exact Buffer.published_eq_of_spares hb hspares env'.visit env.visit

/-- A commit clears the store and fails at its second write; a rollback fails as well. The commit
after that leaves what a commit without failures leaves. -/
theorem commit_after_failed_ends :
    let a : Value := ⟨0, "a"⟩
    let b : Buffer Nat Value := ⟨true, [(1, some a), (2, none)], [2, 3]⟩
    let faults : Faults Nat := fun n _ => if n = 2 ∨ n = 5 then some (.backend "down") else none
    let t : Table Nat Value := (Table.named "users").put 4 (some a)
    let p : Probe Nat Value := ⟨t, false, false, faults, [], [], 0⟩
    let s₁ := (commit .alone ⟨b, p⟩).state
    let s₂ := (rollback .alone s₁).state
    b.Sound ∧ (commit .alone ⟨b, p⟩).result = .error (.backend "down") ∧
      (rollback .alone s₁).result = .error (.backend "down") ∧
      (commit .alone s₂).result = .ok () ∧
      (commit .alone s₂).state.below.table =
        (commit .alone ⟨b, { p with faults := Faults.never }⟩).state.below.table := by
  intro a b faults t p s₁ s₂
  have hb : b.Sound := ⟨by decide, by decide⟩
  obtain ⟨-, -, h⟩ := failed_ends_converge hb p
  have hcommit : (commit .alone ⟨b, p⟩).result = .error (.backend "down") := rfl
  have hrollback : (rollback .alone s₁).result = .error (.backend "down") := by decide +kernel
  have hfirst : FailedEnd ⟨b, p⟩ s₁ := .commit .alone _ _ hcommit
  have hsecond : FailedEnd s₁ s₂ := .rollback .alone _ _ hrollback
  have hlast : (commit .alone s₂).result = .ok () := by decide +kernel
  have hsingle : (commit .alone ⟨b, { p with faults := Faults.never }⟩).result = .ok () := by
    decide +kernel
  obtain ⟨-, h⟩ := h s₂ (.tail (.single hfirst) hsecond)
  exact ⟨hb, hcommit, hrollback, hlast, (h .alone hlast).2 .alone _ rfl hsingle⟩

end Session

end SoftTier
