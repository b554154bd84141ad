import SoftTier.Proofs.Blocking.Stranding
import SoftTier.Proofs.Session.Retry

/-!
# What failed commits leave

A commit over a store that fails stops at the first change that fails, and so does the freeing of
missed keys that follows. So a failed commit need not free every key that it could free: the keys
after the one that cannot be freed stay as they are. And what it has published by then stays
published. A rollback knows nothing of that: it puts a miss under every missed key, and takes back
nothing.

- `Probe.frees_up_to`: of keys that are freed in turn, those before the first failure are free.
- `Session.commit_frees_up_to_failure`: which missed keys a commit leaves blocked.
- `Sharing.Unended`: a session is the only one to end, and its ends fail.
- `Sharing.published`: the changes that commits have published by the time they failed.
- `Sharing.rollback_after_failed_ends`: what a rollback leaves after ends that failed.
-/

namespace SoftTier

variable {ι κ ν : Type} [DecidableEq κ]

theorem Buffer.freeing_eq (visit : Visit) (b : Buffer κ ν) :
    b.freeing visit = (b.due visit).map fun k => .put k none := rfl

variable [Ord κ] [Std.TransOrd κ]

/-! ## Keys that a commit does not free -/

/-- When keys are freed in turn, those before the first failure are left as misses and are not
blocked; the others are left alone. -/
theorem Probe.frees_up_to [Std.LawfulEqOrd κ] (l : List κ) (p : Probe κ ν) :
    let row : List (Change κ ν) := l.map fun k => .put k none
    ∃ freed stuck, l = freed ++ stuck ∧
      (∀ k, (p.change row).2.table.entries[k]? =
        if k ∈ freed then some none else p.table.entries[k]?) ∧
      (∀ k, k ∈ (p.change row).2.blocked ↔ k ∈ p.blocked ∧ k ∉ freed) ∧
      (stuck = [] ∧ (p.change row).1 = .ok () ∨
        ∃ k rest e, stuck = k :: rest ∧ p.faults (p.count + freed.length) (.writeMiss k) = some e ∧
          (p.change row).1 = .error e) := by
  intro row
  obtain ⟨left, hrow, hends⟩ := made_append row p
  obtain ⟨freed, stuck, hl, hfreed, hstuck⟩ := List.map_eq_append_iff.mp hrow
  refine ⟨freed, stuck, hl, fun k => ?_, fun k => ?_, ?_⟩
  · rw [table_change, ← hfreed, List.foldl_map]
    exact Table.getElem?_putMisses freed k p.table
  · rw [mem_blocked_change, ← hfreed]
    refine and_congr_right' ⟨fun hput hk => ?_, fun hk entry hput => ?_⟩
    · exact hput none (List.mem_map_of_mem hk)
    · obtain ⟨k', hk', heq⟩ := List.mem_map.mp hput
      cases heq
      exact hk hk'
  · rw [← hfreed, List.length_map] at hends
    rcases hends with ⟨hnil, hok⟩ | ⟨c, rest, e, hleft, hfault, herror⟩
    · exact .inl ⟨List.map_eq_nil_iff.mp (hstuck.trans hnil), hok⟩
    · obtain ⟨k, rest', rfl, rfl, -⟩ := List.map_eq_cons_iff.mp (hstuck.trans hleft)
      exact .inr ⟨k, rest', e, rfl, hfault, herror⟩

namespace Session

variable [Std.LawfulEqOrd κ] [Keeper ν]

/-- **A commit frees missed keys up to the first that it cannot free.** Whatever a session has
gathered, whichever calls on its store fail and in whatever order the keys are visited: the missed
keys without a write of their own are freed in turn, also if publishing has failed. Those before the
first whose miss cannot be put are left as misses and free; every other key is left as publishing
left it, the ones after the failure among them, and the session keeps all its notes. So a commit
frees all of them if none of their misses fails, whatever else does. -/
theorem commit_frees_up_to_failure (b : Buffer κ ν) (p : Probe κ ν) (env : Ambient) :
    let result := (commit env ⟨b, p⟩).result
    let after := (commit env ⟨b, p⟩).state
    let published := (p.change (b.publishing env.visit)).2
    ∃ freed stuck, b.due env.visit = freed ++ stuck ∧
      (∀ k ∈ freed, after.below.table.entries[k]? = some none ∧ k ∉ after.below.blocked) ∧
      (∀ k, k ∉ freed → after.below.table.entries[k]? = published.table.entries[k]? ∧
        (k ∈ after.below.blocked ↔ k ∈ published.blocked)) ∧
      (∀ k rest, stuck = k :: rest →
        (∃ e, p.faults (published.count + freed.length) (.writeMiss k) = some e) ∧
          (∃ e, result = .error e) ∧ after.buffer = b) ∧
      ((∀ n, ∀ k ∈ b.due env.visit, p.faults n (.writeMiss k) = none) → stuck = []) := by
  intro result after published
  obtain ⟨hresult, hbelow, hbuffer⟩ : Op.Leaves _ _ _ _ := commit_leaves env b p
  rw [b.freeing_eq] at hresult hbelow
  obtain ⟨freed, stuck, hdue, hentry, hblocked, hends⟩ :=
    published.frees_up_to (b.due env.visit)
  have hfaults : published.faults = p.faults := Probe.faults_change _ p
  rw [hfaults] at hends
  refine ⟨freed, stuck, hdue, fun k hk => ?_, fun k hk => ?_, fun k rest hstuck => ?_,
    fun hnever => ?_⟩
  · -- a key that is freed
    constructor
    · rw [hbelow, hentry, if_pos hk]
    · rw [hbelow, hblocked]
      exact fun hand => hand.2 hk
  · -- any other key
    constructor
    · rw [hbelow, hentry, if_neg hk]
    · rw [hbelow, hblocked]
      exact and_iff_left hk
  · -- the key that cannot be freed
    obtain ⟨hnil, -⟩ | ⟨k', rest', e, hstuck', hfault, herror⟩ := hends
    · exact absurd (hnil.symm.trans hstuck) (by simp)
    obtain ⟨rfl, rfl⟩ := List.cons.inj (hstuck'.symm.trans hstuck)
    have hfails : ∃ e, result = .error e := by
      rw [Probe.change_append] at hresult
      cases hpublish : p.change (b.publishing env.visit) with
      | mk r p' =>
        have hp' : published = p' := congrArg Prod.snd hpublish
        rw [hpublish] at hresult
        cases r with
        | error e' => exact ⟨e', hresult⟩
        | ok u => exact ⟨e, hresult.trans (hp' ▸ herror)⟩
    obtain ⟨e', he'⟩ := hfails
    have hne : ¬(commit env ⟨b, p⟩).result = .ok () := fun hok =>
      absurd (he'.symm.trans hok) (by simp)
    exact ⟨⟨e, hfault⟩, ⟨e', he'⟩, hbuffer.trans (if_neg hne)⟩
  · -- nothing stays behind if no miss fails
    obtain ⟨hnil, -⟩ | ⟨k, rest, e, rfl, hfault, -⟩ := hends
    · exact hnil
    · have hk : k ∈ b.due env.visit := by
        rw [hdue]
        exact List.mem_append_right freed List.mem_cons_self
      exact absurd ((hnever _ k hk).symm.trans hfault) (by simp)

/-- A commit whose only write fails has freed both missed keys all the same. -/
theorem failed_commit_frees_missed :
    let a : Value := ⟨0, "a"⟩
    let b : Buffer Nat Value := ⟨false, [(3, some a)], [1, 2]⟩
    let faults : Faults Nat := fun _ c => if c = .write 3 then some (.backend "down") else none
    let p : Probe Nat Value := ⟨Table.named "users", true, false, faults, [1, 2], [], 0⟩
    let after := (commit .alone ⟨b, p⟩).state
    (commit .alone ⟨b, p⟩).result = .error (.backend "down") ∧ b.due .asListed = [1, 2] ∧
      ∀ k ∈ [1, 2], after.below.table.entries[k]? = some none ∧ k ∉ after.below.blocked := by
  intro a b faults p after
  obtain ⟨freed, stuck, hdue, hfreed, -, -, hall⟩ := commit_frees_up_to_failure b p .alone
  have hnil : stuck = [] := hall fun n k _ => by
    show (if Call.writeMiss k = .write 3 then some (Failure.backend "down") else none) = none
    exact if_neg nofun
  rw [hnil, List.append_nil] at hdue
  exact ⟨rfl, rfl, fun k hk => hfreed k (hdue ▸ hk)⟩

/-- Two keys are missed and nothing else is to be done. The miss of the first fails and that of the
second would not, but the commit stops before it, and the second key stays blocked. -/
theorem failed_commit_leaves_blocked :
    let b : Buffer Nat Value := ⟨false, [], [1, 2]⟩
    let faults : Faults Nat := fun _ c => if c = .writeMiss 1 then some (.backend "down") else none
    let p : Probe Nat Value := ⟨Table.named "users", true, false, faults, [1, 2], [], 0⟩
    let after := (commit .alone ⟨b, p⟩).state
    (commit .alone ⟨b, p⟩).result = .error (.backend "down") ∧
      2 ∈ b.missed ∧ b.pending.has 2 = false ∧ (∀ n, faults n (.writeMiss 2) = none) ∧
      after.below.received = [.writeMiss 1] ∧ 2 ∈ after.below.blocked ∧
      after.below.table.entries[2]? = none :=
  ⟨rfl, by decide, rfl, fun _ => rfl, rfl, by decide, rfl⟩

end Session

/-! ## Rolling back after failed ends -/

namespace Sharing

/-- Whether the act is an end. -/
def Act.ends : Act κ ν → Bool
  | .commit | .rollback => true
  | _ => false

/-- The changes that a session has published when this act is over. -/
def Act.publishes (env : Ambient) (s : Session κ ν (Probe κ ν)) : Act κ ν → List (Change κ ν)
  | .commit => s.below.made (s.buffer.publishing env.visit)
  | _ => []

/-- What an act leaves that is no end, or an end that fails: nothing is struck off the notes, and
entries are as the changes published leave them, but for keys that an end may have freed. -/
structure Keeps (env : Ambient) (act : Act κ ν) (s s' : Session κ ν (Probe κ ν)) : Prop where
  missed : s.buffer.missed ⊆ s'.buffer.missed
  entry_eq : ∀ k, (act.ends = true → k ∉ s.buffer.missed) → s'.below.table.entries[k]? =
    ((act.publishes env s).foldl Change.apply s.below.table).entries[k]?

/-- An act that publishes nothing and changes no entry. -/
theorem Keeps.of_table_eq {env : Ambient} {act : Act κ ν} {s s' : Session κ ν (Probe κ ν)}
    (hpublishes : act.publishes env s = []) (htable : s'.below.table = s.below.table)
    (hmissed : s.buffer.missed ⊆ s'.buffer.missed) : Keeps env act s s' := by
  refine ⟨hmissed, fun k _ => ?_⟩
  rw [hpublishes, htable]
  rfl

variable [Std.LawfulEqOrd κ]

/-- Freeing missed keys changes no other. -/
theorem entry_eq_of_freed {l : List κ} {b : Buffer κ ν} {visit : Visit} {p : Probe κ ν} {k : κ}
    (hl : l ⊆ visit.arrange b.missed) (hk : k ∉ b.missed) :
    (p.change (l.map fun k => .put k none)).2.table.entries[k]? = p.table.entries[k]? := by
  obtain ⟨freed, stuck, rfl, hentry, -⟩ := p.frees_up_to l
  rw [hentry, if_neg fun hfreed => ?_]
  exact hk ((visit.arrange_perm b.missed).mem_iff.mp (hl (List.mem_append_left stuck hfreed)))

variable [Keeper ν]

theorem Act.perform_keeps (act : Act κ ν) (env : Ambient) (b : Buffer κ ν) (p : Probe κ ν) :
    (act.perform : Op (Session κ ν (Probe κ ν)) (Answer ν)).Leaves env ⟨b, p⟩ fun r s' =>
      (act.ends = true → ∃ e, r = .error e) → Keeps env act ⟨b, p⟩ s' := by
  -- what is asked of the store by an act that is no end
  have hbelow : ∀ {α : Type} {x : Op (Probe κ ν) α},
      (x.Leaves (env.also b) p fun _ p' => p'.table = p.table) →
      (Session.onBelow x : Op (Session κ ν (Probe κ ν)) α).Leaves env ⟨b, p⟩ fun _ s' =>
        s'.buffer = b ∧ s'.below.table = p.table := fun hx =>
    Session.onBelow_leaves (s := ⟨b, p⟩) (Q := fun _ p' => p'.table = p.table) hx
  cases act with
  | write k a =>
    refine (Session.note_yields _).bind_leaves ((Op.yields_pure _).leaves ?_)
    exact fun _ => .of_table_eq rfl rfl fun _ hk => hk
  | writeMiss k =>
    refine (Session.note_yields _).bind_leaves ((Op.yields_pure _).leaves ?_)
    exact fun _ => .of_table_eq rfl rfl fun _ hk => hk
  | erase k =>
    refine (Op.yields_pure none).bind_leaves ((Op.yields_pure _).leaves ?_)
    exact fun _ => .of_table_eq rfl rfl fun _ hk => hk
  | clear =>
    refine (Session.note_yields _).bind_leaves ((Op.yields_pure _).leaves ?_)
    exact fun _ => .of_table_eq rfl rfl fun _ hk => hk
  | size =>
    refine (hbelow (Probe.size_answers.leaves (fun _ _ => rfl) fun _ => rfl)).bind ?_ ?_
    · rintro n s' ⟨rfl, htable⟩
      exact (Op.yields_pure _).leaves fun _ => .of_table_eq rfl htable fun _ hk => hk
    · rintro e s' ⟨rfl, htable⟩
      exact fun _ => .of_table_eq rfl htable fun _ hk => hk
  | read k =>
    have hread : Op.Leaves (Store.read k : Op (Probe κ ν) (Option ν)) (env.also b) p fun _ p' =>
        p'.table = p.table :=
      (Probe.read_answers k).leaves (fun _ _ => rfl) fun _ => Probe.table_searched k _
    refine Op.Leaves.bind (R := fun _ s' => Keeps env (.read k) ⟨b, p⟩ s') ?_ ?_ ?_
    · refine (hbelow hread).bind ?_ ?_
      · rintro found s' ⟨rfl, htable⟩
        split
        · refine (Session.note_yields _).bind_leaves ((Op.yields_read _).bind_leaves ?_)
          refine (Op.yields_pure _).leaves ?_
          exact .of_table_eq rfl htable fun _ hk => List.mem_insert_of_mem hk
        · refine ((Op.yields_read _).bind (Op.yields_pure _)).leaves ?_
          exact .of_table_eq rfl htable fun _ hk => hk
      · rintro e s' ⟨rfl, htable⟩
        exact .of_table_eq rfl htable fun _ hk => hk
    · exact fun found s' h => (Op.yields_pure _).leaves fun _ => h
    · exact fun e s' h _ => h
  | commit =>
    refine (Session.commit_leaves env b p).bind ?_ ?_
    · rintro ⟨⟩ s' -
      exact (Op.yields_pure _).leaves fun herror => absurd (herror rfl) (by simp)
    · rintro e s' ⟨-, hfreed, hbuffer⟩ -
      rw [if_neg (by simp)] at hbuffer
      refine ⟨fun k hk => hbuffer ▸ hk, fun k hk => ?_⟩
      have hdue : b.due env.visit ⊆ env.visit.arrange b.missed := List.filter_subset_self _
      rw [hfreed, b.freeing_eq, entry_eq_of_freed hdue (hk rfl), Probe.table_change]
      rfl
  | rollback =>
    refine (Session.rollback_leaves env b p).bind ?_ ?_
    · rintro ⟨⟩ s' -
      exact (Op.yields_pure _).leaves fun herror => absurd (herror rfl) (by simp)
    · rintro e s' ⟨hfreed, hbuffer⟩ -
      rw [if_neg (by simp)] at hbuffer
      refine ⟨fun k hk => hbuffer ▸ hk, fun k hk => ?_⟩
      have hstate : s'.below = (p.change (b.freeingAll env.visit)).2 := congrArg Prod.snd hfreed
      rw [hstate, Buffer.freeingAll, entry_eq_of_freed (List.Subset.refl _) (hk rfl)]
      rfl

variable [DecidableEq ι]

/-- Along these acts no other session than `i` ends, and every end of `i` fails. -/
def Unended (i : ι) : Sharing ι κ ν (Probe κ ν) → List (Ambient × ι × Act κ ν) → Prop
  | _, [] => True
  | w, (env, j, act) :: acts =>
    (act.ends = true → j = i ∧ ∃ e, (act.perform env ⟨w.buffers j, w.store⟩ :
      Outcome (Session κ ν (Probe κ ν)) (Answer ν)).result = .error e) ∧
      Unended i (w.step env j act) acts

/-- The changes that sessions have published along these acts, the first one in front. -/
def published :
    Sharing ι κ ν (Probe κ ν) → List (Ambient × ι × Act κ ν) → List (Change κ ν)
  | _, [] => []
  | w, (env, i, act) :: acts =>
    act.publishes env ⟨w.buffers i, w.store⟩ ++ published (w.step env i act) acts

variable {i : ι} {w : Sharing ι κ ν (Probe κ ν)} {acts : List (Ambient × ι × Act κ ν)}

theorem Unended.step {env : Ambient} {j : ι} {act : Act κ ν}
    (h : Unended i w ((env, j, act) :: acts)) :
    (w.buffers i).missed ⊆ ((w.step env j act).buffers i).missed ∧
      ∀ k, k ∉ (w.buffers i).missed → (w.step env j act).store.table.entries[k]? =
        ((act.publishes env ⟨w.buffers j, w.store⟩).foldl Change.apply
          w.store.table).entries[k]? := by
  obtain ⟨hends, -⟩ := h
  have hkeeps : Op.Leaves _ _ _ _ := act.perform_keeps env (w.buffers j) w.store
  obtain ⟨hmissed, hentry⟩ := hkeeps fun hend => (hends hend).2
  rw [step_perform]
  refine ⟨fun k hk => ?_, fun k hk => hentry k fun hend => ?_⟩
  · dsimp only
    by_cases hij : i = j
    · subst hij
      rw [Function.update_self]
      exact hmissed hk
    · rw [Function.update_of_ne hij]
      exact hk
  · rw [(hends hend).1]
    exact hk

theorem Unended.missed_subset (h : Unended i w acts) :
    (w.buffers i).missed ⊆ ((w.run acts).buffers i).missed := by
  induction acts generalizing w with
  | nil => exact List.Subset.refl _
  | cons a acts ih => exact List.Subset.trans h.step.1 (ih h.2)

/-- A key that the session has not missed is as the changes published leave it. -/
theorem Unended.entry_eq (h : Unended i w acts) {k : κ}
    (hk : k ∉ ((w.run acts).buffers i).missed) :
    (w.run acts).store.table.entries[k]? =
      ((w.published acts).foldl Change.apply w.store.table).entries[k]? := by
  induction acts generalizing w with
  | nil => rfl
  | cons a acts ih =>
    obtain ⟨env, j, act⟩ := a
    have hbefore : k ∉ (w.buffers i).missed := fun hmem => hk (h.missed_subset hmem)
    have hstep := h.step.2 k hbefore
    calc ((w.step env j act).run acts).store.table.entries[k]?
        = (((w.step env j act).published acts).foldl Change.apply
            (w.step env j act).store.table).entries[k]? := ih h.2 hk
      _ = ((w.published ((env, j, act) :: acts)).foldl Change.apply
            w.store.table).entries[k]? := by
        rw [published, List.foldl_append]
        exact Change.foldl_apply_congr _ hstep

/-- A rollback that succeeds puts a miss under every missed key and changes no other. -/
theorem step_rollback {env : Ambient}
    (hok : (Session.rollback env ⟨w.buffers i, w.store⟩).result = .ok ()) (k : κ) :
    (w.step env i .rollback).store.table.entries[k]? =
      if k ∈ (w.buffers i).missed then some none else w.store.table.entries[k]? := by
  have hsame : Op.Leaves (Act.rollback.perform : Op (Session κ ν (Probe κ ν)) (Answer ν)) env
      ⟨w.buffers i, w.store⟩ fun _ s => s = (Session.rollback env ⟨w.buffers i, w.store⟩).state :=
    Op.Leaves.bind (R := fun _ s => s = _) rfl (fun _ _ h => (Op.yields_pure _).leaves h)
      fun _ _ h => h
  obtain ⟨hfreed, -⟩ : Op.Leaves _ _ _ _ :=
    Session.rollback_leaves env (w.buffers i) w.store
  have hresult := (congrArg Prod.fst hfreed).symm.trans hok
  have hbelow : (w.step env i .rollback).store = (w.store.change _).2 :=
    (congrArg Session.below hsame).trans (congrArg Prod.snd hfreed)
  have hmisses : (w.step env i .rollback).store.table =
      w.store.table.putMisses (env.visit.arrange (w.buffers i).missed) := by
    rw [hbelow, Probe.change_table hresult, Buffer.freeingAll, List.foldl_map]
    rfl
  rw [hmisses, Table.getElem?_putMisses]
  simp only [(env.visit.arrange_perm _).mem_iff]

/-- **A rollback takes back nothing that failed ends have published, and publishes nothing.** Let
sessions over a store that fails do whatever they like, with one session that tries to end, as often
as it likes, and fails each time, and let it then roll back. Each key that it has missed is left as
a miss. Every other key is as the clears and writes make it that its commits had published when they
failed: it reads as before them unless one of these is a clear or a write to this very key. And a
value that can be read was there before, or is one that a commit had published under a key that the
session has not missed. -/
theorem rollback_after_failed_ends (h : Unended i w acts) (env : Ambient)
    (hok : (Session.rollback env ⟨(w.run acts).buffers i, (w.run acts).store⟩).result = .ok ()) :
    let missed := ((w.run acts).buffers i).missed
    let after := (w.run acts).step env i .rollback
    (∀ k, after.store.table.entries[k]? = if k ∈ missed then some none
      else ((w.published acts).foldl Change.apply w.store.table).entries[k]?) ∧
    (∀ k, k ∉ missed → .clear ∉ w.published acts → (∀ entry, .put k entry ∉ w.published acts) →
      after.store.table.entries[k]? = w.store.table.entries[k]?) ∧
    ∀ k a, after.store.table.value? k = some a →
      w.store.table.value? k = some a ∨ k ∉ missed ∧ .put k (some a) ∈ w.published acts := by
  intro missed after
  have hall : ∀ k, after.store.table.entries[k]? = if k ∈ missed then some none
      else ((w.published acts).foldl Change.apply w.store.table).entries[k]? := by
    intro k
    rw [step_rollback hok]
    split
    · rfl
    · rename_i hk
      exact h.entry_eq hk
  refine ⟨hall, fun k hk hclear hput => ?_, fun k a hvalue => ?_⟩
  · rw [hall, if_neg hk]
    exact Change.foldl_apply_untouched hclear hput _
  · have hentry : after.store.table.entries[k]? = some (some a) := Option.join_eq_some_iff.mp hvalue
    rw [hall] at hentry
    split at hentry
    · exact absurd hentry (by simp)
    · rename_i hk
      refine (Change.entry_of_foldl_apply hentry).imp (fun hbefore => ?_) fun hput => ⟨hk, hput⟩
      exact Option.join_eq_some_iff.mpr hbefore

/-- A commit fails at the second of its writes. The rollback frees the key that was missed, and of
the other keys all but the one written first read as before. -/
theorem rollback_after_failed_write :
    let a : Value := ⟨0, "a"⟩
    let b : Value := ⟨1, "b"⟩
    let faults : Faults Nat := fun _ c => if c = .write 3 then some (.backend "down") else none
    let t : Table Nat Value := (Table.named "users").put 4 (some a)
    let w : Sharing Nat Nat Value (Probe Nat Value) := start ⟨t, true, false, faults, [], [], 0⟩
    let acts : List (Ambient × Nat × Act Nat Value) :=
      [(0, .read 1), (0, .write 2 b), (0, .write 3 b), (0, .commit)].map (Ambient.alone, ·)
    let after := (w.run acts).step .alone 0 .rollback
    Unended 0 w acts ∧
      (Session.rollback .alone ⟨(w.run acts).buffers 0, (w.run acts).store⟩).result = .ok () ∧
      after.store.table.entries[1]? = some none ∧ after.store.table.entries[2]? = some (some b) ∧
      ∀ k, k ≠ 1 → k ≠ 2 → after.store.table.entries[k]? = w.store.table.entries[k]? := by
  intro a b faults t w acts after
  have h : Unended 0 w acts :=
    ⟨nofun, nofun, nofun, fun _ => ⟨rfl, .backend "down", rfl⟩, trivial⟩
  have hok : (Session.rollback .alone ⟨(w.run acts).buffers 0, (w.run acts).store⟩).result =
      .ok () := by decide
  have hmissed : ((w.run acts).buffers 0).missed = [1] := by decide
  have hpublished : w.published acts = [.put 2 (some b)] := rfl
  obtain ⟨hall, hsame, -⟩ := rollback_after_failed_ends h .alone hok
  rw [hmissed, hpublished] at hall hsame
  refine ⟨h, hok, ?_, ?_, fun k hk hk' => ?_⟩
  · rw [hall]
    rfl
  · rw [hall]
    rfl
  · rw [hsame k]
    · exact fun hmem => hk (List.mem_singleton.mp hmem)
    · exact fun hmem => absurd (List.mem_singleton.mp hmem) nofun
    · intro entry hput
      cases List.mem_singleton.mp hput
      exact hk' rfl

/-- A session clears the store and writes two values, the second of which fails. Its rollback brings
nothing back: a key that it has not missed has lost its value, and the value written first stays. -/
theorem rollback_after_failed_clear :
    let a : Value := ⟨0, "a"⟩
    let b : Value := ⟨1, "b"⟩
    let faults : Faults Nat := fun _ c => if c = .write 3 then some (.backend "down") else none
    let t : Table Nat Value := (Table.named "users").put 4 (some a)
    let w : Sharing Nat Nat Value (Probe Nat Value) := start ⟨t, true, false, faults, [], [], 0⟩
    let acts : List (Ambient × Nat × Act Nat Value) :=
      [(0, .clear), (0, .write 2 b), (0, .write 3 b), (0, .commit)].map (Ambient.alone, ·)
    let after := (w.run acts).step .alone 0 .rollback
    Unended 0 w acts ∧
      (Session.rollback .alone ⟨(w.run acts).buffers 0, (w.run acts).store⟩).result = .ok () ∧
      ((w.run acts).buffers 0).missed = [] ∧
      w.store.table.value? 4 = some a ∧ after.store.table.value? 4 = none ∧
      w.store.table.value? 2 = none ∧ after.store.table.value? 2 = some b := by
  intro a b faults t w acts after
  have h : Unended 0 w acts :=
    ⟨nofun, nofun, nofun, fun _ => ⟨rfl, .backend "down", rfl⟩, trivial⟩
  exact ⟨h, by decide, rfl, rfl, by decide, rfl, by decide⟩

end Sharing

end SoftTier
