import SoftTier.Proofs.Blocking.Candor
import SoftTier.Proofs.Session.Operations
import SoftTier.Proofs.Session.Sharing

/-!
# How a session accounts for the keys it blocks

Over a candid store, a session learns of every key that it has blocked, and notes it as missed. It
strikes a key off its notes only when it has ended, and has ended only when it has written to every
key on them. None of this asks that the store does not fail.

- `Buffer.flush_frees`, `Buffer.freeMissed_frees`, `Buffer.freeAll_frees`: what the parts of an end
  free.
- `Session.commit_frees`, `Session.rollback_frees`: what an end frees.
- `Sharing.Entry.misses`, `Sharing.Entry.ends`: what an entry on record says.
- `Sharing.Accounts`, `Sharing.Act.perform_accounts`: every act keeps to this.
-/

namespace SoftTier

variable {ι κ ν σ : Type} {blocked : σ → List κ}

/-! ## What an end sends to the store -/

namespace Buffer

variable [Store σ κ ν]

theorem send_frees (h : Candid blocked) (e : κ × Option ν) :
    (send e : Op σ Unit).FreesAll blocked [e.1] := by
  obtain ⟨k, entry⟩ := e
  cases entry with
  | none => exact h.writeMiss k
  | some a => exact h.write k a

theorem flush_frees (h : Candid blocked) (b : Buffer κ ν) :
    (b.flush : Op σ Unit).FreesAll blocked b.pending.keys := by
  have hsend : Op.FreesAll blocked b.pending.keys
      (do Op.each send (← Op.visiting b.pending) : Op σ Unit) := by
    refine Op.freesAll_visiting fun l hl => ?_
    exact (Op.freesAll_each (send_frees h) l).mono (hl.map Prod.fst).symm.subset
  unfold flush
  split
  · exact Op.Follows.bind_freesAll h.clear fun _ => hsend
  · exact hsend

theorem freeAll_frees (h : Candid blocked) (b : Buffer κ ν) :
    (b.freeAll : Op σ Unit).FreesAll blocked b.missed := by
  refine Op.freesAll_visiting fun l hl => ?_
  have hall : (Op.each Store.writeMiss l : Op σ Unit).FreesAll blocked (l.map id) :=
    Op.freesAll_each h.writeMiss l
  rw [List.map_id] at hall
  exact hall.mono hl.symm.subset

variable [DecidableEq κ]

theorem freeMissed_frees (h : Candid blocked) (b : Buffer κ ν) :
    (b.freeMissed : Op σ Unit).FreesAll blocked (b.missed.filter fun k => !b.pending.has k) := by
  refine Op.freesAll_visiting fun l hl => ?_
  have hall : (Op.each Store.writeMiss (l.filter fun k => !b.pending.has k) : Op σ Unit).FreesAll
      blocked ((l.filter fun k => !b.pending.has k).map id) := Op.freesAll_each h.writeMiss _
  rw [List.map_id] at hall
  exact hall.mono (hl.filter _).symm.subset

end Buffer

/-! ## What an end frees -/

namespace Session

/-- An end blocks nothing. If it succeeds, no missed key is blocked any more and the notes are
empty; if it fails, they are as they were. -/
structure Frees (blocked : σ → List κ) (s : Session κ ν σ) (r : Except Failure Unit)
    (s' : Session κ ν σ) : Prop where
  subset : blocked s'.below ⊆ blocked s.below
  disjoint : r = .ok () → s.buffer.missed.Disjoint (blocked s'.below)
  buffer_eq : s'.buffer = if r = .ok () then {} else s.buffer

variable [Keeper ν] [Store σ κ ν] {env : Ambient}

theorem rollback_frees (h : Candid blocked) (s : Session κ ν σ) :
    (rollback : Op (Session κ ν σ) Unit).Leaves env s (Frees blocked s) := by
  refine (rollback_leaves_of (s.buffer.freeAll_frees h _ s.below)).imp ?_
  rintro r s' ⟨⟨hsub, hfree⟩, hbuffer⟩
  exact ⟨hsub, hfree (), hbuffer⟩

variable [DecidableEq κ]

theorem commit_frees (h : Candid blocked) (s : Session κ ν σ) :
    (commit : Op (Session κ ν σ) Unit).Leaves env s (Frees blocked s) := by
  have hfree : ∀ (published : Except Failure Unit) t,
      (blocked t ⊆ blocked s.below ∧
        ∀ u : Unit, published = .ok u → s.buffer.pending.keys.Disjoint (blocked t)) →
      Op.Leaves s.buffer.freeMissed (env.also s.buffer) t fun freed t' =>
        blocked t' ⊆ blocked s.below ∧
          (published = .ok () → freed = .ok () → s.buffer.missed.Disjoint (blocked t')) := by
    rintro published t ⟨hsub, hpublished⟩
    refine (s.buffer.freeMissed_frees h _ t).imp ?_
    rintro freed t' ⟨hsub', hfreed⟩
    refine ⟨List.Subset.trans hsub' hsub, fun hok hok' k hk hblocked => ?_⟩
    -- a missed key was written to either way, with its pending write or with a miss
    by_cases hpending : k ∈ s.buffer.pending.keys
    · exact hpublished () hok hpending (hsub' hblocked)
    · have hhas : (!s.buffer.pending.has k) = true := by
        rw [Assoc.has_eq_false_iff.mpr hpending]
        rfl
      exact hfreed () hok' (List.mem_filter.mpr ⟨hk, hhas⟩) hblocked
  refine (commit_leaves_of (s.buffer.flush_frees h _ s.below) hfree).imp ?_
  rintro r s' ⟨published, freed, ⟨hsub, hdisjoint⟩, hr, hbuffer⟩
  refine ⟨hsub, fun hok => ?_, hbuffer⟩
  -- a commit succeeds only if both of its parts do
  cases published with
  | error e => exact absurd (hr.symm.trans hok) (by simp [Except.bind])
  | ok u => exact hdisjoint rfl (hr.symm.trans hok)

/-- A lookup blocks nothing and leaves the notes alone, or else it blocks no other key, notes this
one and says that nothing was found. -/
theorem read_notes (h : Candid blocked) (k : κ) (s : Session κ ν σ) :
    (Store.read k : Op (Session κ ν σ) (Option ν)).Leaves env s fun r s' =>
      (blocked s'.below ⊆ blocked s.below ∧ s'.buffer = s.buffer) ∨
        (r = .ok none ∧ blocked s'.below ⊆ k :: blocked s.below ∧
          s'.buffer = s.buffer.miss k) := by
  refine (onBelow_leaves (h.read k _ _)).bind ?_ ?_
  · rintro found s₁ ⟨hbuffer, hlooks⟩
    cases found with
    | none =>
      refine (note_yields _).bind_leaves ((Op.yields_read _).bind_leaves ?_)
      refine (Op.yields_pure _).leaves (.inr ⟨by simp, fun k' hk' => ?_, ?_⟩)
      · rcases hlooks k' hk' with hk' | ⟨rfl, -⟩
        · exact List.mem_cons_of_mem k hk'
        · exact List.mem_cons_self
      · show s₁.buffer.miss k = s.buffer.miss k
        rw [hbuffer]
    | some a =>
      -- a pending clear may hide what was found, but then nothing was blocked
      refine (Op.yields_read _).bind_leaves ((Op.yields_pure _).leaves (.inl ⟨?_, hbuffer⟩))
      exact fun k' hk' => (hlooks k' hk').resolve_right fun hand => absurd hand.2 (by simp)
  · rintro e s' ⟨hbuffer, hlooks⟩
    refine .inl ⟨fun k' hk' => ?_, hbuffer⟩
    exact (hlooks k' hk').resolve_right fun hand => absurd hand.2 (by simp)

end Session

/-! ## Acts -/

namespace Sharing

/-- A key was looked up and nothing was found there. -/
def Entry.misses [DecidableEq κ] (k : κ) (e : Entry ι κ ν σ) : Bool :=
  match e.act, e.answer with
  | .read k', .found none => decide (k' = k)
  | _, _ => false

/-- The session has ended. -/
def Entry.ends (e : Entry ι κ ν σ) : Bool :=
  match e.act, e.answer with
  | .commit, .done => true
  | .rollback, .done => true
  | _, _ => false

variable [DecidableEq κ]

/-- The session accounts for what is blocked: it has noted a key that is newly blocked, it has
struck off its notes no key that is blocked, and on its notes are only keys that it has missed and
not ended since. -/
structure Accounts (blocked : σ → List κ) (e : Entry ι κ ν σ) (s s' : Session κ ν σ) : Prop where
  noted : ∀ k ∈ blocked s'.below, k ∈ blocked s.below ∨ k ∈ s'.buffer.missed
  kept : ∀ k ∈ s.buffer.missed, k ∈ blocked s'.below → k ∈ s'.buffer.missed
  missed : ∀ k ∈ s'.buffer.missed, e.misses k = true ∨ e.ends = false ∧ k ∈ s.buffer.missed

variable {e : Entry ι κ ν σ} {s s' : Session κ ν σ}

/-- An act that neither blocks nor notes a key. -/
theorem Accounts.of_missed_eq (hsub : blocked s'.below ⊆ blocked s.below)
    (hmissed : s'.buffer.missed = s.buffer.missed) (hends : e.ends = false) :
    Accounts blocked e s s' := by
  constructor
  · exact fun k hk => .inl (hsub hk)
  · intro k hk _
    rwa [hmissed]
  · intro k hk
    rw [hmissed] at hk
    exact .inr ⟨hends, hk⟩

/-- A lookup that finds nothing. -/
theorem Accounts.of_insert {k : κ} (hsub : blocked s'.below ⊆ k :: blocked s.below)
    (hmissed : s'.buffer.missed = s.buffer.missed.insert k) (hmisses : e.misses k = true)
    (hends : e.ends = false) : Accounts blocked e s s' := by
  constructor
  · intro k' hk'
    rw [hmissed]
    rcases List.mem_cons.mp (hsub hk') with rfl | hk'
    · exact .inr List.mem_insert_self
    · exact .inl hk'
  · intro k' hk' _
    rw [hmissed]
    exact List.mem_insert_of_mem hk'
  · intro k' hk'
    rw [hmissed] at hk'
    rcases List.mem_insert_iff.mp hk' with rfl | hk'
    · exact .inl hmisses
    · exact .inr ⟨hends, hk'⟩

/-- An end. -/
theorem Accounts.of_frees {r : Except Failure Unit} (h : Session.Frees blocked s r s')
    (hends : r ≠ .ok () → e.ends = false) : Accounts blocked e s s' := by
  by_cases hr : r = .ok ()
  · have hbuffer := h.buffer_eq
    rw [if_pos hr] at hbuffer
    constructor
    · exact fun k hk => .inl (h.subset hk)
    · exact fun k hk hblocked => absurd hblocked (h.disjoint hr hk)
    · intro k hk
      rw [hbuffer] at hk
      exact absurd hk List.not_mem_nil
  · have hbuffer := h.buffer_eq
    rw [if_neg hr] at hbuffer
    exact .of_missed_eq h.subset (congrArg Buffer.missed hbuffer) (hends hr)

/-- Whatever fails below it, a session accounts for what is blocked. -/
theorem Act.perform_accounts [Keeper ν] [Store σ κ ν] (h : Candid blocked) (env : Ambient) (i : ι)
    (act : Act κ ν) (s : Session κ ν σ) :
    (act.perform : Op (Session κ ν σ) (Answer ν)).Leaves env s fun r s' =>
      Accounts blocked ⟨i, act, .of r, s.below⟩ s s' := by
  cases act with
  | write k a =>
    refine (Session.note_yields _).bind_leaves ((Op.yields_pure _).leaves ?_)
    exact .of_missed_eq (List.Subset.refl _) rfl rfl
  | writeMiss k =>
    refine (Session.note_yields _).bind_leaves ((Op.yields_pure _).leaves ?_)
    exact .of_missed_eq (List.Subset.refl _) rfl rfl
  | read k =>
    refine (Session.read_notes h k s).bind ?_ ?_
    · rintro found s' (⟨hsub, hbuffer⟩ | ⟨⟨rfl⟩, hsub, hbuffer⟩)
      · refine (Op.yields_pure _).leaves ?_
        exact .of_missed_eq hsub (congrArg Buffer.missed hbuffer) rfl
      · have hmissed : s'.buffer.missed = s.buffer.missed.insert k :=
          congrArg Buffer.missed hbuffer
        exact (Op.yields_pure _).leaves (.of_insert hsub hmissed (decide_eq_true rfl) rfl)
    · rintro e s' (⟨hsub, hbuffer⟩ | ⟨hr, -⟩)
      · exact .of_missed_eq hsub (congrArg Buffer.missed hbuffer) rfl
      · exact absurd hr (by simp)
  | erase k =>
    refine (Op.yields_pure _).bind_leaves ((Op.yields_pure _).leaves ?_)
    exact .of_missed_eq (List.Subset.refl _) rfl rfl
  | clear =>
    refine (Session.note_yields _).bind_leaves ((Op.yields_pure _).leaves ?_)
    exact .of_missed_eq (List.Subset.refl _) rfl rfl
  | size =>
    refine (Session.onBelow_leaves (h.size _ _)).bind ?_ ?_
    · rintro n s' ⟨hbuffer, hsub⟩
      refine (Op.yields_pure _).leaves ?_
      exact .of_missed_eq hsub (congrArg Buffer.missed hbuffer) rfl
    · rintro e s' ⟨hbuffer, hsub⟩
      exact .of_missed_eq hsub (congrArg Buffer.missed hbuffer) rfl
  | commit =>
    refine (Session.commit_frees h s).bind ?_ ?_
    · intro u s' hs'
      exact (Op.yields_pure _).leaves (.of_frees hs' fun hne => absurd rfl hne)
    · exact fun e s' hs' => .of_frees hs' fun _ => rfl
  | rollback =>
    refine (Session.rollback_frees h s).bind ?_ ?_
    · intro u s' hs'
      exact (Op.yields_pure _).leaves (.of_frees hs' fun hne => absurd rfl hne)
    · exact fun e s' hs' => .of_frees hs' fun _ => rfl

end Sharing

end SoftTier
