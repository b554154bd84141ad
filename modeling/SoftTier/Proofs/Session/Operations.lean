import SoftTier.Proofs.Table
import SoftTier.Session

/-!
# What the operations of a session yield

Over a base store that never fails, no operation of a session fails. Only the two that end a session
change the store, and what they leave under a key does not depend on the order in which they visit
what was gathered.

- `Buffer.Sound`: no key is gathered twice.
- `Buffer.published`, `Buffer.released`: the store after a commit and after a rollback, told by
  `Buffer.getElem?_published` and `Buffer.getElem?_released`.
- `Buffer.sends`: what a commit sends, and in which order; `Buffer.Sound.get?_sends` tells it for
  each key.
- `Session.commit_leaves_of`, `Session.rollback_leaves_of`: an end over any store, told from what
  its parts leave.
- `Session.read_leaves_of`: a lookup over any store.
- `Session.read_yields_of`, `Session.commit_yields_of`, `Session.rollback_yields_of`: over any
  store, as long as nothing fails.
- `Session.read_yields`, `Session.commit_yields` and so on: one statement for each operation.
-/

namespace SoftTier

namespace Buffer

variable {κ ν : Type}

/-- No key has two writes waiting, and none is missed twice. -/
structure Sound (b : Buffer κ ν) : Prop where
  pending_nodup : b.pending.keys.Nodup
  missed_nodup : b.missed.Nodup

theorem sound_empty : ({} : Buffer κ ν).Sound := ⟨List.nodup_nil, List.nodup_nil⟩

theorem Sound.wipe {b : Buffer κ ν} (h : b.Sound) : b.wipe.Sound :=
  ⟨List.nodup_nil, h.missed_nodup⟩

/-- A buffer keeps just the values that wait in it. -/
theorem keeps_iff {b : Buffer κ Value} {v : Value} :
    keeps b v = true ↔ ∃ k, (k, some v) ∈ b.pending := by
  show (b.pending.any fun e => keeps e v) = true ↔ _
  rw [List.any_eq_true]
  constructor
  · rintro ⟨⟨k, entry⟩, hmem, hv⟩
    obtain ⟨w, rfl, hw⟩ := (Option.any_eq_true ..).mp hv
    exact ⟨k, eq_of_beq hw ▸ hmem⟩
  · rintro ⟨k, hmem⟩
    exact ⟨(k, some v), hmem, beq_self_eq_true v⟩

variable [DecidableEq κ]

theorem Sound.put {b : Buffer κ ν} (h : b.Sound) (k : κ) (entry : Option ν) :
    (b.put k entry).Sound :=
  ⟨Assoc.nodup_keys_insert h.pending_nodup k entry, h.missed_nodup⟩

theorem Sound.miss {b : Buffer κ ν} (h : b.Sound) (k : κ) : (b.miss k).Sound :=
  ⟨h.pending_nodup, h.missed_nodup.insert⟩

/-- The missed keys that have no write waiting, in the order in which a commit frees them. -/
def due (visit : Visit) (b : Buffer κ ν) : List κ :=
  (visit.arrange b.missed).filter fun k => !b.pending.has k

/-- What a commit sends the store, in this order, when it has cleared it if need be. -/
def sends (visit : Visit) (b : Buffer κ ν) : Assoc κ (Option ν) :=
  visit.arrange b.pending ++ (b.due visit).map (·, none)

/-- A commit sends something for a key once at most. -/
theorem Sound.sends_nodup {b : Buffer κ ν} (h : b.Sound) (visit : Visit) :
    (b.sends visit).keys.Nodup := by
  have hkeys : (b.sends visit).keys = Assoc.keys (visit.arrange b.pending) ++ b.due visit := by
    simp [sends, Assoc.keys, Function.comp_def]
  have hpending := (visit.arrange_perm b.pending).map Prod.fst
  have hmissed := visit.arrange_perm b.missed
  rw [hkeys]
  refine List.Nodup.append (hpending.nodup_iff.mpr h.pending_nodup)
    ((hmissed.nodup_iff.mpr h.missed_nodup).filter _) fun k hk hdue => ?_
  have hnew := (List.mem_filter.mp hdue).2
  rw [Bool.not_eq_true', Assoc.has_eq_false_iff] at hnew
  exact hnew (hpending.mem_iff.mp hk)

theorem mem_due {visit : Visit} {b : Buffer κ ν} {k : κ} :
    k ∈ b.due visit ↔ k ∈ b.missed ∧ Assoc.get? k b.pending = none := by
  rw [due, List.mem_filter, (visit.arrange_perm b.missed).mem_iff, Bool.not_eq_true',
    Assoc.has_eq_false_iff, Assoc.get?_eq_none_iff]

/-- What a commit sends for a key: the write that waits, or else a miss if the key was missed. -/
theorem Sound.get?_sends {b : Buffer κ ν} (h : b.Sound) (visit : Visit) (k : κ) :
    Assoc.get? k (b.sends visit) =
      (Assoc.get? k b.pending).or (if k ∈ b.missed then some none else none) := by
  rw [sends, Assoc.get?_append, Assoc.get?_perm h.pending_nodup (visit.arrange_perm _),
    Assoc.get?_map_const]
  simp only [mem_due]
  cases Assoc.get? k b.pending with
  | none => simp
  | some entry => rfl

variable [Ord κ] [Std.TransOrd κ]

/-- The store after the pending clear and the pending writes. -/
def flushed (visit : Visit) (b : Buffer κ ν) (t : Table κ ν) : Table κ ν :=
  (if b.clears then { t with entries := ∅ } else t).putAll (visit.arrange b.pending)

/-- The store after a commit. -/
def published (visit : Visit) (b : Buffer κ ν) (t : Table κ ν) : Table κ ν :=
  (b.flushed visit t).putMisses ((visit.arrange b.missed).filter fun k => !b.pending.has k)

/-- The store after a rollback. -/
def released (visit : Visit) (b : Buffer κ ν) (t : Table κ ν) : Table κ ν :=
  t.putMisses (visit.arrange b.missed)

variable [Std.LawfulEqOrd κ] {b : Buffer κ ν}

theorem getElem?_flushed (h : b.Sound) (visit : Visit) (k : κ) (t : Table κ ν) :
    (b.flushed visit t).entries[k]? =
      (Assoc.get? k b.pending).or (if b.clears then none else t.entries[k]?) := by
  rw [flushed, Table.getElem?_putAll h.pending_nodup (visit.arrange_perm _)]
  congr 1
  split
  · exact Std.ExtTreeMap.getElem?_empty
  · rfl

/-- A commit leaves the pending writes, and a miss under every missed key that has none. -/
theorem getElem?_published (h : b.Sound) (visit : Visit) (k : κ) (t : Table κ ν) :
    (b.published visit t).entries[k]? =
      (Assoc.get? k b.pending).or (if k ∈ b.missed then some none
        else if b.clears then none else t.entries[k]?) := by
  have hmem : k ∈ (visit.arrange b.missed).filter (fun k => !b.pending.has k) ↔
      k ∈ b.missed ∧ Assoc.get? k b.pending = none := mem_due
  rw [published, Table.getElem?_putMisses, getElem?_flushed h]
  simp only [hmem]
  cases Assoc.get? k b.pending with
  | none => simp
  | some entry => simp

/-- A rollback leaves a miss under every missed key. -/
theorem getElem?_released (visit : Visit) (k : κ) (t : Table κ ν) :
    (b.released visit t).entries[k]? = if k ∈ b.missed then some none else t.entries[k]? := by
  rw [released, Table.getElem?_putMisses]
  simp only [(visit.arrange_perm b.missed).mem_iff]

end Buffer

/-! ## What is sent to the store -/

namespace Buffer

variable {κ ν : Type} {env : Ambient}

section Sends

variable {σ : Type} [Store σ κ ν] {next : σ → κ × Option ν → σ}
  (hsend : ∀ e t, (send e : Op σ Unit).Yields env t () (next t e))

include hsend

/-- What is published in a store whose writes do not fail. -/
theorem flush_yields_of (b : Buffer κ ν) {t cleared : σ}
    (hclear : if b.clears then Op.Yields (Store.clear : Op σ Unit) env t () cleared
      else cleared = t) :
    (b.flush : Op σ Unit).Yields env t () ((env.visit.arrange b.pending).foldl next cleared) := by
  have hpending : ∀ t : σ, Op.Yields (do Op.each send (← Op.visiting b.pending)) env t ()
      ((env.visit.arrange b.pending).foldl next t) := fun t =>
    (Op.yields_visiting _).bind (Op.yields_each hsend _ _)
  rw [flush]
  cases hclears : b.clears with
  | true =>
    rw [hclears] at hclear
    exact Op.Yields.bind hclear (hpending cleared)
  | false =>
    rw [hclears] at hclear
    subst hclear
    exact hpending _

/-- What is freed in a store whose writes do not fail. -/
theorem freeMissed_yields_of [DecidableEq κ] (b : Buffer κ ν) (t : σ) :
    (b.freeMissed : Op σ Unit).Yields env t ()
      (((b.due env.visit).map (·, none)).foldl next t) := by
  rw [List.foldl_map]
  exact (Op.yields_visiting _).bind (Op.yields_each (fun k t => hsend (k, none) t) _ _)

/-- What a rollback frees in a store whose writes do not fail. -/
theorem freeAll_yields_of (b : Buffer κ ν) (t : σ) :
    (b.freeAll : Op σ Unit).Yields env t ()
      (((env.visit.arrange b.missed).map (·, none)).foldl next t) := by
  rw [List.foldl_map]
  exact (Op.yields_visiting _).bind (Op.yields_each (fun k t => hsend (k, none) t) _ _)

end Sends

variable [Ord κ] [Std.TransOrd κ] [Keeper ν]

theorem send_yields (e : κ × Option ν) (t : Table κ ν) :
    (send e : Op (Table κ ν) Unit).Yields env t () (t.put e.1 e.2) := by
  obtain ⟨k, entry⟩ := e
  cases entry with
  | none => exact Table.writeMiss_yields k
  | some a => exact Table.write_yields k a

theorem freeAll_yields (b : Buffer κ ν) (t : Table κ ν) :
    (b.freeAll : Op (Table κ ν) Unit).Yields env t () (b.released env.visit t) :=
  (Op.yields_visiting _).bind (Op.yields_each (fun k _ => Table.writeMiss_yields k) _ _)

theorem flush_yields (b : Buffer κ ν) (t : Table κ ν) :
    (b.flush : Op (Table κ ν) Unit).Yields env t () (b.flushed env.visit t) := by
  refine flush_yields_of send_yields b ?_
  cases b.clears with
  | true => exact Table.clear_yields
  | false => rfl

variable [DecidableEq κ]

theorem freeMissed_yields (b : Buffer κ ν) (t : Table κ ν) :
    (b.freeMissed : Op (Table κ ν) Unit).Yields env t () (t.putMisses (b.due env.visit)) := by
  have hfreed : Op.Yields b.freeMissed env t () _ := freeMissed_yields_of send_yields b t
  rwa [List.foldl_map] at hfreed

end Buffer

/-! ## Requests -/

namespace Session

variable {κ ν : Type} {env : Ambient}

theorem note_yields {σ : Type} {s : Session κ ν σ} (f : Buffer κ ν → Buffer κ ν) :
    (note f).Yields env s () { s with buffer := f s.buffer } := Op.yields_update _

variable [Keeper ν]

theorem onBelow_yields {σ α : Type} {s : Session κ ν σ} {x : Op σ α} {a : α} {t : σ}
    (hx : x.Yields (env.also s.buffer) s.below a t) :
    (onBelow x : Op (Session κ ν σ) α).Yields env s a { s with below := t } := by
  obtain ⟨hresult, rfl⟩ := hx
  exact ⟨hresult, rfl⟩

/-- Whether or not it fails, an operation on the store below leaves the buffer alone. -/
theorem onBelow_leaves {σ α : Type} {s : Session κ ν σ} {x : Op σ α}
    {Q : Except Failure α → σ → Prop} (hx : x.Leaves (env.also s.buffer) s.below Q) :
    (onBelow x : Op (Session κ ν σ) α).Leaves env s fun r s' =>
      s'.buffer = s.buffer ∧ Q r s'.below := ⟨rfl, hx⟩

/-! ## Ends -/

section Ends

variable {σ : Type} [Store σ κ ν] {s : Session κ ν σ}

/-- A rollback frees the missed keys. The session keeps what it has gathered unless that fails. -/
theorem rollback_leaves_of {Q : Except Failure Unit → σ → Prop}
    (hfree : Op.Leaves s.buffer.freeAll (env.also s.buffer) s.below Q) :
    (rollback : Op (Session κ ν σ) Unit).Leaves env s fun r s' =>
      Q r s'.below ∧ s'.buffer = if r = .ok () then {} else s.buffer := by
  refine (Op.yields_read _).bind_leaves ((Op.yields_read _).bind_leaves ?_)
  refine (onBelow_leaves hfree).bind ?_ ?_
  · rintro ⟨⟩ s₁ ⟨-, hfreed⟩
    refine ((Op.yields_emit _).bind (note_yields _)).leaves ?_
    exact ⟨hfreed, rfl⟩
  · rintro e s₁ ⟨hbuffer, hfreed⟩
    exact ⟨hfreed, hbuffer⟩

/-- A rollback that meets no failure. -/
theorem rollback_yields_of {t : σ}
    (hfree : Op.Yields s.buffer.freeAll (env.also s.buffer) s.below () t) :
    (rollback : Op (Session κ ν σ) Unit).Yields env s () ⟨{}, t⟩ := by
  refine (Op.yields_read _).bind ((Op.yields_read _).bind ?_)
  refine (onBelow_yields hfree).bind ?_
  exact (Op.yields_emit _).bind (note_yields _)

variable [DecidableEq κ]

/-- A commit publishes and then frees the missed keys, also if publishing failed. The first of the
two failures is the answer. The session keeps what it has gathered unless neither fails. -/
theorem commit_leaves_of {P : Except Failure Unit → σ → Prop}
    {Q : Except Failure Unit → Except Failure Unit → σ → Prop}
    (hflush : Op.Leaves s.buffer.flush (env.also s.buffer) s.below P)
    (hfree : ∀ published t, P published t →
      Op.Leaves s.buffer.freeMissed (env.also s.buffer) t (Q published)) :
    (commit : Op (Session κ ν σ) Unit).Leaves env s fun r s' =>
      ∃ published freed, Q published freed s'.below ∧ r = published.bind (fun _ => freed) ∧
        s'.buffer = if r = .ok () then {} else s.buffer := by
  have hfreed : ∀ published s₁, s₁.buffer = s.buffer → P published s₁.below →
      (onBelow s.buffer.freeMissed : Op (Session κ ν σ) Unit).Leaves env s₁ fun r s' =>
        s'.buffer = s.buffer ∧ Q published r s'.below := by
    rintro published ⟨b, t⟩ rfl hpublished
    exact onBelow_leaves (hfree published t hpublished)
  refine (Op.yields_read _).bind_leaves ((Op.yields_read _).bind_leaves ?_)
  refine (onBelow_leaves hflush).attempt.bind ?_ ?_
  · rintro published s₁ ⟨_, ⟨rfl⟩, hbuffer, hpublished⟩
    cases published with
    | error e =>
      -- the keys are freed all the same, and what fails then is not told
      refine (hfreed _ s₁ hbuffer hpublished).attempt.bind ?_ ?_
      · rintro freed s₂ ⟨_, ⟨rfl⟩, hbuffer₂, hfreed₂⟩
        have hend : Op.Leaves (Op.fail e : Op (Session κ ν σ) Unit) env s₂ fun r s' =>
            r = .error e ∧ s' = s₂ := ⟨rfl, rfl⟩
        cases freed with
        | error e' =>
          refine (Op.yields_emit _).bind_leaves (hend.imp ?_)
          rintro r s' ⟨rfl, rfl⟩
          exact ⟨_, _, hfreed₂, rfl, hbuffer₂⟩
        | ok u =>
          refine (Op.yields_pure _).bind_leaves (hend.imp ?_)
          rintro r s' ⟨rfl, rfl⟩
          exact ⟨_, _, hfreed₂, rfl, hbuffer₂⟩
      · rintro e' s₂ ⟨r', hr', -⟩
        exact absurd hr' (by simp)
    | ok u =>
      refine (hfreed _ s₁ hbuffer hpublished).bind ?_ ?_
      · rintro u s₂ ⟨-, hfreed₂⟩
        refine ((Op.yields_emit _).bind (note_yields _)).leaves ?_
        exact ⟨_, _, hfreed₂, rfl, rfl⟩
      · rintro e s₂ ⟨hbuffer₂, hfreed₂⟩
        exact ⟨_, _, hfreed₂, rfl, hbuffer₂⟩
  · rintro e s₁ ⟨r', hr', -⟩
    exact absurd hr' (by simp)

/-- A lookup asks the store, and notes the key if the store has no value. -/
theorem read_leaves_of {k : κ}
    {Q : Except Failure (Option ν) → σ → Prop}
    (hread : (Store.read k : Op σ (Option ν)).Leaves (env.also s.buffer) s.below Q) :
    (Store.read k : Op (Session κ ν σ) (Option ν)).Leaves env s fun _ s' =>
      ∃ found, Q found s'.below ∧ s'.buffer = match found with
        | .ok none => s.buffer.miss k
        | _ => s.buffer := by
  refine (onBelow_leaves hread).bind ?_ ?_
  · rintro found s₁ ⟨hbuffer, hfound⟩
    cases found with
    | none =>
      refine (note_yields _).bind_leaves ((Op.yields_read _).bind_leaves ?_)
      refine (Op.yields_pure _).leaves ⟨_, hfound, ?_⟩
      exact congrArg (Buffer.miss k) hbuffer
    | some a =>
      refine (Op.yields_read _).bind_leaves ((Op.yields_pure _).leaves ⟨_, hfound, hbuffer⟩)
  · rintro e s₁ ⟨hbuffer, hfound⟩
    exact ⟨_, hfound, hbuffer⟩

/-- A lookup goes past what the session has written, and notes a key that has no value. -/
theorem read_yields_of {k : κ} {found : Option ν} {t : σ}
    (hread : (Store.read k : Op σ (Option ν)).Yields (env.also s.buffer) s.below found t) :
    (Store.read k : Op (Session κ ν σ) (Option ν)).Yields env s
      (if s.buffer.clears then none else found)
      ⟨if found.isNone then s.buffer.miss k else s.buffer, t⟩ := by
  refine (onBelow_yields hread).bind ?_
  dsimp only
  split
  · exact (note_yields _).bind ((Op.yields_read _).bind (Op.yields_pure _))
  · exact (Op.yields_read _).bind (Op.yields_pure _)

/-- A commit that meets no failure. -/
theorem commit_yields_of {t t' : σ}
    (hflush : Op.Yields s.buffer.flush (env.also s.buffer) s.below () t)
    (hfree : Op.Yields s.buffer.freeMissed (env.also s.buffer) t () t') :
    (commit : Op (Session κ ν σ) Unit).Yields env s () ⟨{}, t'⟩ := by
  refine (Op.yields_read _).bind ((Op.yields_read _).bind ?_)
  refine (onBelow_yields hflush).attempt.bind ?_
  refine (onBelow_yields hfree).bind ?_
  exact (Op.yields_emit _).bind (note_yields _)

end Ends

/-! ## Over a base store -/

variable [Ord κ] [Std.TransOrd κ] {s : Session κ ν (Table κ ν)}

theorem rollback_yields :
    (rollback : Op (Session κ ν (Table κ ν)) Unit).Yields env s ()
      ⟨{}, s.buffer.released env.visit s.below⟩ :=
  rollback_yields_of (Buffer.freeAll_yields s.buffer s.below)

variable [DecidableEq κ]

theorem size_yields :
    (Store.size : Op (Session κ ν (Table κ ν)) Nat).Yields env s s.below.entries.size s :=
  onBelow_yields Table.size_yields

theorem write_yields (k : κ) (a : ν) :
    (Store.write k a : Op (Session κ ν (Table κ ν)) Unit).Yields env s ()
      { s with buffer := s.buffer.put k (some a) } := note_yields _

theorem writeMiss_yields (k : κ) :
    (Store.writeMiss k : Op (Session κ ν (Table κ ν)) Unit).Yields env s ()
      { s with buffer := s.buffer.put k none } := note_yields _

theorem erase_yields (k : κ) :
    (Store.erase k : Op (Session κ ν (Table κ ν)) (Option ν)).Yields env s none s :=
  Op.yields_pure _

theorem clear_yields :
    (Store.clear : Op (Session κ ν (Table κ ν)) Unit).Yields env s ()
      { s with buffer := s.buffer.wipe } := note_yields _

theorem read_yields (k : κ) :
    (Store.read k : Op (Session κ ν (Table κ ν)) (Option ν)).Yields env s
      (if s.buffer.clears then none else s.below.value? k)
      { s with buffer := if (s.below.value? k).isNone then s.buffer.miss k else s.buffer } :=
  read_yields_of (Table.read_yields k)

theorem commit_yields :
    (commit : Op (Session κ ν (Table κ ν)) Unit).Yields env s ()
      ⟨{}, s.buffer.published env.visit s.below⟩ :=
  commit_yields_of (Buffer.flush_yields ..) (Buffer.freeMissed_yields ..)

end Session

end SoftTier
