import SoftTier.Proofs.Session.FailedCommits
import SoftTier.Proofs.Session.Gathering
import SoftTier.Proofs.Session.Isolation

/-!
# A session within a session

A session may stand over another one instead of over a store. What it looks up goes through both of
them, and a key that is not found is noted by both; what it sends when it ends is only gathered by
the outer session, in place of what that had gathered under the same keys. Over a fresh outer
session this comes to the same as one session on its own. Over an outer session that has writes
waiting it does not: a key that the inner session has looked up and not found becomes a miss there,
also if the outer session had a value waiting for it, and also if the inner session rolls back.

- `Session.run`: what a session answers to acts in turn.
- `Buffer.afterCommit`, `Buffer.afterRollback`: what an outer session has gathered after an end of
  the inner one.
- `Sharing.Act.perform_within`: what an act of the inner session does to both.
- `Session.nested_commit_eq_flat`: an inner session over a fresh one, and one session on its own.
- `Session.inner_end_writes`: what an inner end leaves of the writes of the outer session.
- `Session.inner_rollback_drops_write`: a write of the outer session that is lost.
-/

namespace SoftTier

/-! ## What the outer session gathers -/

namespace Buffer

variable {κ ν : Type} [DecidableEq κ]

/-- Notes writes one after the other. -/
def putAll (es : Assoc κ (Option ν)) (b : Buffer κ ν) : Buffer κ ν :=
  es.foldl (fun b e => b.put e.1 e.2) b

theorem putAll_eq (es : Assoc κ (Option ν)) (b : Buffer κ ν) :
    b.putAll es =
      { b with pending := es.foldl (fun l e => Assoc.insert e.1 e.2 l) b.pending } := by
  induction es generalizing b with
  | nil => rfl
  | cons e es ih => exact ih (b.put e.1 e.2)

theorem Sound.putAll {b : Buffer κ ν} (h : b.Sound) (es : Assoc κ (Option ν)) :
    (b.putAll es).Sound := by
  rw [putAll_eq]
  exact ⟨Assoc.nodup_keys_foldl_insert es h.pending_nodup, h.missed_nodup⟩

/-- Of writes without repeated keys, each takes the place of what waited under its key. -/
theorem get?_putAll {es : Assoc κ (Option ν)} (hes : es.keys.Nodup) (b : Buffer κ ν) (k : κ) :
    Assoc.get? k (b.putAll es).pending = (Assoc.get? k es).or (Assoc.get? k b.pending) := by
  rw [putAll_eq]
  dsimp only
  rw [Assoc.get?_foldl_insert, Assoc.get?_perm hes es.reverse_perm]

/-- What an outer session has gathered when the inner one has committed. -/
def afterCommit (visit : Visit) (inner outer : Buffer κ ν) : Buffer κ ν :=
  (if inner.clears then outer.wipe else outer).putAll (inner.sends visit)

/-- What an outer session has gathered when the inner one has rolled back. -/
def afterRollback (visit : Visit) (inner outer : Buffer κ ν) : Buffer κ ν :=
  outer.putAll ((visit.arrange inner.missed).map (·, none))

section After

variable {inner outer : Buffer κ ν} {visit : Visit}

theorem Sound.afterCommit (h : outer.Sound) : (inner.afterCommit visit outer).Sound := by
  unfold Buffer.afterCommit
  split
  · exact h.wipe.putAll _
  · exact h.putAll _

theorem Sound.afterRollback (h : outer.Sound) : (inner.afterRollback visit outer).Sound :=
  h.putAll _

theorem clears_afterCommit :
    (inner.afterCommit visit outer).clears = (inner.clears || outer.clears) := by
  rw [afterCommit, putAll_eq]
  cases inner.clears <;> rfl

theorem clears_afterRollback : (inner.afterRollback visit outer).clears = outer.clears := by
  rw [afterRollback, putAll_eq]

theorem missed_afterCommit : (inner.afterCommit visit outer).missed = outer.missed := by
  rw [afterCommit, putAll_eq]
  cases inner.clears <;> rfl

/-- The writes of the inner session come first, then its misses, and then what is left of the writes
of the outer session. -/
theorem get?_afterCommit (h : inner.Sound) (k : κ) :
    Assoc.get? k (inner.afterCommit visit outer).pending =
      (Assoc.get? k inner.pending).or (if k ∈ inner.missed then some none
        else if inner.clears then none else Assoc.get? k outer.pending) := by
  rw [afterCommit, get?_putAll (h.sends_nodup visit), h.get?_sends, Option.or_assoc]
  have hleft : Assoc.get? k (if inner.clears then outer.wipe else outer).pending =
      if inner.clears then none else Assoc.get? k outer.pending := by
    split <;> rfl
  rw [hleft]
  split <;> rfl

theorem get?_afterRollback (h : inner.Sound) (k : κ) :
    Assoc.get? k (inner.afterRollback visit outer).pending =
      if k ∈ inner.missed then some none else Assoc.get? k outer.pending := by
  have hperm := visit.arrange_perm inner.missed
  have hkeys : Assoc.keys ((visit.arrange inner.missed).map (·, (none : Option ν))) =
      visit.arrange inner.missed := by
    simp [Assoc.keys, Function.comp_def]
  have hnodup : (Assoc.keys ((visit.arrange inner.missed).map (·, (none : Option ν)))).Nodup := by
    rw [hkeys]
    exact hperm.nodup_iff.mpr h.missed_nodup
  rw [afterRollback, get?_putAll hnodup, Assoc.get?_map_const]
  simp only [hperm.mem_iff]
  split <;> rfl

/-- What the two commits of a session within a fresh one leave is what a single commit leaves. -/
theorem published_afterCommit [Ord κ] [Std.TransOrd κ] [Std.LawfulEqOrd κ] {b : Buffer κ ν}
    (hb : b.Sound) (visit visit' visit'' : Visit) (t : Table κ ν) :
    (b.afterCommit visit { missed := b.missed }).published visit' t = b.published visit'' t := by
  have houter : Sound ({ missed := b.missed } : Buffer κ ν) :=
    ⟨List.nodup_nil, hb.missed_nodup⟩
  refine Table.ext_getElem? ?_ fun k => ?_
  · rw [← foldl_changes, ← foldl_changes, Change.name_foldl_apply,
      Change.name_foldl_apply]
  · rw [getElem?_published houter.afterCommit, getElem?_published hb,
      get?_afterCommit hb, missed_afterCommit, clears_afterCommit,
      Bool.or_false]
    cases Assoc.get? k b.pending with
    | some entry => rfl
    | none =>
      by_cases hmissed : k ∈ b.missed
      · simp [hmissed]
      · cases b.clears <;> simp [hmissed]

end After

end Buffer

namespace Session

variable {κ ν σ : Type} [DecidableEq κ]

/-! ## Ends within a session -/

/-- Writes that a session takes one after the other. -/
theorem foldl_put (es : Assoc κ (Option ν)) (s : Session κ ν σ) :
    es.foldl (fun s e => { s with buffer := s.buffer.put e.1 e.2 }) s =
      { s with buffer := s.buffer.putAll es } := by
  induction es generalizing s with
  | nil => rfl
  | cons e es ih => exact ih _

variable [Keeper ν] [Store σ κ ν]

/-- A session as a store takes every write. -/
theorem send_yields {env : Ambient} (e : κ × Option ν) (s : Session κ ν σ) :
    (Buffer.send e : Op (Session κ ν σ) Unit).Yields env s ()
      { s with buffer := s.buffer.put e.1 e.2 } := by
  obtain ⟨k, entry⟩ := e
  cases entry <;> exact note_yields _

/-- A commit within a session never fails, and all that it sends is gathered there. -/
theorem commit_within (env : Ambient) (inner : Buffer κ ν) (s : Session κ ν σ) :
    (commit : Op (Session κ ν (Session κ ν σ)) Unit).Yields env ⟨inner, s⟩ ()
      ⟨{}, { s with buffer := inner.afterCommit env.visit s.buffer }⟩ := by
  have hclear : if inner.clears
      then Op.Yields (Store.clear : Op (Session κ ν σ) Unit) (env.also inner) s ()
        { s with buffer := if inner.clears then s.buffer.wipe else s.buffer }
      else { s with buffer := if inner.clears then s.buffer.wipe else s.buffer } = s := by
    cases inner.clears with
    | true => exact note_yields _
    | false => rfl
  have hflush := Buffer.flush_yields_of send_yields inner hclear
  have hfree : ∀ t : Session κ ν σ, Op.Yields inner.freeMissed (env.also inner) t () _ :=
    Buffer.freeMissed_yields_of send_yields inner
  have hcommit := commit_yields_of (s := (⟨inner, s⟩ : Session κ ν (Session κ ν σ))) hflush
    (hfree _)
  rw [← List.foldl_append, foldl_put] at hcommit
  exact hcommit

/-- A rollback within a session never fails either. -/
theorem rollback_within (env : Ambient) (inner : Buffer κ ν) (s : Session κ ν σ) :
    (rollback : Op (Session κ ν (Session κ ν σ)) Unit).Yields env ⟨inner, s⟩ ()
      ⟨{}, { s with buffer := inner.afterRollback env.visit s.buffer }⟩ := by
  have hfree : Op.Yields inner.freeAll (env.also inner) s () _ :=
    Buffer.freeAll_yields_of send_yields inner s
  have hrollback := rollback_yields_of (s := (⟨inner, s⟩ : Session κ ν (Session κ ν σ))) hfree
  rw [foldl_put] at hrollback
  exact hrollback

/-- What a session answers to acts in turn, and the session when it has done them. Each act has
surroundings of its own. -/
def run (s : Session κ ν σ) :
    List (Ambient × Sharing.Act κ ν) → List (Sharing.Answer ν) × Session κ ν σ
  | [] => ([], s)
  | (env, act) :: acts =>
    let o := act.perform env s
    (.of o.result :: (run o.state acts).1, (run o.state acts).2)

/-- What a session over a base store shows of a key. -/
def shown? [Ord κ] [Std.TransOrd κ] (k : κ) (s : Session κ ν (Table κ ν)) : Option ν :=
  if s.buffer.clears then none else s.below.value? k

end Session

/-! ## Acts within a session -/

namespace Sharing

variable {κ ν : Type} [DecidableEq κ]

/-- What an act that is no end is answered. -/
def Act.reply (clears : Bool) (look : κ → Option ν) (size : Nat) : Act κ ν → Answer ν
  | .read k => .found (if clears then none else look k)
  | .erase _ => .found none
  | .size => .count size
  | _ => .done

/-- What an act notes as missed depends on nothing else that was gathered. -/
theorem Act.missed_gather (act : Act κ ν) (absent : κ → Bool) {b b' : Buffer κ ν}
    (h : b.missed = b'.missed) : (act.gather absent b).missed = (act.gather absent b').missed := by
  cases act with
  | read k =>
    show (if absent k then b.miss k else b).missed = (if absent k then b'.miss k else b').missed
    split
    · exact congrArg (List.insert k) h
    · exact h
  | _ => exact h

variable [Ord κ] [Std.TransOrd κ]

/-- An act that is no end, of a session over a base store. -/
theorem Act.outcome_eq {act : Act κ ν} (hact : act.ends = false) (visit : Visit) (b : Buffer κ ν)
    (t : Table κ ν) : act.outcome visit b t =
      (act.reply b.clears (t.value? ·) t.entries.size,
        act.gather (fun k => (t.value? k).isNone) b, t) := by
  cases act with
  | commit => exact absurd hact nofun
  | rollback => exact absurd hact nofun
  | _ => rfl

variable [Keeper ν]

/-- An act that is no end, of a session within a session. The outer session notes as missed what the
store does not have, and gathers nothing else. -/
theorem Act.perform_within {act : Act κ ν} (hact : act.ends = false) (env : Ambient)
    (inner : Buffer κ ν) (s : Session κ ν (Table κ ν)) :
    (act.perform : Op (Session κ ν (Session κ ν (Table κ ν))) (Answer ν)).Yields env ⟨inner, s⟩
      (act.reply inner.clears (s.shown? ·) s.below.entries.size)
      ⟨act.gather (fun k => (s.shown? k).isNone) inner, { s with buffer := { s.buffer with
        missed := (act.gather (fun k => (s.below.value? k).isNone) s.buffer).missed } }⟩ := by
  cases act with
  | commit => exact absurd hact nofun
  | rollback => exact absurd hact nofun
  | write k a => exact (Session.note_yields _).bind (Op.yields_pure _)
  | writeMiss k => exact (Session.note_yields _).bind (Op.yields_pure _)
  | clear => exact (Session.note_yields _).bind (Op.yields_pure _)
  | erase k => exact (Op.yields_pure none).bind (Op.yields_pure _)
  | size => exact (Session.onBelow_yields Session.size_yields).bind (Op.yields_pure _)
  | read k =>
    have hread : (Store.read k : Op (Session κ ν (Session κ ν (Table κ ν))) (Option ν)).Yields env
        ⟨inner, s⟩ _ _ := Session.read_yields_of (Session.read_yields k)
    have hmissed : (if (s.below.value? k).isNone then s.buffer.miss k else s.buffer) =
        { s.buffer with missed :=
          (Act.gather (fun k => (s.below.value? k).isNone) s.buffer (.read k)).missed } := by
      show _ = { s.buffer with missed :=
        (if (s.below.value? k).isNone then s.buffer.miss k else s.buffer).missed }
      split <;> rfl
    rw [hmissed] at hread
    exact hread.bind (Op.yields_pure _)

end Sharing

namespace Session

variable {κ ν : Type} [DecidableEq κ] [Ord κ] [Std.TransOrd κ] [Keeper ν]

/-! ## Over a fresh session -/

/-- A session that was put over a fresh one: what it has missed, the outer one has missed too. -/
def nested (s : Session κ ν (Table κ ν)) : Session κ ν (Session κ ν (Table κ ν)) :=
  ⟨s.buffer, ⟨{ missed := s.buffer.missed }, s.below⟩⟩

/-- A session over a base store after an act that is no end. -/
def next (act : Sharing.Act κ ν) (s : Session κ ν (Table κ ν)) : Session κ ν (Table κ ν) :=
  ⟨act.gather (fun k => (s.below.value? k).isNone) s.buffer, s.below⟩

/-- Within a fresh session, an act is answered and leaves what it would on its own. -/
theorem perform_nested {act : Sharing.Act κ ν} (hact : act.ends = false) (env env' : Ambient)
    (s : Session κ ν (Table κ ν)) :
    ∃ answer, act.perform.Yields env s.nested answer (s.next act).nested ∧
      act.perform.Yields env' s answer (s.next act) := by
  have hnested := Sharing.Act.perform_within hact env s.nested.buffer s.nested.below
  have hflat := Sharing.perform_yields env' act s.buffer s.below
  rw [Sharing.Act.outcome_eq hact] at hflat
  -- the outer session hides nothing, and notes the same keys as missed
  have hsame : s.nested.below.buffer.missed = s.buffer.missed := rfl
  have hmissed := act.missed_gather (fun k => (s.below.value? k).isNone) hsame
  refine ⟨_, ?_, hflat⟩
  show act.perform.Yields env s.nested _ ⟨act.gather (fun k => (s.below.value? k).isNone) s.buffer,
    ⟨{ missed := (act.gather (fun k => (s.below.value? k).isNone) s.buffer).missed }, s.below⟩⟩
  rw [← hmissed]
  exact hnested

/-- Acts are answered by a session within a fresh one as by a session on its own, and the two keep
in step. -/
theorem run_nested {acts acts' : List (Ambient × Sharing.Act κ ν)}
    (hsame : acts.map Prod.snd = acts'.map Prod.snd)
    (hacts : ∀ act ∈ acts.map Prod.snd, act.ends = false) {s : Session κ ν (Table κ ν)}
    (hs : s.buffer.Sound) :
    (s.nested.run acts).1 = (s.run acts').1 ∧ (s.nested.run acts).2 = (s.run acts').2.nested ∧
      (s.run acts').2.buffer.Sound := by
  induction acts generalizing acts' s with
  | nil =>
    rw [List.map_eq_nil_iff.mp hsame.symm]
    exact ⟨rfl, rfl, hs⟩
  | cons e acts ih =>
    obtain ⟨env, act⟩ := e
    obtain ⟨⟨env', act'⟩, acts', rfl, rfl, hrest⟩ := List.map_eq_cons_iff.mp hsame.symm
    have hact : act'.ends = false := hacts act' List.mem_cons_self
    obtain ⟨answer, hnested, hflat⟩ := perform_nested hact env env' s
    have hsound : (s.next act').buffer.Sound := act'.sound_gather _ hs
    obtain ⟨hanswers, hstate, hlast⟩ :=
      ih hrest.symm (fun act hmem => hacts act (List.mem_cons_of_mem _ hmem)) hsound
    rw [run, run]
    dsimp only
    rw [hnested.result_eq, hnested.state_eq, hflat.result_eq, hflat.state_eq]
    exact ⟨congrArg (_ :: ·) hanswers, hstate, hlast⟩

/-- **A session within a fresh session is as good as one on its own.** Whatever is looked up,
written, removed, cleared and counted through a session over a fresh session over a base store, the
answers are those of a single session over this store; and when the inner and then the outer session
have committed, the store is the one that the commit of the single session leaves, misses included.
Nothing fails, and the orders in which the commits visit what was gathered play no part. -/
theorem nested_commit_eq_flat [Std.LawfulEqOrd κ] (t : Table κ ν)
    {acts acts' : List (Ambient × Sharing.Act κ ν)}
    (hsame : acts.map Prod.snd = acts'.map Prod.snd)
    (hacts : ∀ act ∈ acts.map Prod.snd, act.ends = false) :
    let nest : Session κ ν (Session κ ν (Table κ ν)) := ⟨{}, ⟨{}, t⟩⟩
    let flat : Session κ ν (Table κ ν) := ⟨{}, t⟩
    (nest.run acts).1 = (flat.run acts').1 ∧
    ∀ env env' env'',
      let inner := commit env (nest.run acts).2
      let outer := commit env' inner.state.below
      let single := commit env'' (flat.run acts').2
      inner.result = .ok () ∧ outer.result = .ok () ∧ single.result = .ok () ∧
        outer.state.below = single.state.below := by
  intro nest flat
  obtain ⟨hanswers, hstate, hsound⟩ := run_nested (s := flat) hsame hacts Buffer.sound_empty
  have hnest : nest = flat.nested := rfl
  rw [hnest]
  refine ⟨hanswers, fun env env' env'' => ?_⟩
  rw [hstate]
  generalize (flat.run acts').2 = s at hsound
  obtain ⟨b, t'⟩ := s
  intro inner outer single
  have hinner := commit_within env b (⟨{ missed := b.missed }, t'⟩ : Session κ ν (Table κ ν))
  have hbelow : inner.state.below = ⟨b.afterCommit env.visit { missed := b.missed }, t'⟩ :=
    congrArg Session.below hinner.state_eq
  have houter : commit.Yields env' inner.state.below () _ := commit_yields
  have hsingle : commit.Yields env'' (⟨b, t'⟩ : Session κ ν (Table κ ν)) () _ := commit_yields
  refine ⟨hinner.result_eq, houter.result_eq, hsingle.result_eq, ?_⟩
  calc outer.state.below
      = inner.state.below.buffer.published env'.visit inner.state.below.below :=
        congrArg Session.below houter.state_eq
    _ = (b.afterCommit env.visit { missed := b.missed }).published env'.visit t' := by rw [hbelow]
    _ = b.published env''.visit t' := Buffer.published_afterCommit hsound ..
    _ = single.state.below := (congrArg Session.below hsingle.state_eq).symm

/-- A key is missed and then written, and a clear takes that write away again. Within a fresh
session as on its own, the key is left as a miss, and of what was there before nothing stays. -/
theorem nested_clear_after_write :
    let a : Value := ⟨0, "a"⟩
    let t : Table Nat Value := (Table.named "users").put 2 (some a)
    let acts : List (Ambient × Sharing.Act Nat Value) :=
      [.read 1, .write 1 a, .read 2, .clear, .read 2, .writeMiss 3, .size].map (Ambient.alone, ·)
    let nest : Session Nat Value (Session Nat Value (Table Nat Value)) := ⟨{}, ⟨{}, t⟩⟩
    let after := (commit .alone (commit .alone (nest.run acts).2).state.below).state.below
    (∀ act ∈ acts.map Prod.snd, act.ends = false) ∧
      (nest.run acts).1 =
        [.found none, .done, .found (some a), .done, .found none, .done, .count 1] ∧
      after.entries[1]? = some none ∧ after.entries[2]? = none ∧ after.entries[3]? = some none := by
  intro a t acts
  dsimp only
  have hacts : ∀ act ∈ acts.map Prod.snd, act.ends = false := by decide
  have hsame : acts.map Prod.snd = acts.map Prod.snd := rfl
  obtain ⟨hanswers, hends⟩ := nested_commit_eq_flat t hsame hacts
  obtain ⟨-, -, -, hafter⟩ := hends .alone .alone .alone
  rw [hanswers, hafter]
  refine ⟨hacts, rfl, ?_⟩
  decide +kernel

/-! ## Over a session that has writes waiting -/

/-- Acts that are no end, of a session within a session. The outer session may note more keys as
missed and gathers nothing else. -/
theorem run_within {acts : List (Ambient × Sharing.Act κ ν)}
    (hacts : ∀ act ∈ acts.map Prod.snd, act.ends = false) (inner : Buffer κ ν)
    {outer : Session κ ν (Table κ ν)} (houter : outer.buffer.Sound) :
    ∃ missed, (⟨outer.buffer.clears, outer.buffer.pending, missed⟩ : Buffer κ ν).Sound ∧
      ((⟨inner, outer⟩ : Session κ ν (Session κ ν (Table κ ν))).run acts).2 =
        ⟨(acts.map Prod.snd).foldl (Sharing.Act.gather fun k => (outer.shown? k).isNone) inner,
          ⟨⟨outer.buffer.clears, outer.buffer.pending, missed⟩, outer.below⟩⟩ := by
  induction acts generalizing inner outer with
  | nil => exact ⟨outer.buffer.missed, houter, rfl⟩
  | cons e acts ih =>
    obtain ⟨env, act⟩ := e
    have hact : act.ends = false := hacts act List.mem_cons_self
    have hstep := act.perform_within hact env inner outer
    let outer' : Session κ ν (Table κ ν) := { outer with buffer := { outer.buffer with
      missed := (act.gather (fun k => (outer.below.value? k).isNone) outer.buffer).missed } }
    have houter' : outer'.buffer.Sound :=
      ⟨houter.pending_nodup, (act.sound_gather _ houter).missed_nodup⟩
    have hrest : ∀ act ∈ acts.map Prod.snd, act.ends = false := fun act hmem =>
      hacts act (List.mem_cons_of_mem _ hmem)
    rw [run]
    dsimp only
    rw [hstep.state_eq]
    -- which keys the outer session shows does not depend on the ones that it has missed
    exact ih hrest _ houter'

/-- What an inner session has gathered, which began with nothing. -/
theorem exists_inner {acts : List (Ambient × Sharing.Act κ ν)}
    (hacts : ∀ act ∈ acts.map Prod.snd, act.ends = false) {outer : Session κ ν (Table κ ν)}
    (houter : outer.buffer.Sound) :
    ∃ b missed, b.Sound ∧
      (⟨outer.buffer.clears, outer.buffer.pending, missed⟩ : Buffer κ ν).Sound ∧
      ((⟨{}, outer⟩ : Session κ ν (Session κ ν (Table κ ν))).run acts).2 =
        ⟨b, ⟨⟨outer.buffer.clears, outer.buffer.pending, missed⟩, outer.below⟩⟩ ∧
      (b.clears = true ↔ .clear ∈ acts.map Prod.snd) ∧
      (∀ k, Assoc.get? k b.pending = Sharing.lastWrite k (acts.map Prod.snd).reverse) ∧
      ∀ k, k ∈ b.missed ↔ .read k ∈ acts.map Prod.snd ∧ outer.shown? k = none := by
  obtain ⟨missed, hsound, hrun⟩ := run_within hacts {} houter
  rw [Sharing.foldl_gather] at hrun
  have hacts' : ∀ absent : κ → Bool,
      ((acts.map Prod.snd).reverse.map (·, absent)).map Prod.fst = (acts.map Prod.snd).reverse :=
    fun absent => by simp [Function.comp_def]
  refine ⟨_, missed, Sharing.sound_gathered _, hsound, hrun, ?_, fun k => ?_, fun k => ?_⟩
  · rw [Sharing.clears_gathered, hacts', List.mem_reverse]
  · rw [Sharing.get?_gathered, hacts']
  · rw [Sharing.mem_missed_gathered]
    constructor
    · rintro ⟨absent, hmem, habsent⟩
      obtain ⟨act, hact, heq⟩ := List.mem_map.mp hmem
      cases heq
      exact ⟨List.mem_reverse.mp hact, Option.isNone_iff_eq_none.mp habsent⟩
    · rintro ⟨hread, hnone⟩
      exact ⟨_, List.mem_map_of_mem (List.mem_reverse.mpr hread),
        Option.isNone_iff_eq_none.mpr hnone⟩

/-- A commit stores the writes that wait. -/
theorem commit_stores [Std.LawfulEqOrd κ] {s : Session κ ν (Table κ ν)} (hs : s.buffer.Sound)
    (env : Ambient) {k : κ} {entry : Option ν} (hk : Assoc.get? k s.buffer.pending = some entry) :
    (commit env s).result = .ok () ∧ (commit env s).state.below.entries[k]? = some entry := by
  have hcommit : (commit : Op (Session κ ν (Table κ ν)) Unit).Yields env s () _ := commit_yields
  refine ⟨hcommit.result_eq, ?_⟩
  rw [hcommit.state_eq]
  show (s.buffer.published env.visit s.below).entries[k]? = some entry
  rw [Buffer.getElem?_published hs, hk]
  rfl

/-- **An inner session costs the outer one the keys that it misses, and no other.** An inner session
over a session that has gathered anything over a base store does whatever it likes, and then ends.
Nothing fails, and the store is left alone. A rollback leaves a miss waiting in the outer session
under every key that the inner one has looked up and was not shown; what waited under any other key
still waits, and the next commit of the outer session stores it. A commit leaves what the inner
session wrote last, and otherwise a miss under the keys that it missed. If it has not cleared, what
waited under any other key still waits, and will be stored; if it has, nothing waits there. -/
theorem inner_end_writes [Std.LawfulEqOrd κ] {outer : Session κ ν (Table κ ν)}
    (houter : outer.buffer.Sound) {acts : List (Ambient × Sharing.Act κ ν)}
    (hacts : ∀ act ∈ acts.map Prod.snd, act.ends = false) (env : Ambient) :
    let did := acts.map Prod.snd
    let missed := fun k => .read k ∈ did ∧ outer.shown? k = none
    let waits := fun k (s : Session κ ν (Table κ ν)) => Assoc.get? k s.buffer.pending
    let kept := fun k (s : Session κ ν (Table κ ν)) => waits k s = waits k outer ∧
      ∀ env' entry, waits k outer = some entry →
        (commit env' s).result = .ok () ∧ (commit env' s).state.below.entries[k]? = some entry
    let inner := ((⟨{}, outer⟩ : Session κ ν (Session κ ν (Table κ ν))).run acts).2
    let rolledBack := rollback env inner
    let committed := commit env inner
    (rolledBack.result = .ok () ∧ rolledBack.state.buffer = {} ∧
      rolledBack.state.below.below = outer.below ∧
      rolledBack.state.below.buffer.clears = outer.buffer.clears ∧
      ∀ k, (missed k → waits k rolledBack.state.below = some none) ∧
        (¬missed k → kept k rolledBack.state.below)) ∧
    committed.result = .ok () ∧ committed.state.buffer = {} ∧
      committed.state.below.below = outer.below ∧
      (committed.state.below.buffer.clears = true ↔ .clear ∈ did ∨ outer.buffer.clears = true) ∧
      ∀ k, (∀ entry, Sharing.lastWrite k did.reverse = some entry →
          waits k committed.state.below = some entry) ∧
        (Sharing.lastWrite k did.reverse = none →
          (missed k → waits k committed.state.below = some none) ∧
          (¬missed k → .clear ∈ did → waits k committed.state.below = none) ∧
          (¬missed k → .clear ∉ did → kept k committed.state.below)) := by
  intro did missed waits kept inner rolledBack committed
  obtain ⟨b, noted, hb, hsound, hinner, hclears, hpending, hmissed⟩ := exists_inner hacts houter
  let outer' : Session κ ν (Table κ ν) :=
    ⟨⟨outer.buffer.clears, outer.buffer.pending, noted⟩, outer.below⟩
  have hkept : ∀ {k} {s : Session κ ν (Table κ ν)}, s.buffer.Sound → waits k s = waits k outer →
      kept k s := fun hs hsame =>
    ⟨hsame, fun env' entry hentry => commit_stores hs env' (hsame.trans hentry)⟩
  constructor
  · -- a rollback
    have hend := rollback_within env b outer'
    rw [← hinner] at hend
    have hstate : rolledBack.state =
        ⟨{}, { outer' with buffer := b.afterRollback env.visit outer'.buffer }⟩ := hend.state_eq
    have hwaits : ∀ k, waits k rolledBack.state.below =
        if k ∈ b.missed then some none else waits k outer := fun k => by
      rw [hstate]
      exact Buffer.get?_afterRollback hb k
    rw [hstate] at hwaits ⊢
    refine ⟨hend.result_eq, rfl, rfl, Buffer.clears_afterRollback, fun k => ⟨fun hk => ?_,
      fun hk => hkept hsound.afterRollback ?_⟩⟩
    · rw [hwaits, if_pos ((hmissed k).mpr hk)]
    · rw [hwaits, if_neg fun hmem => hk ((hmissed k).mp hmem)]
  · -- a commit
    have hend := commit_within env b outer'
    rw [← hinner] at hend
    have hstate : committed.state =
        ⟨{}, { outer' with buffer := b.afterCommit env.visit outer'.buffer }⟩ := hend.state_eq
    have hwaits : ∀ k, waits k committed.state.below = (Assoc.get? k b.pending).or
        (if k ∈ b.missed then some none
          else if b.clears then none else waits k outer) := fun k => by
      rw [hstate]
      exact Buffer.get?_afterCommit hb k
    rw [hstate] at hwaits ⊢
    have hcleared : (b.afterCommit env.visit outer'.buffer).clears = true ↔
        .clear ∈ did ∨ outer.buffer.clears = true := by
      rw [Buffer.clears_afterCommit, Bool.or_eq_true, hclears]
    refine ⟨hend.result_eq, rfl, rfl, hcleared, fun k => ⟨fun entry hk => ?_, fun hk =>
      ⟨fun hmiss => ?_, fun hmiss hclear => ?_,
        fun hmiss hclear => hkept hsound.afterCommit ?_⟩⟩⟩
    · rw [hwaits, hpending, hk]
      rfl
    · rw [hwaits, hpending, hk, if_pos ((hmissed k).mpr hmiss)]
      rfl
    · rw [hwaits, hpending, hk, if_neg fun hmem => hmiss ((hmissed k).mp hmem),
        if_pos (hclears.mpr hclear)]
      rfl
    · rw [hwaits, hpending, hk, if_neg fun hmem => hmiss ((hmissed k).mp hmem),
        if_neg fun htrue => hclear (hclears.mp htrue)]
      rfl

/-- The outer session has two writes waiting. The inner one looks the first key up and writes a
third. When it ends, a miss waits under the first key, and the second is stored as it was to be. -/
theorem inner_end_keeps_unmissed :
    let a : Value := ⟨0, "a"⟩
    let outer : Session Nat Value (Table Nat Value) :=
      ⟨⟨false, [(1, some a), (2, some a)], []⟩, Table.named "users"⟩
    let acts : List (Ambient × Sharing.Act Nat Value) :=
      [.read 1, .write 3 a].map (Ambient.alone, ·)
    let inner :=
      ((⟨{}, outer⟩ : Session Nat Value (Session Nat Value (Table Nat Value))).run acts).2
    let rolledBack := (rollback .alone inner).state.below
    let committed := (commit .alone inner).state.below
    outer.buffer.Sound ∧ (∀ act ∈ acts.map Prod.snd, act.ends = false) ∧
      Assoc.get? 1 rolledBack.buffer.pending = some none ∧
      (commit .alone rolledBack).state.below.entries[2]? = some (some a) ∧
      Assoc.get? 1 committed.buffer.pending = some none ∧
      Assoc.get? 3 committed.buffer.pending = some (some a) ∧
      (commit .alone committed).state.below.entries[2]? = some (some a) := by
  intro a outer acts
  dsimp only
  have houter : outer.buffer.Sound := ⟨by decide, List.nodup_nil⟩
  have hacts : ∀ act ∈ acts.map Prod.snd, act.ends = false := by decide
  have hwaits : Assoc.get? 2 outer.buffer.pending = some (some a) := rfl
  have hmissed : .read 1 ∈ acts.map Prod.snd ∧ outer.shown? 1 = none := ⟨List.mem_cons_self, rfl⟩
  have hread : ¬(.read 2 ∈ acts.map Prod.snd ∧ outer.shown? 2 = none) := fun h => by
    have hmem : Sharing.Act.read 2 ∈ [.read 1, .write 3 a] := h.1
    simp at hmem
  have hclear : .clear ∉ acts.map Prod.snd := fun h => by
    have hmem : Sharing.Act.clear ∈ [.read 1, .write 3 a] := h
    simp at hmem
  have hended := inner_end_writes houter hacts .alone
  dsimp only at hended
  obtain ⟨⟨-, -, -, -, hrolledBack⟩, -, -, -, -, hcommitted⟩ := hended
  obtain ⟨-, hkept⟩ := (hrolledBack 2).2 hread
  obtain ⟨-, -, hkept'⟩ := (hcommitted 2).2 rfl
  exact ⟨houter, hacts, (hrolledBack 1).1 hmissed, (hkept .alone _ hwaits).2,
    ((hcommitted 1).2 rfl).1 hmissed, (hcommitted 3).1 _ rfl,
    ((hkept' hread hclear).2 .alone _ hwaits).2⟩

/-- The outer session has a write waiting. The inner one looks this very key up, is not shown that
write, and rolls back. The write is gone then, and the commit of the outer session stores a miss;
and so it is when the inner session commits. -/
theorem inner_rollback_drops_write :
    let a : Value := ⟨0, "a"⟩
    let outer : Session Nat Value (Table Nat Value) :=
      ⟨⟨false, [(1, some a)], []⟩, Table.named "users"⟩
    let inner := ((⟨{}, outer⟩ : Session Nat Value (Session Nat Value (Table Nat Value))).run
      [(.alone, .read 1)]).2
    let rolledBack := (rollback .alone inner).state.below
    let committed := (commit .alone inner).state.below
    Assoc.get? 1 outer.buffer.pending = some (some a) ∧
      Assoc.get? 1 rolledBack.buffer.pending = some none ∧
      (commit .alone rolledBack).result = .ok () ∧
      (commit .alone rolledBack).state.below.entries[1]? = some none ∧
      (commit .alone committed).result = .ok () ∧
      (commit .alone committed).state.below.entries[1]? = some none :=
  ⟨rfl, rfl, rfl, rfl, rfl, rfl⟩

end Session

end SoftTier
