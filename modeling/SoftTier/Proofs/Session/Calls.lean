import SoftTier.Proofs.Recorded
import SoftTier.Proofs.Session.FailedCommits
import SoftTier.Proofs.Session.Gathering

/-!
# The calls that a session sends

Whatever store a session stands over, it sends it lookups and counts while it gathers, and nothing
else. An end that succeeds sends one change for each key that is to be changed, and a clear in front
if there was one; which keys these are, and what is put under them, is told by what the session has
done since its last end. The store may be changed by others at any time, and may fail.

- `Sharing.Dealings`: a session over a store of any kind, and what it has done.
- `Sharing.sinceEnd`: what it has done since its last end.
- `Sharing.Act.perform_hears`: what an act sends that is no end.
- `Sharing.Dealings.Told`: the buffer is told by what was done since the last end.
- `Sharing.Dealings.calls_exact`: what is sent.
-/

namespace SoftTier

/-! ## What an end asks for -/

namespace Buffer

variable {κ ν : Type} {b : Buffer κ ν}

theorem isDirty_eq_false_iff :
    b.isDirty = false ↔ b.clears = false ∧ b.pending = [] ∧ b.missed = [] := by
  simp [isDirty, and_assoc]

variable [DecidableEq κ]

/-- A commit asks for the clear, and then for one write after the other. -/
theorem publishing_append_freeing (visit : Visit) (b : Buffer κ ν) :
    b.publishing visit ++ b.freeing visit =
      (if b.clears then [.clear] else []) ++ (b.sends visit).map fun e => .put e.1 e.2 := by
  rw [publishing, sends, List.append_assoc, List.map_append, List.map_map]
  rfl

theorem sends_eq_nil_iff {visit : Visit} : b.sends visit = [] ↔ b.pending = [] ∧ b.missed = [] := by
  rw [sends, List.append_eq_nil_iff, List.map_eq_nil_iff]
  constructor
  · rintro ⟨hsent, hdue⟩
    have hpending : b.pending = [] := (hsent ▸ visit.arrange_perm b.pending).symm.eq_nil
    refine ⟨hpending, List.eq_nil_iff_forall_not_mem.mpr fun k hk => ?_⟩
    -- with no write waiting, every missed key is due
    have hmem : k ∈ b.due visit := mem_due.mpr ⟨hk, by rw [hpending, Assoc.get?_nil]⟩
    exact absurd (hdue ▸ hmem) List.not_mem_nil
  · rintro ⟨hpending, hmissed⟩
    rw [due, hpending, hmissed, Visit.arrange_nil, Visit.arrange_nil]
    exact ⟨rfl, rfl⟩

/-- A commit has something to ask for just when the session is dirty. -/
theorem changes_eq_nil_iff {visit : Visit} :
    b.publishing visit ++ b.freeing visit = [] ↔ b.isDirty = false := by
  rw [publishing_append_freeing, List.append_eq_nil_iff, List.map_eq_nil_iff, sends_eq_nil_iff,
    isDirty_eq_false_iff]
  cases b.clears <;> simp

end Buffer

namespace Sharing

variable {κ ν σ : Type}

/-! ## What a session does -/

/-- Something that a session has done, the answer, and the calls that it has sent for it, the first
one in front. -/
structure Deed (κ ν : Type) where
  act : Act κ ν
  answer : Answer ν
  sent : List (Heard κ ν)

namespace Deed

/-- Whether this is an end that has succeeded. -/
def concludes (e : Deed κ ν) : Bool :=
  match e.act, e.answer with
  | .commit, .done => true
  | .rollback, .done => true
  | _, _ => false

/-- Whether the store was asked for this key and had no value. -/
def absent [DecidableEq κ] (e : Deed κ ν) (k : κ) : Bool := e.sent.any (Heard.misses k)

end Deed

/-- What a session has done since the last end that succeeded. The latest deed comes first. -/
def sinceEnd (past : List (Deed κ ν)) : List (Deed κ ν) := past.takeWhile fun e => !e.concludes

/-- A session over a store, and what it has done, the latest first. -/
structure Dealings (κ ν σ : Type) where
  session : Session κ ν σ
  past : List (Deed κ ν)

/-- An act of a session with its surroundings. Before it others may change the store. -/
structure Turn (κ ν σ : Type) where
  meanwhile : σ → σ
  env : Ambient
  act : Act κ ν

namespace Dealings

/-- A session that has not done anything yet. -/
def start (store : σ) : Dealings κ ν σ := ⟨⟨{}, store⟩, []⟩

/-- The session when others have changed the store. -/
def before (w : Dealings κ ν σ) (turn : Turn κ ν σ) : Session κ ν σ :=
  { w.session with below := turn.meanwhile w.session.below }

variable [DecidableEq κ] [Keeper ν] [Store σ κ ν]

/-- What is done in a turn. The calls are those that the store hears when it is put on record. -/
def deed (w : Dealings κ ν σ) (turn : Turn κ ν σ) : Deed κ ν :=
  ⟨turn.act, .of (turn.act.perform turn.env (w.before turn)).result,
    (turn.act.perform turn.env (w.before turn).onRecord).state.below.heard.reverse⟩

def step (w : Dealings κ ν σ) (turn : Turn κ ν σ) : Dealings κ ν σ :=
  ⟨(turn.act.perform turn.env (w.before turn)).state, w.deed turn :: w.past⟩

/-- Takes turns one after the other. -/
def run (w : Dealings κ ν σ) (turns : List (Turn κ ν σ)) : Dealings κ ν σ := turns.foldl step w

end Dealings

/-! ## What an act sends -/

/-- An act that is no end may send these calls: a lookup sends the lookup, a count sends a count,
and every other act sends nothing. -/
def Act.Sends : Act κ ν → List (Heard κ ν) → Prop
  | .read k, sent => ∃ found, sent = [.read k found]
  | .size, sent => sent = [.size]
  | _, sent => sent = []

theorem Act.Sends.reverse {act : Act κ ν} {sent : List (Heard κ ν)} (h : act.Sends sent) :
    act.Sends sent.reverse := by
  cases act with
  | read k =>
    obtain ⟨found, rfl⟩ := h
    exact ⟨found, rfl⟩
  | _ =>
    cases h
    rfl

/-- An end is answered by its failure, or else it is done. -/
theorem leaves_done {τ : Type} {x : Op τ Unit} {env : Ambient} {s : τ}
    {Q : Except Failure Unit → τ → Prop} (hx : x.Leaves env s Q) :
    (x >>= fun _ => pure (Answer.done : Answer ν)).Leaves env s fun r s' =>
      ∃ r', Q r' s' ∧ (Answer.of r = .done ↔ r' = .ok ()) := by
  refine hx.bind ?_ ?_
  · exact fun _ _ h => (Op.yields_pure _).leaves ⟨_, h, iff_of_true rfl rfl⟩
  · exact fun _ _ h => ⟨_, h, iff_of_false nofun nofun⟩

section Acts

variable [DecidableEq κ] [Keeper ν] [Store σ κ ν]

/-- What an act that is no end sends, and what it gathers. -/
theorem Act.perform_hears {act : Act κ ν} (hact : act.ends = false) (env : Ambient)
    (s : Session κ ν σ) :
    (act.perform : Op (Session κ ν (Recorded κ ν σ)) (Answer ν)).Leaves env s.onRecord fun _ s' =>
      act.Sends s'.below.heard ∧
        s'.buffer = act.gather (fun k => s'.below.heard.any (Heard.misses k)) s.buffer := by
  cases act with
  | commit => exact absurd hact nofun
  | rollback => exact absurd hact nofun
  | write k a =>
    refine (Session.note_yields _).bind_leaves ((Op.yields_pure _).leaves ?_)
    exact ⟨rfl, rfl⟩
  | writeMiss k =>
    refine (Session.note_yields _).bind_leaves ((Op.yields_pure _).leaves ?_)
    exact ⟨rfl, rfl⟩
  | clear =>
    refine (Session.note_yields _).bind_leaves ((Op.yields_pure _).leaves ?_)
    exact ⟨rfl, rfl⟩
  | erase k =>
    refine (Op.yields_pure none).bind_leaves ((Op.yields_pure _).leaves ?_)
    exact ⟨rfl, rfl⟩
  | size =>
    have hsize : Op.Leaves (Store.size : Op (Recorded κ ν σ) Nat) (env.also s.buffer)
        s.onRecord.below fun _ t' => t'.heard = [.size] := rfl
    refine Op.Leaves.then_pure ((Session.onBelow_leaves (s := s.onRecord) hsize).imp ?_) _
    rintro r s' ⟨hbuffer, hheard⟩
    exact ⟨hheard, hbuffer⟩
  | read k =>
    have hread : Op.Leaves (Store.read k : Op (Recorded κ ν σ) (Option ν)) (env.also s.buffer)
        s.onRecord.below fun r t' => t'.heard = [.read k r] := rfl
    refine Op.Leaves.then_pure ((Session.read_leaves_of (s := s.onRecord) hread).imp ?_) _
    rintro r s' ⟨found, hheard, hbuffer⟩
    refine ⟨⟨found, hheard⟩, hbuffer.trans ?_⟩
    rw [hheard]
    -- the key is noted if and only if the answer on record is that it has no value
    match found with
    | .ok none => simp [gather, Heard.misses, Session.onRecord]
    | .ok (some a) => simp [gather, Heard.misses, Session.onRecord]
    | .error e => simp [gather, Heard.misses, Session.onRecord]

/-- The changes that an end asks for. -/
def Act.changes (visit : Visit) (b : Buffer κ ν) : Act κ ν → List (Change κ ν)
  | .commit => b.publishing visit ++ b.freeing visit
  | .rollback => b.freeingAll visit
  | _ => []

/-- What an end leaves, whether or not it succeeds. -/
theorem Act.perform_ended {act : Act κ ν} (hact : act.ends = true) (env : Ambient)
    (s : Session κ ν σ) :
    (act.perform : Op (Session κ ν (Recorded κ ν σ)) (Answer ν)).Leaves env s.onRecord fun r s' =>
      ∃ r', Session.Ended (act.changes env.visit s.buffer) s.buffer ⟨s.below, []⟩ r' s' ∧
        (Answer.of r = .done ↔ r' = .ok ()) := by
  cases act with
  | commit => exact leaves_done (Session.commit_hears env s.buffer ⟨s.below, []⟩)
  | rollback => exact leaves_done (Session.rollback_hears env s.buffer ⟨s.below, []⟩)
  | _ => exact absurd hact nofun

end Acts

namespace Dealings

variable [DecidableEq κ] [Keeper ν] [Store σ κ ν]

/-- A turn is told by what its act leaves when the store is on record. -/
theorem deed_of_leaves (w : Dealings κ ν σ) (turn : Turn κ ν σ)
    {Q : Except Failure (Answer ν) → Session κ ν (Recorded κ ν σ) → Prop}
    (h : turn.act.perform.Leaves turn.env (w.before turn).onRecord Q) :
    ∃ r s', Q r s' ∧ w.deed turn = ⟨turn.act, .of r, s'.below.heard.reverse⟩ ∧
      (w.step turn).session = s'.offRecord := by
  refine ⟨_, _, h, ?_⟩
  have hshown : ((turn.act.perform turn.env (w.before turn).onRecord).Shows (fun _ => true)
      Session.offRecord (turn.act.perform turn.env (w.before turn))) :=
    turn.act.perform_projects Recorded.projection_below turn.env (w.before turn).onRecord
  rw [deed, step, hshown.result_eq, hshown.state_eq]
  exact ⟨rfl, rfl⟩

/-- An act that is no end. -/
theorem deed_of_not_ends (w : Dealings κ ν σ) {turn : Turn κ ν σ} (hact : turn.act.ends = false) :
    turn.act.Sends (w.deed turn).sent ∧
      (w.step turn).session.buffer = turn.act.gather (w.deed turn).absent w.session.buffer := by
  obtain ⟨r, s', ⟨hsends, hbuffer⟩, hdeed, hsession⟩ :=
    w.deed_of_leaves turn (turn.act.perform_hears hact turn.env (w.before turn))
  have habsent : (w.deed turn).absent = fun k => s'.below.heard.any (Heard.misses k) := by
    rw [hdeed]
    exact funext fun k => List.any_reverse
  rw [habsent, hdeed, hsession]
  exact ⟨hsends.reverse, hbuffer⟩

/-- An end, whether or not it succeeds. -/
theorem deed_of_ends (w : Dealings κ ν σ) {turn : Turn κ ν σ} (hact : turn.act.ends = true) :
    let changes := turn.act.changes turn.env.visit w.session.buffer
    (∃ asked, (w.deed turn).sent = asked.map Heard.change ∧
      ((w.deed turn).answer = .done → asked = changes) ∧ (asked = [] ↔ changes = [])) ∧
    ((w.deed turn).answer = .done → (w.step turn).session.buffer = {}) ∧
    ((w.deed turn).answer ≠ .done → (w.step turn).session.buffer = w.session.buffer) := by
  intro changes
  obtain ⟨r, s', ⟨r', ⟨⟨asked, hall, hnil, hheard⟩, hbuffer⟩, hdone⟩, hdeed, hsession⟩ :=
    w.deed_of_leaves turn (turn.act.perform_ended hact turn.env (w.before turn))
  rw [hsession, hdeed]
  refine ⟨⟨asked, ?_, fun h => hall (hdone.mp h), hnil⟩, fun h => ?_, fun h => ?_⟩
  · show s'.below.heard.reverse = _
    rw [hheard, List.append_nil, List.reverse_reverse]
  · exact hbuffer.trans (if_pos (hdone.mp h))
  · exact hbuffer.trans (if_neg fun hok => h (hdone.mpr hok))

end Dealings

/-! ## Any turns -/

section Told

variable {e : Deed κ ν} {past : List (Deed κ ν)}

theorem Deed.concludes_iff : e.concludes = true ↔ e.act.ends = true ∧ e.answer = .done := by
  obtain ⟨act, answer, sent⟩ := e
  cases act <;> cases answer <;> simp [concludes, Act.ends]

theorem sinceEnd_cons (e : Deed κ ν) (past : List (Deed κ ν)) :
    sinceEnd (e :: past) = if e.concludes then [] else e :: sinceEnd past := by
  rw [sinceEnd, List.takeWhile_cons]
  cases e.concludes <;> rfl

variable [DecidableEq κ]

theorem Act.gather_of_ends {act : Act κ ν} (hact : act.ends = true) (absent : κ → Bool)
    (b : Buffer κ ν) : act.gather absent b = b := by
  cases act with
  | commit => rfl
  | rollback => rfl
  | _ => exact absurd hact nofun

theorem Deed.absent_iff {k : κ} : e.absent k = true ↔ .read k (.ok none) ∈ e.sent := by
  have hmisses : ∀ call : Heard κ ν, call.misses k = true ↔ call = .read k (.ok none) := by
    intro call
    unfold Heard.misses
    split
    · simp
    · rename_i hcall
      exact iff_of_false nofun (hcall k)
  simp [absent, List.any_eq_true, hmisses]

/-- The buffer is told by what the session has done since its last end; and but for ends, nothing
that it has done has sent more than lookups and counts. -/
structure Dealings.Told (w : Dealings κ ν σ) : Prop where
  buffer_eq : w.session.buffer = gathered ((sinceEnd w.past).map fun e => (e.act, e.absent))
  sends : ∀ e ∈ w.past, e.act.ends = false → e.act.Sends e.sent

namespace Dealings

theorem told_start (store : σ) : (start store : Dealings κ ν σ).Told :=
  ⟨rfl, fun _ he => absurd he List.not_mem_nil⟩

namespace Told

variable {w : Dealings κ ν σ}

/-- The keys that the session is to free are those that it has looked up in vain. -/
theorem mem_missed (h : w.Told) {k : κ} : k ∈ w.session.buffer.missed ↔
    ∃ e ∈ sinceEnd w.past, e.act = .read k ∧ .read k (.ok none) ∈ e.sent := by
  rw [h.buffer_eq, mem_missed_gathered]
  constructor
  · rintro ⟨absent, hmem, habsent⟩
    obtain ⟨e, he, heq⟩ := List.mem_map.mp hmem
    obtain ⟨hact, rfl⟩ := Prod.mk.inj heq
    exact ⟨e, he, hact, Deed.absent_iff.mp habsent⟩
  · rintro ⟨e, he, hact, hsent⟩
    refine ⟨e.absent, List.mem_map.mpr ⟨e, he, ?_⟩, Deed.absent_iff.mpr hsent⟩
    rw [hact]

variable [Keeper ν] [Store σ κ ν]

theorem step (h : w.Told) (turn : Turn κ ν σ) : (w.step turn).Told := by
  have hpast : (w.step turn).past = w.deed turn :: w.past := rfl
  cases hact : turn.act.ends with
  | false =>
    obtain ⟨hsends, hbuffer⟩ := w.deed_of_not_ends hact
    constructor
    · have hgoes : (w.deed turn).concludes = false :=
        Bool.eq_false_iff.mpr fun htrue => by
          have hends : turn.act.ends = true := (Deed.concludes_iff.mp htrue).1
          exact absurd (hact.symm.trans hends) nofun
      rw [hpast, sinceEnd_cons, hgoes, if_neg Bool.false_ne_true, List.map_cons, gathered_cons,
        ← h.buffer_eq]
      exact hbuffer
    · intro e he
      rcases List.mem_cons.mp he with rfl | he
      · exact fun _ => hsends
      · exact h.sends e he
  | true =>
    obtain ⟨-, hdone, hfailed⟩ := w.deed_of_ends hact
    constructor
    · rw [hpast, sinceEnd_cons]
      by_cases hanswer : (w.deed turn).answer = .done
      · rw [hdone hanswer, if_pos (Deed.concludes_iff.mpr ⟨hact, hanswer⟩)]
        rfl
      · rw [hfailed hanswer, if_neg fun htrue => hanswer (Deed.concludes_iff.mp htrue).2,
          List.map_cons, gathered_cons, ← h.buffer_eq]
        exact (Act.gather_of_ends hact _ _).symm
    · intro e he hnot
      rcases List.mem_cons.mp he with rfl | he
      · exact absurd (hnot.symm.trans hact) nofun
      · exact h.sends e he hnot

theorem run (h : w.Told) (turns : List (Turn κ ν σ)) : (w.run turns).Told := by
  induction turns generalizing w with
  | nil => exact h
  | cons turn turns ih => exact ih (h.step turn)

end Told

/-- **The calls of a session are exact.** Let a session over a store of any kind do whatever it
likes, in whatever surroundings, while others change the store and calls fail or not. An act that is
no end sends a lookup or a count at most. A commit sends nothing just when the session is not dirty.
If it succeeds, it has sent one write for every key that was written since the last end and not
cleared away, or else looked up in vain: the last write, or else a miss. If there was a clear, that
was sent first, and once. A rollback that succeeds has sent one miss for every key looked up in
vain. Neither has sent anything else. -/
theorem calls_exact [Keeper ν] [Store σ κ ν] (store : σ) (turns : List (Turn κ ν σ)) :
    let w : Dealings κ ν σ := (start store).run turns
    let since := sinceEnd w.past
    let written := fun k => lastWrite k (since.map Deed.act)
    let missed := fun k => ∃ e ∈ since, e.act = .read k ∧ .read k (.ok none) ∈ e.sent
    (∀ e ∈ w.past, e.act.ends = false → e.act.Sends e.sent) ∧
    ∀ meanwhile env,
      let commit := w.deed ⟨meanwhile, env, .commit⟩
      let rollback := w.deed ⟨meanwhile, env, .rollback⟩
      (commit.sent = [] ↔ w.session.buffer.isDirty = false) ∧
      (commit.answer = .done → ∃ writes : Assoc κ (Option ν), writes.keys.Nodup ∧
        (∀ k entry, (k, entry) ∈ writes ↔
          written k = some entry ∨ written k = none ∧ missed k ∧ entry = none) ∧
        (.clear ∈ since.map Deed.act →
          commit.sent = .change .clear :: writes.map fun e => .change (.put e.1 e.2)) ∧
        (.clear ∉ since.map Deed.act →
          commit.sent = writes.map fun e => .change (.put e.1 e.2))) ∧
      (rollback.answer = .done → ∃ keys : List κ, keys.Nodup ∧ (∀ k, k ∈ keys ↔ missed k) ∧
        rollback.sent = keys.map fun k => .change (.put k none)) := by
  intro w since written missed
  have h : w.Told := (told_start store).run turns
  have hmap : (since.map fun e => (e.act, e.absent)).map Prod.fst = since.map Deed.act := by
    simp [Function.comp_def]
  have hsound : w.session.buffer.Sound := h.buffer_eq ▸ sound_gathered _
  have hwritten : ∀ k, Assoc.get? k w.session.buffer.pending = written k := fun k => by
    rw [h.buffer_eq, get?_gathered, hmap]
  have hclears : w.session.buffer.clears = true ↔ .clear ∈ since.map Deed.act := by
    rw [h.buffer_eq, clears_gathered, hmap]
  refine ⟨h.sends, fun meanwhile env => ?_⟩
  intro commit rollback
  have hcommit : (⟨meanwhile, env, .commit⟩ : Turn κ ν σ).act.ends = true := rfl
  have hrollback : (⟨meanwhile, env, .rollback⟩ : Turn κ ν σ).act.ends = true := rfl
  obtain ⟨⟨asked, hsent, hall, hnil⟩, -⟩ := w.deed_of_ends hcommit
  obtain ⟨⟨freed, hfreed, hall', -⟩, -⟩ := w.deed_of_ends hrollback
  have hasked : commit.answer = .done →
      asked = (if w.session.buffer.clears then [.clear] else []) ++
        (w.session.buffer.sends env.visit).map fun e => .put e.1 e.2 := fun hdone =>
    (hall hdone).trans (Buffer.publishing_append_freeing env.visit w.session.buffer)
  refine ⟨?_, fun hdone => ⟨w.session.buffer.sends env.visit, hsound.sends_nodup _,
    fun k entry => ?_, fun hclear => ?_, fun hclear => ?_⟩,
    fun hdone => ⟨env.visit.arrange w.session.buffer.missed, ?_, fun k => ?_, ?_⟩⟩
  · -- nothing is sent by a commit that is not dirty, and by no other
    rw [hsent, List.map_eq_nil_iff, hnil]
    exact Buffer.changes_eq_nil_iff
  · -- the writes, and the misses where there is none
    rw [← Assoc.get?_eq_some_iff (hsound.sends_nodup env.visit), hsound.get?_sends, hwritten]
    have hmissed : k ∈ w.session.buffer.missed ↔ missed k := h.mem_missed
    cases written k with
    | some e => simp
    | none => simp [hmissed, eq_comm]
  · rw [hsent, hasked hdone, if_pos (hclears.mpr hclear), List.map_append, List.map_map]
    rfl
  · rw [hsent, hasked hdone, if_neg fun htrue => hclear (hclears.mp htrue), List.nil_append,
      List.map_map]
    rfl
  · -- what a rollback sends
    exact (env.visit.arrange_perm _).nodup_iff.mpr hsound.missed_nodup
  · exact (env.visit.arrange_perm _).mem_iff.trans h.mem_missed
  · rw [hfreed, hall' hdone]
    exact List.map_map ..

/-- A key is missed and then written, and so is a second key; both writes are cleared away, and a
third key is written. The commit sends the clear, the third write, and a miss for the key that was
missed; it sends nothing for the second key, nor for one that was found. -/
theorem commit_sends_after_clear :
    let a : Value := ⟨0, "a"⟩
    let store : Table Nat Value := (Table.named "users").put 4 (some a)
    let turns : List (Turn Nat Value (Table Nat Value)) :=
      [.read 1, .write 1 a, .write 2 a, .clear, .read 4, .write 3 a].map (⟨id, .alone, ·⟩)
    let w := (start store).run turns
    let commit := w.deed ⟨id, .alone, .commit⟩
    commit.answer = .done ∧ commit.sent ≠ [] ∧ ∃ writes : Assoc Nat (Option Value),
      commit.sent = .change .clear :: writes.map (fun e => .change (.put e.1 e.2)) ∧
      (3, some a) ∈ writes ∧ (1, none) ∈ writes ∧
      (∀ entry, (2, entry) ∉ writes) ∧ ∀ entry, (4, entry) ∉ writes := by
  intro a store turns w commit
  have hdone : commit.answer = .done := rfl
  have hpast : sinceEnd ((start store).run turns).past =
      [⟨.write 3 a, .done, []⟩, ⟨.read 4, .found none, [.read 4 (.ok (some a))]⟩,
        ⟨.clear, .done, []⟩, ⟨.write 2 a, .done, []⟩, ⟨.write 1 a, .done, []⟩,
        ⟨.read 1, .found none, [.read 1 (.ok none)]⟩] := rfl
  obtain ⟨-, h⟩ := calls_exact store turns
  obtain ⟨hdirty, hcommit, -⟩ := h id .alone
  obtain ⟨writes, -, hwrites, hsent, -⟩ := hcommit hdone
  rw [hpast] at hwrites hsent
  refine ⟨hdone, fun hnil => absurd (hdirty.mp hnil) (by decide), writes, hsent (by simp), ?_, ?_,
    fun entry hmem => ?_, fun entry hmem => ?_⟩
  · exact (hwrites ..).mpr (.inl rfl)
  · exact (hwrites ..).mpr (.inr ⟨rfl, by simp, rfl⟩)
  · have hmem := (hwrites ..).mp hmem
    simp [lastWrite] at hmem
  · have hmem := (hwrites ..).mp hmem
    simp [lastWrite] at hmem

end Dealings

end Told

end Sharing

end SoftTier
