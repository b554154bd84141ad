import SoftTier.Proofs.Session.Isolation
import SoftTier.Proofs.Session.Retry
import SoftTier.Proofs.UnitOfWork.Seats

/-!
# A unit of work is the product of its sessions

Whatever is asked of the caches in a unit of work and however often it ends, a name keeps the cache
that was first used under it, and each request goes to the session of the name and to no other. Over
base stores with names of their own, a cache cannot tell that it shares its unit of work with
others: it answers and is left as if its session stood alone and only heard of the requests for it
and of the ends.

- `Desk.Act`, `Desk.run`: what is done to a unit of work, and many such acts.
- `Desk.handles`: the caches that were used, under the names that they showed.
- `Desk.store_run`: the cache that a name belongs to, whatever fails.
- `Act.own`, `Desk.alone`: what an act is to one of the caches, and a session that stands alone.
- `Desk.Fits`: an act has done to every session what it would have done to that session alone.
- `Desk.product_of_sessions`: the unit of work and its sessions.
-/

namespace SoftTier

namespace Sharing

variable {κ ν : Type}

namespace Act

variable [DecidableEq κ] [Ord κ] [Std.TransOrd κ]

/-- A session as an act leaves it. -/
def left (visit : Visit) (act : Act κ ν) (s : Session κ ν (Table κ ν)) :
    Session κ ν (Table κ ν) :=
  ⟨(act.outcome visit s.buffer s.below).2.1, (act.outcome visit s.buffer s.below).2.2⟩

theorem name_left (visit : Visit) (act : Act κ ν) (s : Session κ ν (Table κ ν)) :
    (act.left visit s).below.name = s.below.name := by
  cases act with
  | commit =>
    rw [left, outcome, ← Buffer.foldl_changes]
    exact Change.name_foldl_apply ..
  | rollback =>
    rw [left, outcome, ← Buffer.foldl_freeingAll]
    exact Change.name_foldl_apply ..
  | _ => rfl

theorem sound_left (visit : Visit) (act : Act κ ν) {s : Session κ ν (Table κ ν)}
    (h : s.buffer.Sound) : (act.left visit s).buffer.Sound := by
  cases act with
  | write k a => exact h.put k (some a)
  | writeMiss k => exact h.put k none
  | read k =>
    rw [left, outcome]
    dsimp only
    split
    · exact h.miss k
    · exact h
  | erase k => exact h
  | clear => exact h.wipe
  | size => exact h
  | commit => exact Buffer.sound_empty
  | rollback => exact Buffer.sound_empty

variable [Std.LawfulEqOrd κ]

/-- The order in which an end visits what was gathered leaves no trace. -/
theorem outcome_visit (act : Act κ ν) {b : Buffer κ ν} (h : b.Sound) (t : Table κ ν)
    (visit visit' : Visit) : act.outcome visit b t = act.outcome visit' b t := by
  cases act with
  | commit =>
    have hsame : b.Spares t t := ⟨rfl, fun _ _ _ _ => rfl⟩
    rw [outcome, outcome, Buffer.published_eq_of_spares h hsame visit' visit]
  | rollback =>
    have hreleased : b.released visit t = b.released visit' t := by
      refine Table.ext_getElem? ?_ fun k => ?_
      · rw [← Buffer.foldl_freeingAll, ← Buffer.foldl_freeingAll, Change.name_foldl_apply,
          Change.name_foldl_apply]
      · rw [Buffer.getElem?_released, Buffer.getElem?_released]
    rw [outcome, outcome, hreleased]
  | _ => rfl

/-- An end of a session that has gathered nothing changes nothing. -/
theorem left_empty (visit : Visit) (t : Table κ ν) :
    (commit : Act κ ν).left visit ⟨{}, t⟩ = ⟨{}, t⟩ ∧
      (rollback : Act κ ν).left visit ⟨{}, t⟩ = ⟨{}, t⟩ := by
  have hcommit := name_left visit (commit : Act κ ν) ⟨{}, t⟩
  have hrollback := name_left visit (rollback : Act κ ν) ⟨{}, t⟩
  constructor
  · refine congrArg (Session.mk {}) (Table.ext_getElem? hcommit fun k => ?_)
    exact Buffer.getElem?_published Buffer.sound_empty visit k t
  · refine congrArg (Session.mk {}) (Table.ext_getElem? hrollback fun k => ?_)
    exact Buffer.getElem?_released visit k t

end Act

end Sharing

namespace UnitOfWork

namespace Desk

open Sharing (Answer)

variable {κ ν σ : Type} {n : Nat}

/-! ## What is done to a unit of work -/

/-- What a cache is asked. -/
inductive Request (κ ν : Type) where
  | read (k : κ)
  | write (k : κ) (a : ν)
  | clear

/-- The request, made of a session. -/
def Request.act : Request κ ν → Sharing.Act κ ν
  | read k => .read k
  | write k a => .write k a
  | clear => .clear

/-- Something done to a unit of work: a cache is asked for something, or all sessions end. -/
inductive Act (κ ν : Type) (n : Nat) where
  | ask (i : Fin n) (q : Request κ ν)
  | commit
  | rollback

/-- What an act is to the session of one cache. -/
def Act.own (i : Fin n) : Act κ ν n → Option (Sharing.Act κ ν)
  | ask j q => if j = i then some q.act else none
  | commit => some .commit
  | rollback => some .rollback

section Run

variable [DecidableEq κ] [Keeper ν] [Store σ κ ν]

/-- Does an act. -/
def Act.perform : Act κ ν n → Op (Desk κ ν σ n) (Answer ν)
  | ask i (.read k) => do return .found (← Desk.read i k)
  | ask i (.write k a) => do
    Desk.write i k a
    return .done
  | ask i .clear => do
    Desk.clear i
    return .done
  | commit => do
    Desk.commit
    return .done
  | rollback => do
    Desk.rollback
    return .done

/-- What an act is answered, and the unit of work and the stores after it. What was done before a
failure stays done. -/
def step (env : Ambient) (d : Desk κ ν σ n) (act : Act κ ν n) : Answer ν × Desk κ ν σ n :=
  let o := act.perform env d
  (.of o.result, o.state)

/-- Does acts in turn, each in surroundings of its own. -/
def run (d : Desk κ ν σ n) (acts : List (Ambient × Act κ ν n)) : Desk κ ν σ n :=
  acts.foldl (fun d (env, act) => (d.step env act).2) d

/-- The cache that an act uses, under the name that it shows. -/
def used (d : Desk κ ν σ n) : Act κ ν n → Assoc String (Fin n)
  | .ask i _ => [(d.name i, i)]
  | .commit => []
  | .rollback => []

/-- The caches that are used, under the names that they show at the time, the first one first. -/
def handles (d : Desk κ ν σ n) : List (Ambient × Act κ ν n) → Assoc String (Fin n)
  | [] => []
  | (env, act) :: acts => d.used act ++ handles (d.step env act).2 acts

/-- A session that does what it is asked and nothing else happens to. -/
def alone (s : Session κ ν σ) (acts : List (Ambient × Sharing.Act κ ν)) : Session κ ν σ :=
  acts.foldl (fun s (env, act) => (act.perform env s).state) s

end Run

/-! ## Where requests go -/

section Routing

variable [DecidableEq κ] [Keeper ν] [Store σ κ ν] {d : Desk κ ν σ n}

/-- A request goes to the session that serves the cache. -/
theorem perform_ask (i : Fin n) (q : Request κ ν) :
    (Act.perform (.ask i q) : Op (Desk κ ν σ n) (Answer ν)) = onCache i q.act.perform := by
  cases q with
  | read k => exact onCache_map i (Store.read k) Answer.found
  | write k a => exact onCache_map i (Store.write k a) fun _ => Answer.done
  | clear => exact onCache_map i Store.clear fun _ => Answer.done

/-- What a request is answered, and what becomes of the session that it goes to. -/
theorem step_ask (d : Desk κ ν σ n) (env : Ambient) (i : Fin n) (q : Request κ ν) :
    let o := (q.act.perform : Op (Session κ ν σ) (Answer ν))
      (d.around (d.name i) (d.serving i).store env)
      ⟨(d.serving i).buffer, d.shelf.nth (d.serving i).store⟩
    d.step env (.ask i q) = (.of o.result, d.settle (d.name i) (d.serving i).store o.state) := by
  rw [step, perform_ask]
  obtain ⟨hresult, hstate⟩ :=
    onCache_eq (d := d) i (q.act.perform : Op (Session κ ν σ) (Answer ν)) env
  exact Prod.ext (congrArg Answer.of hresult) hstate

/-- An end moves no session, whatever fails. -/
theorem step_sameSeats (d : Desk κ ν σ n) (env : Ambient) :
    d.SameSeats (d.step env .commit).2 ∧ d.SameSeats (d.step env .rollback).2 := by
  have hend : ∀ x : Op (Session κ ν σ) Unit,
      (onSeats x >>= fun _ => pure (Answer.done : Answer ν)).Leaves env d
        fun _ d' => d.SameSeats d' := fun x => (onSeats_sameSeats x env d).then_pure _
  exact ⟨hend Session.commit, hend Session.rollback⟩

/-- An act gives a cache that it uses its name, unless the name is given; it takes away none. -/
theorem store_step (d : Desk κ ν σ n) (env : Ambient) (act : Act κ ν n) (nm : String) :
    ((d.step env act).2.work.get? nm).map Seat.store =
      ((d.work.get? nm).map Seat.store).or (Assoc.get? nm (d.used act)) := by
  cases act with
  | ask i q =>
    rw [step_ask]
    dsimp only
    rw [get?_settle, used, Assoc.get?, Assoc.get?]
    split
    · rename_i heq
      rw [← heq, serving]
      cases d.work.get? (d.name i) <;> rfl
    · exact (Option.or_none ..).symm
  | commit =>
    rw [used, Assoc.get?, Option.or_none]
    exact (step_sameSeats d env).1.store_eq nm
  | rollback =>
    rw [used, Assoc.get?, Option.or_none]
    exact (step_sameSeats d env).2.store_eq nm

theorem keys_nodup_step (h : d.work.keys.Nodup) (env : Ambient) (act : Act κ ν n) :
    (d.step env act).2.work.keys.Nodup := by
  cases act with
  | ask i q =>
    rw [step_ask]
    exact Assoc.nodup_keys_insert h _ _
  | commit => exact (step_sameSeats d env).1.keys_eq ▸ h
  | rollback => exact (step_sameSeats d env).2.keys_eq ▸ h

/-- A name stays with the cache that was first used under it. -/
theorem store_run (d : Desk κ ν σ n) (acts : List (Ambient × Act κ ν n)) (nm : String) :
    ((d.run acts).work.get? nm).map Seat.store =
      ((d.work.get? nm).map Seat.store).or (Assoc.get? nm (d.handles acts)) := by
  induction acts generalizing d with
  | nil => exact (Option.or_none ..).symm
  | cons act acts ih =>
    obtain ⟨env, act⟩ := act
    rw [handles, Assoc.get?_append, ← Option.or_assoc, ← store_step]
    exact ih (d.step env act).2

theorem keys_nodup_run (h : d.work.keys.Nodup) (acts : List (Ambient × Act κ ν n)) :
    (d.run acts).work.keys.Nodup := by
  induction acts generalizing d with
  | nil => exact h
  | cons act acts ih => exact ih (keys_nodup_step h act.1 act.2)

end Routing

/-! ## Each session on its own -/

section Alone

variable [DecidableEq κ] [Ord κ] [Std.TransOrd κ] [Keeper ν] {d d' : Desk κ ν (Table κ ν) n}

/-- An act has been answered as each session that hears of it would have answered alone, and has
done to each what it would have done to it alone. -/
structure Fits (visit : Visit) (d : Desk κ ν (Table κ ν) n) (act : Act κ ν n) (a : Answer ν)
    (d' : Desk κ ν (Table κ ν) n) : Prop where
  apart : d'.Apart
  told : ∀ i q, act.own i = some q →
    a = (q.outcome visit (d.session i).buffer (d.session i).below).1
  met : ∀ i q, act.own i = some q → d'.session i = q.left visit (d.session i)
  unmet : ∀ i, act.own i = none → d'.session i = d.session i

theorem Fits.sound {visit : Visit} {act : Act κ ν n} {a : Answer ν} (h : d.Fits visit act a d')
    (hs : ∀ i, (d.session i).buffer.Sound) (i : Fin n) : (d'.session i).buffer.Sound := by
  cases hown : act.own i with
  | none =>
    rw [h.unmet i hown]
    exact hs i
  | some q =>
    rw [h.met i q hown]
    exact q.sound_left visit (hs i)

theorem fits_ask (h : d.Apart) (env : Ambient) (i : Fin n) (q : Request κ ν) :
    d.Fits env.visit (.ask i q) (d.step env (.ask i q)).1 (d.step env (.ask i q)).2 := by
  have hown : ∀ j q', (Act.ask i q).own j = some q' → j = i ∧ q' = q.act := by
    intro j q' hq
    rw [Act.own] at hq
    split at hq
    · rename_i heq
      exact ⟨heq.symm, (Option.some.inj hq).symm⟩
    · exact absurd hq (by simp)
  have hid := Sharing.Act.name_left env.visit q.act (d.session i)
  obtain ⟨hresult, hstate⟩ :=
    onCache_yields h (Sharing.perform_yields (d.around (d.name i) i env) q.act (d.session i).buffer
      (d.session i).below)
  rw [step, perform_ask, hresult, hstate]
  refine { apart := h.settle hid, told := ?_, met := ?_, unmet := ?_ }
  · rintro j q' hq
    obtain ⟨rfl, rfl⟩ := hown j q' hq
    rfl
  · rintro j q' hq
    obtain ⟨rfl, rfl⟩ := hown j q' hq
    exact Apart.session_settle_self hid
  · intro j hj
    have hne : j ≠ i := by
      rintro rfl
      simp [Act.own] at hj
    exact h.session_settle_of_ne hid hne

/-- An end that finds nothing to do in a session that was never opened. -/
theorem fits_end (h : d.Apart) (env : Ambient) {act : Act κ ν n} {q : Sharing.Act κ ν}
    (hown : ∀ i, act.own i = some q) {x : Op (Session κ ν (Table κ ν)) Unit}
    (hact : (act.perform : Op (Desk κ ν (Table κ ν) n) (Answer ν)) = do
      onSeats x
      return .done)
    (hx : ∀ env' s, env'.visit = env.visit → x.Yields env' s () (q.left env.visit s))
    (hdone : ∀ b t, (q.outcome env.visit b t).1 = .done)
    (hempty : ∀ t, q.left env.visit ⟨{}, t⟩ = ⟨{}, t⟩) :
    d.Fits env.visit act (d.step env act).1 (d.step env act).2 := by
  obtain ⟨d', hyields, hapart, -, hsessions⟩ := onSeats_yields env h
    (fun i => q.left env.visit (d.session i))
    (fun i => Sharing.Act.name_left env.visit q (d.session i))
    fun i d₁ _ _ => hx _ (d.session i) rfl
  have hdesk : (onSeats x >>= fun _ => pure (Answer.done : Answer ν)).Yields env d .done d' :=
    hyields.bind (Op.yields_pure _)
  rw [step, hact, hdesk.result_eq, hdesk.state_eq]
  refine { apart := hapart, told := ?_, met := ?_, unmet := ?_ }
  · intro i q' hq
    rw [hown i] at hq
    cases hq
    exact (hdone _ _).symm
  · intro i q' hq
    rw [hown i] at hq
    cases hq
    rw [hsessions i]
    split
    · rfl
    · rename_i hnew
      rw [session_of_notin hnew, hempty]
  · intro i hi
    rw [hown i] at hi
    exact absurd hi (by simp)

variable [Std.LawfulEqOrd κ]

/-- What an act does, it does to each session as if it stood alone. -/
theorem fits_step (h : d.Apart) (env : Ambient) (act : Act κ ν n) :
    d.Fits env.visit act (d.step env act).1 (d.step env act).2 := by
  cases act with
  | ask i q => exact fits_ask h env i q
  | commit =>
    refine fits_end h env (fun _ => rfl) rfl ?_ (fun _ _ => rfl)
      fun t => (Sharing.Act.left_empty env.visit t).1
    intro env' s hvisit
    rw [← hvisit]
    exact Session.commit_yields
  | rollback =>
    refine fits_end h env (fun _ => rfl) rfl ?_ (fun _ _ => rfl)
      fun t => (Sharing.Act.left_empty env.visit t).2
    intro env' s hvisit
    rw [← hvisit]
    exact Session.rollback_yields

/-- A session of a unit of work is what it would be if it stood alone and only heard of what
concerns it, in whatever surroundings. -/
theorem session_run (h : d.Apart) (hs : ∀ i, (d.session i).buffer.Sound) (i : Fin n)
    (acts : List (Ambient × Act κ ν n)) {own : List (Ambient × Sharing.Act κ ν)}
    (hown : own.map Prod.snd = acts.filterMap fun act => act.2.own i) :
    (d.run acts).Apart ∧ (∀ j, ((d.run acts).session j).buffer.Sound) ∧
      (d.run acts).session i = alone (d.session i) own := by
  induction acts generalizing d own with
  | nil =>
    rw [List.map_eq_nil_iff.mp hown]
    exact ⟨h, hs, rfl⟩
  | cons act acts ih =>
    obtain ⟨env, act⟩ := act
    have hfits := fits_step h env act
    have hs' := hfits.sound hs
    cases hq : act.own i with
    | none =>
      simp only [List.filterMap_cons, hq] at hown
      obtain ⟨hapart, hsound, hsession⟩ := ih hfits.apart hs' hown
      rw [hfits.unmet i hq] at hsession
      exact ⟨hapart, hsound, hsession⟩
    | some q =>
      simp only [List.filterMap_cons, hq] at hown
      obtain ⟨⟨env', q'⟩, own, rfl, rfl, hrest⟩ := List.map_eq_cons_iff.mp hown
      obtain ⟨hapart, hsound, hsession⟩ := ih hfits.apart hs' hrest
      -- the session alone ends in an order of its own, to the same effect
      have hown := Sharing.perform_yields env' q' (d.session i).buffer (d.session i).below
      have hstep : (d.step env act).2.session i = (q'.perform env' (d.session i)).state := by
        rw [hfits.met i q' hq, Sharing.Act.left, q'.outcome_visit (hs i) _ env.visit env'.visit]
        exact hown.state_eq.symm
      rw [hstep] at hsession
      exact ⟨hapart, hsound, hsession⟩

end Alone

/-- **The product of its sessions.** Whatever the stores do, each name in a unit of work has one
session, over the cache that was first used under it: a request goes to this session, and no other
and no other store notices. If the stores are base stores with names of their own, each of them is
left, and what concerns it is answered, as by a session that stands alone, in whatever orders the
ends visit. -/
theorem product_of_sessions [DecidableEq κ] [Keeper ν] :
    (∀ (σ : Type) [Store σ κ ν] (shelf : Shelf σ n) (acts : List (Ambient × Act κ ν n)),
      let d := run ⟨[], shelf⟩ acts
      let given := handles ⟨[], shelf⟩ acts
      d.work.keys.Nodup ∧ (∀ nm, (d.work.get? nm).map Seat.store = given.get? nm) ∧
      ∀ env i q,
        let nm := d.name i
        let first := (given.get? nm).getD i
        let gathered := ((d.work.get? nm).map Seat.buffer).getD {}
        let o := (q.act.perform : Op (Session κ ν σ) (Answer ν)) (d.around nm first env)
          ⟨gathered, d.shelf.nth first⟩
        let d' := (d.step env (.ask i q)).2
        (d.step env (.ask i q)).1 = .of o.result ∧
        d'.work.get? nm = some ⟨first, o.state.buffer⟩ ∧ d'.shelf.nth first = o.state.below ∧
        (∀ nm', nm' ≠ nm → d'.work.get? nm' = d.work.get? nm') ∧
        ∀ j, j ≠ first → d'.shelf.nth j = d.shelf.nth j) ∧
    ∀ [Ord κ] [Std.TransOrd κ] [Std.LawfulEqOrd κ] (shelf : Shelf (Table κ ν) n),
      (∀ i j, (shelf.nth i).name = (shelf.nth j).name → i = j) →
      ∀ (acts : List (Ambient × Act κ ν n)) (i : Fin n) (own : List (Ambient × Sharing.Act κ ν)),
        own.map Prod.snd = acts.filterMap (fun act => act.2.own i) →
        let d := run ⟨[], shelf⟩ acts
        let s := alone ⟨{}, shelf.nth i⟩ own
        d.shelf.nth i = s.below ∧
        ∀ env env' act q, act.own i = some q →
          (d.step env act).1 = .of (q.perform env' s).result := by
  constructor
  · intro σ _ shelf acts d given
    have hnodup : d.work.keys.Nodup := keys_nodup_run (d := ⟨[], shelf⟩) List.nodup_nil acts
    have hstore : ∀ nm, (d.work.get? nm).map Seat.store = given.get? nm := fun nm =>
      (store_run ⟨[], shelf⟩ acts nm).trans (Option.none_or ..)
    refine ⟨hnodup, hstore, fun env i q => ?_⟩
    have hserving := serving_eq i d
    rw [hstore] at hserving
    have hstep := step_ask d env i q
    rw [hserving] at hstep
    dsimp only
    rw [hstep]
    refine ⟨rfl, ?_, Shelf.nth_put_self .., fun nm' hne => ?_, fun j hne => ?_⟩
    · exact (get?_settle ..).trans (if_pos rfl)
    · exact (get?_settle ..).trans (if_neg hne.symm)
    · exact Shelf.nth_put_of_ne _ _ hne
  · intro _ _ _ shelf hnames acts i own hown d s
    have hstart : ∀ j, (⟨[], shelf⟩ : Desk κ ν (Table κ ν) n).session j = ⟨{}, shelf.nth j⟩ :=
      fun _ => rfl
    obtain ⟨hapart, hsound, hsession⟩ := session_run (apart_start hnames)
      (fun j => (hstart j).symm ▸ Buffer.sound_empty) i acts hown
    refine ⟨congrArg Session.below hsession, fun env env' act q hq => ?_⟩
    have htold := (fits_step hapart env act).told i q hq
    rw [q.outcome_visit (hsound i) _ env.visit env'.visit] at htold
    have halone := Sharing.perform_yields env' q (d.session i).buffer (d.session i).below
    rw [htold, show s = d.session i from hsession.symm, halone.result_eq]
    rfl

/-- The second of two caches is read, and cleared after a commit; all that the first hears of is its
write and the commit. -/
theorem write_beside_clear :
    let a : Value := ⟨0, "a"⟩
    let shelf : Shelf (Table Nat Value) 2 := #v[Table.named "users", Table.named "orders"]
    let acts : List (Ambient × Act Nat Value 2) :=
      [.ask 0 (.write 1 a), .ask 1 (.read 1), .commit, .ask 1 .clear].map (Ambient.alone, ·)
    let own : List (Ambient × Sharing.Act Nat Value) :=
      [.write 1 a, .commit].map (Ambient.alone, ·)
    (∀ i j, (shelf.nth i).name = (shelf.nth j).name → i = j) ∧
      own.map Prod.snd = acts.filterMap (fun act => act.2.own 0) ∧
      ((run ⟨[], shelf⟩ acts).shelf.nth 0).value? 1 = some a ∧
      ((run ⟨[], shelf⟩ acts).step .alone (.ask 0 (.read 1))).1 = .found (some a) := by
  intro a shelf acts own
  have hnames : ∀ i j, (shelf.nth i).name = (shelf.nth j).name → i = j := by decide
  obtain ⟨hstore, hanswer⟩ := (product_of_sessions (κ := Nat) (ν := Value) (n := 2)).2 shelf hnames
    acts 0 own rfl
  refine ⟨hnames, rfl, ?_, ?_⟩
  · rw [hstore]
    rfl
  · rw [hanswer .alone .alone (.ask 0 (.read 1)) (.read 1) rfl]
    rfl

end Desk

end UnitOfWork

end SoftTier
