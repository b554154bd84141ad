import SoftTier.Proofs.UnitOfWork.Product

/-!
# Trying a unit of work again

A unit of work ends its sessions one after the other, and stops at the first that fails. Those
before it have ended and have nothing left to do, it has kept what it had gathered, and those after
it have not been asked. So the whole can be tried again: what has been published is not touched any
more, and the attempt that succeeds leaves every store as a single attempt would have left it.

- `Desk.Asked`: what is left when sessions are asked for something that may fail.
- `Desk.onSeats_asked`: an end leaves that.
- `Desk.Valid`: what holds of a unit of work over stores that may fail, after any acts.
- `Session.Retried`: a session that was asked to commit, any number of times.
- `Desk.retried_commit_publishes_once`: a commit that is tried again until it succeeds.
-/

namespace SoftTier

/-- In some surroundings with this order of visiting, the operation has come to this. -/
def Op.Did {σ α : Type} (x : Op σ α) (visit : Visit) (s : σ) (r : Except Failure α) (s' : σ) :
    Prop :=
  ∃ env : Ambient, env.visit = visit ∧ (x env s).result = r ∧ (x env s).state = s'

namespace UnitOfWork

namespace Desk

/-! ## Sessions that are asked one after the other -/

section Asked

variable {κ ν σ α : Type} {n : Nat} [Store σ κ ν]

/-- The sessions with these names were asked for something one after the other, up to the first that
failed. Those before it have done it, and those after it are as they were. -/
structure Asked (x : Op (Session κ ν σ) Unit) (visit : Visit) (names : List String)
    (d : Desk κ ν σ n) (r : Except Failure Unit) (d' : Desk κ ν σ n) : Prop where
  apart : d'.Apart
  name_eq : ∀ i, d'.name i = d.name i
  unasked : ∀ i, d.name i ∉ names → d'.session i = d.session i
  done : r = .ok () → ∀ i, d.name i ∈ names → x.Did visit (d.session i) (.ok ()) (d'.session i)
  failed : ∀ e, r = .error e → ∃ i, d.name i ∈ names ∧
    x.Did visit (d.session i) (.error e) (d'.session i) ∧
    ∀ j, j ≠ i → d'.session j = d.session j ∨ x.Did visit (d.session j) (.ok ()) (d'.session j)

variable {x : Op (Session κ ν σ) Unit} {visit : Visit} {names names' : List String}
  {d d' : Desk κ ν σ n} {r : Except Failure Unit}

theorem Asked.of_mem_iff (h : Asked x visit names d r d')
    (hnames : ∀ nm, nm ∈ names ↔ nm ∈ names') : Asked x visit names' d r d' where
  apart := h.apart
  name_eq := h.name_eq
  unasked i hi := h.unasked i fun hmem => hi ((hnames _).mp hmem)
  done hr i hi := h.done hr i ((hnames _).mpr hi)
  failed e he := by
    obtain ⟨i, hi, hdid, hothers⟩ := h.failed e he
    exact ⟨i, (hnames _).mp hi, hdid, hothers⟩

/-- Each session has been asked once at most. -/
theorem Asked.each (h : Asked x visit names d r d') (i : Fin n) :
    d'.session i = d.session i ∨ ∃ r', x.Did visit (d.session i) r' (d'.session i) := by
  cases r with
  | ok u =>
    by_cases hi : d.name i ∈ names
    · exact .inr ⟨_, h.done rfl i hi⟩
    · exact .inl (h.unasked i hi)
  | error e =>
    obtain ⟨j, -, hdid, hothers⟩ := h.failed e rfl
    by_cases hij : i = j
    · subst hij
      exact .inr ⟨_, hdid⟩
    · exact (hothers i hij).imp_right fun hok => ⟨_, hok⟩

/-- When the first session has done what it was asked, the others are asked. -/
theorem Asked.cons (h : d.Apart) {i : Fin n} {s : Session κ ν σ}
    (hid : Store.id s.below = d.name i) (hdid : x.Did visit (d.session i) (.ok ()) s)
    (hi : d.name i ∉ names) (hrest : Asked x visit names (d.settle (d.name i) i s) r d') :
    Asked x visit (d.name i :: names) d r d' := by
  have hnames := fun j => Apart.name_settle (d := d) hid (d.name i) j
  -- the session that was asked first is not asked again
  have hfirst : d'.session i = s := by
    rw [hrest.unasked i (hnames i ▸ hi), Apart.session_settle_self hid]
  have hother : ∀ j, j ≠ i → (d.settle (d.name i) i s).session j = d.session j := fun j hj =>
    h.session_settle_of_ne hid hj
  have hne : ∀ j, d.name j ∈ names → j ≠ i := by
    rintro j hj rfl
    exact hi hj
  refine { apart := hrest.apart, name_eq := fun j => (hrest.name_eq j).trans (hnames j),
           unasked := fun j hj => ?_, done := fun hr j hj => ?_, failed := fun e he => ?_ }
  · have hji : j ≠ i := by
      rintro rfl
      exact hj List.mem_cons_self
    rw [hrest.unasked j fun hmem => hj (List.mem_cons_of_mem _ (hnames j ▸ hmem)), hother j hji]
  · by_cases hji : j = i
    · subst hji
      rw [hfirst]
      exact hdid
    · have hmem : d.name j ∈ names :=
        (List.mem_cons.mp hj).resolve_left fun heq => hji (h.name_inj j i heq)
      rw [← hother j hji]
      exact hrest.done hr j ((hnames j).symm ▸ hmem)
  · obtain ⟨j, hj, hfails, hothers⟩ := hrest.failed e he
    rw [hnames j] at hj
    rw [hother j (hne j hj)] at hfails
    refine ⟨j, List.mem_cons_of_mem _ hj, hfails, fun k hk => ?_⟩
    by_cases hki : k = i
    · subst hki
      rw [hfirst]
      exact .inr hdid
    · rw [← hother k hki]
      exact hothers k hk

variable [Keeper ν]

/-- A session that has been opened is asked. -/
theorem onSeat_leaves (h : d.Apart) {i : Fin n} (hi : d.name i ∈ d.work.keys) (given : Seat κ ν n)
    (x : Op (Session κ ν σ) α) (env : Ambient) :
    (onSeat (d.name i) given x).Leaves env d fun r d' =>
      ∃ s, x.Did env.visit (d.session i) r s ∧ d' = d.settle (d.name i) i s := by
  obtain ⟨hresult, hstate⟩ := onSeat_eq (d.name i) given x env d
  rw [h.getD_of_open hi given] at hresult hstate
  exact ⟨_, ⟨d.around (d.name i) i env, rfl, hresult.symm, rfl⟩, hstate⟩

/-- Sessions that have been opened are asked one after the other. -/
theorem each_onSeat_asked (hid : ∀ env s, Store.id (x env s).state.below = Store.id s.below)
    (env : Ambient) (l : UnitOfWork κ ν n) (hl : l.keys.Nodup) (h : d.Apart)
    (hmem : ∀ nm ∈ l.keys, nm ∈ d.work.keys) :
    (Op.each (fun e => onSeat e.1 e.2 x) l).Leaves env d (Asked x env.visit l.keys d) := by
  -- along the sessions still to be asked
  induction l generalizing d with
  | nil =>
    refine (Op.yields_pure ()).leaves ?_
    exact { apart := h, name_eq := fun _ => rfl, unasked := fun _ _ => rfl,
            done := fun _ _ hi => absurd hi List.not_mem_nil, failed := nofun }
  | cons e l ih =>
    obtain ⟨nm, given⟩ := e
    have hcut : nm ∉ Assoc.keys l ∧ (Assoc.keys l).Nodup := List.nodup_cons.mp hl
    obtain ⟨hnm, hrest⟩ := hcut
    have hopen := hmem nm List.mem_cons_self
    obtain ⟨i, rfl⟩ := h.exists_name hopen
    have hkeeps : ∀ {r s}, x.Did env.visit (d.session i) r s → Store.id s.below = d.name i := by
      rintro r s ⟨env', -, -, rfl⟩
      exact hid env' (d.session i)
    rw [Op.each_cons]
    refine (onSeat_leaves h hopen given x env).bind ?_ ?_
    · rintro ⟨⟩ d₁ ⟨s, hdid, rfl⟩
      refine (ih hrest (h.settle (hkeeps hdid)) fun nm' hnm' =>
        mem_keys_settle (hmem nm' (List.mem_cons_of_mem _ hnm'))).imp ?_
      exact fun r d' hasked => hasked.cons h (hkeeps hdid) hdid hnm
    · rintro e d₁ ⟨s, hdid, rfl⟩
      have hother : ∀ j, j ≠ i → (d.settle (d.name i) i s).session j = d.session j := fun j hj =>
        h.session_settle_of_ne (hkeeps hdid) hj
      refine { apart := h.settle (hkeeps hdid), name_eq := Apart.name_settle (hkeeps hdid) _,
               unasked := fun j hj => hother j ?_, done := nofun, failed := fun e' he' => ?_ }
      · rintro rfl
        exact hj List.mem_cons_self
      · cases he'
        refine ⟨i, List.mem_cons_self, ?_, fun j hj => .inl (hother j hj)⟩
        rw [Apart.session_settle_self (hkeeps hdid)]
        exact hdid

/-- An end asks every session that has been opened, up to the first that fails. -/
theorem onSeats_asked (hid : ∀ env s, Store.id (x env s).state.below = Store.id s.below)
    (env : Ambient) (h : d.Apart) :
    (onSeats x).Leaves env d (Asked x env.visit d.work.keys d) := by
  have hperm := (env.visit.arrange_perm d.work).map Prod.fst
  have hkeys : ∀ nm, nm ∈ Assoc.keys (env.visit.arrange d.work) ↔ nm ∈ d.work.keys :=
    fun _ => hperm.mem_iff
  refine (Op.yields_read _).bind_leaves ((Op.yields_visiting _).bind_leaves ?_)
  refine (each_onSeat_asked hid env _ (hperm.nodup_iff.mpr h.keys_nodup) h
    fun nm hnm => (hkeys nm).mp hnm).imp ?_
  exact fun r d' hasked => hasked.of_mem_iff hkeys

end Asked

end Desk

end UnitOfWork

/-! ## Sessions that are asked to commit again -/

variable {κ ν : Type} [DecidableEq κ] [Ord κ] [Std.TransOrd κ]

namespace Session

variable [Keeper ν]

theorem id_commit (env : Ambient) (s : Session κ ν (Probe κ ν)) :
    Store.id (commit env s).state.below = Store.id s.below := by
  obtain ⟨-, hbelow, -⟩ : Op.Leaves _ _ _ _ := commit_leaves env s.buffer s.below
  show (commit env s).state.below.table.name = s.below.table.name
  rw [hbelow, Probe.name_change, Probe.name_change]

theorem id_rollback (env : Ambient) (s : Session κ ν (Probe κ ν)) :
    Store.id (rollback env s).state.below = Store.id s.below := by
  obtain ⟨hfreed, -⟩ : Op.Leaves _ _ _ _ := rollback_leaves env s.buffer s.below
  have hbelow : (rollback env s).state.below = (s.below.change _).2 := congrArg Prod.snd hfreed
  show (rollback env s).state.below.table.name = s.below.table.name
  rw [hbelow, Probe.name_change]

theorem sound_commit (env : Ambient) {s : Session κ ν (Probe κ ν)} (hs : s.buffer.Sound) :
    (commit env s).state.buffer.Sound := by
  obtain ⟨-, -, hbuffer⟩ : Op.Leaves _ _ _ _ := commit_leaves env s.buffer s.below
  show (commit env ⟨s.buffer, s.below⟩).state.buffer.Sound
  rw [hbuffer]
  split
  · exact Buffer.sound_empty
  · exact hs

theorem sound_rollback (env : Ambient) {s : Session κ ν (Probe κ ν)} (hs : s.buffer.Sound) :
    (rollback env s).state.buffer.Sound := by
  obtain ⟨-, hbuffer⟩ : Op.Leaves _ _ _ _ := rollback_leaves env s.buffer s.below
  show (rollback env ⟨s.buffer, s.below⟩).state.buffer.Sound
  rw [hbuffer]
  split
  · exact Buffer.sound_empty
  · exact hs

/-- A session that has gathered nothing has nothing to commit. -/
theorem commit_yields_clean (env : Ambient) (p : Probe κ ν) :
    (commit : Op (Session κ ν (Probe κ ν)) Unit).Yields env ⟨{}, p⟩ () ⟨{}, p⟩ := by
  have hpublishing : ({} : Buffer κ ν).publishing env.visit = [] := by
    rw [Buffer.publishing, Visit.arrange_nil]
    rfl
  have hfreeing : ({} : Buffer κ ν).freeing env.visit = [] := by
    rw [Buffer.freeing, Visit.arrange_nil]
    rfl
  obtain ⟨hresult, hbelow, hbuffer⟩ : Op.Leaves _ _ _ _ := commit_leaves env {} p
  rw [hpublishing, hfreeing] at hresult hbelow
  rw [ite_self] at hbuffer
  exact ⟨hresult, congrArg₂ Session.mk hbuffer hbelow⟩

/-- A session that was asked to commit, any number of times: either it has failed each time, or it
has published what it had gathered. -/
inductive Retried (s : Session κ ν (Probe κ ν)) : Session κ ν (Probe κ ν) → Prop
  | waiting {s' : Session κ ν (Probe κ ν)} (h : Relation.ReflTransGen FailedEnd s s') : Retried s s'
  | published {s' : Session κ ν (Probe κ ν)} (hbuffer : s'.buffer = {})
    (htable : s'.below.table = s.buffer.published .asListed s.below.table) : Retried s s'

namespace Retried

variable [Std.LawfulEqOrd κ] {s s' : Session κ ν (Probe κ ν)} {env : Ambient}

theorem commit_of_ok (hs : s.buffer.Sound) (h : Retried s s')
    (hok : (commit env s').result = .ok ()) : (commit env s').state.buffer = {} ∧
      (commit env s').state.below.table = s.buffer.published .asListed s.below.table := by
  cases h with
  | waiting h =>
    obtain ⟨hbuffer, hspares⟩ := spares_of_failedEnds h
    obtain ⟨b, p⟩ := s'
    obtain rfl : b = s.buffer := hbuffer
    obtain ⟨hended, htable⟩ := Session.commit_of_ok hok
    exact ⟨hended, htable.trans (Buffer.published_eq_of_spares hs hspares ..)⟩
  | published hbuffer htable =>
    obtain ⟨b, p⟩ := s'
    obtain rfl : b = {} := hbuffer
    rw [(commit_yields_clean env p).state_eq]
    exact ⟨rfl, htable⟩

theorem commit (hs : s.buffer.Sound) (h : Retried s s') :
    Retried s (Session.commit env s').state := by
  cases hresult : (Session.commit env s').result with
  | ok u =>
    obtain ⟨hbuffer, htable⟩ := h.commit_of_ok hs hresult
    exact .published hbuffer htable
  | error e =>
    cases h with
    | waiting h => exact .waiting (h.tail (.commit env s' e hresult))
    | published hbuffer htable =>
      obtain ⟨b, p⟩ := s'
      obtain rfl : b = {} := hbuffer
      rw [(commit_yields_clean env p).result_eq] at hresult
      exact absurd hresult nofun

end Retried

end Session

/-! ## Units of work over stores that may fail -/

namespace Sharing

variable [Keeper ν]

/-- An act leaves no key gathered twice, and the store its name. -/
theorem Act.perform_valid (act : Act κ ν) (env : Ambient) {s : Session κ ν (Probe κ ν)}
    (hs : s.buffer.Sound) :
    (act.perform : Op (Session κ ν (Probe κ ν)) (Answer ν)).Leaves env s fun _ s' =>
      s'.buffer.Sound ∧ Store.id s'.below = Store.id s.below := by
  cases act with
  | write k a =>
    refine (Session.note_yields _).bind_leaves ((Op.yields_pure _).leaves ?_)
    exact ⟨hs.put k (some a), rfl⟩
  | writeMiss k =>
    refine (Session.note_yields _).bind_leaves ((Op.yields_pure _).leaves ?_)
    exact ⟨hs.put k none, rfl⟩
  | erase k =>
    refine (Op.yields_pure none).bind_leaves ((Op.yields_pure _).leaves ?_)
    exact ⟨hs, rfl⟩
  | clear =>
    refine (Session.note_yields _).bind_leaves ((Op.yields_pure _).leaves ?_)
    exact ⟨hs.wipe, rfl⟩
  | size =>
    have hsize : Op.Leaves (Store.size : Op (Probe κ ν) Nat) (env.also s.buffer) s.below
        fun _ p' => Store.id p' = Store.id s.below :=
      Probe.size_answers.leaves (fun _ _ => rfl) fun _ => rfl
    refine Op.Leaves.then_pure ((Session.onBelow_leaves hsize).imp ?_) _
    rintro r s' ⟨hbuffer, hid⟩
    exact ⟨hbuffer ▸ hs, hid⟩
  | read k =>
    have hread : Op.Leaves (Store.read k : Op (Probe κ ν) (Option ν)) (env.also s.buffer) s.below
        fun _ p' => Store.id p' = Store.id s.below :=
      (Probe.read_answers k).leaves (fun _ _ => rfl) fun _ =>
        congrArg Table.name (Probe.table_searched k _)
    refine Op.Leaves.then_pure ((Session.read_leaves_of hread).imp ?_) _
    rintro r s' ⟨found, hid, hbuffer⟩
    refine ⟨?_, hid⟩
    rw [hbuffer]
    split
    · exact hs.miss k
    · exact hs
  | commit =>
    have hcommit : (Session.commit : Op (Session κ ν (Probe κ ν)) Unit).Leaves env s fun _ s' =>
        s'.buffer.Sound ∧ Store.id s'.below = Store.id s.below :=
      ⟨Session.sound_commit env hs, Session.id_commit env s⟩
    exact hcommit.then_pure _
  | rollback =>
    have hrollback : (Session.rollback : Op (Session κ ν (Probe κ ν)) Unit).Leaves env s fun _ s' =>
        s'.buffer.Sound ∧ Store.id s'.below = Store.id s.below :=
      ⟨Session.sound_rollback env hs, Session.id_rollback env s⟩
    exact hrollback.then_pure _

end Sharing

namespace UnitOfWork

namespace Desk

open Sharing (Answer)

variable {n : Nat} [Keeper ν] {d d' : Desk κ ν (Probe κ ν) n}

/-- Caches are apart, and no session has gathered a key twice. -/
structure Valid (d : Desk κ ν (Probe κ ν) n) : Prop where
  apart : d.Apart
  sound : ∀ i, (d.session i).buffer.Sound

theorem valid_start {shelf : Shelf (Probe κ ν) n}
    (hnames : ∀ i j, Store.id (shelf.nth i) = Store.id (shelf.nth j) → i = j) :
    (⟨[], shelf⟩ : Desk κ ν (Probe κ ν) n).Valid :=
  ⟨apart_start hnames, fun _ => Buffer.sound_empty⟩

/-- An end of all sessions leaves a unit of work valid, whatever fails. -/
theorem Asked.valid {x : Op (Session κ ν (Probe κ ν)) Unit} {visit : Visit} {names : List String}
    {r : Except Failure Unit} (h : Asked x visit names d r d') (hd : d.Valid)
    (hx : ∀ env (s : Session κ ν (Probe κ ν)), s.buffer.Sound → (x env s).state.buffer.Sound) :
    d'.Valid := by
  refine ⟨h.apart, fun i => ?_⟩
  rcases h.each i with hsame | ⟨r', env, -, -, hstate⟩
  · rw [hsame]
    exact hd.sound i
  · rw [← hstate]
    exact hx env _ (hd.sound i)

theorem Valid.step (h : d.Valid) (env : Ambient) (act : Act κ ν n) : (d.step env act).2.Valid := by
  have hend : ∀ x : Op (Session κ ν (Probe κ ν)) Unit,
      (∀ env s, Store.id (x env s).state.below = Store.id s.below) →
      (∀ env (s : Session κ ν (Probe κ ν)), s.buffer.Sound → (x env s).state.buffer.Sound) →
      (onSeats x >>= fun _ => pure (Answer.done : Answer ν)).Leaves env d fun _ d' => d'.Valid :=
    fun x hid hx =>
      ((onSeats_asked hid env h.apart).imp fun _ _ hasked => hasked.valid h hx).then_pure _
  cases act with
  | ask i q =>
    have hvalid : Op.Leaves _ _ _ _ := q.act.perform_valid (d.around (d.name i) i env) (h.sound i)
    obtain ⟨hsound, hid⟩ := hvalid
    have hstep : (d.step env (.ask i q)).2 = d.settle (d.name i) i
        (q.act.perform (d.around (d.name i) i env) (d.session i)).state := by
      rw [step_ask, h.apart.serving_eq i]
      rfl
    rw [hstep]
    refine ⟨h.apart.settle hid, fun j => ?_⟩
    by_cases hj : j = i
    · subst hj
      rw [Apart.session_settle_self hid]
      exact hsound
    · rw [h.apart.session_settle_of_ne hid hj]
      exact h.sound j
  | commit => exact hend Session.commit Session.id_commit fun env _ => Session.sound_commit env
  | rollback =>
    exact hend Session.rollback Session.id_rollback fun env _ => Session.sound_rollback env

theorem Valid.run (h : d.Valid) (acts : List (Ambient × Act κ ν n)) : (d.run acts).Valid := by
  induction acts generalizing d with
  | nil => exact h
  | cons act acts ih => exact ih (h.step act.1 act.2)

/-! ## Trying again -/

/-- The second unit of work is the first after a commit that failed. -/
inductive FailedCommit : Desk κ ν (Probe κ ν) n → Desk κ ν (Probe κ ν) n → Prop
  | mk (env : Ambient) (d : Desk κ ν (Probe κ ν) n) (e : Failure)
      (h : (Desk.commit env d).result = .error e) : FailedCommit d (Desk.commit env d).state

namespace Valid

/-- A commit asks the sessions that have been opened to commit. -/
theorem commit_asked (h : d.Valid) (env : Ambient) :
    Asked Session.commit env.visit d.work.keys d (Desk.commit env d).result
      (Desk.commit env d).state :=
  onSeats_asked Session.id_commit env h.apart

theorem commit (h : d.Valid) (env : Ambient) : (Desk.commit env d).state.Valid :=
  (h.commit_asked env).valid h fun env _ => Session.sound_commit env

/-- A commit does not ask anything of a store that has nothing waiting for it. -/
theorem commit_clean (h : d.Valid) (env : Ambient) {i : Fin n}
    (hclean : (d.session i).buffer = {}) : (Desk.commit env d).state.session i = d.session i := by
  rcases (h.commit_asked env).each i with hsame | ⟨r, env', -, -, hstate⟩
  · exact hsame
  · rw [← hstate]
    generalize d.session i = s at hclean
    obtain ⟨b, p⟩ := s
    obtain rfl : b = {} := hclean
    exact (Session.commit_yields_clean env' p).state_eq

/-- A commit that succeeds has committed every session; one that was not opened has nothing to
commit. -/
theorem commit_did (h : d.Valid) {env : Ambient} (hok : (Desk.commit env d).result = .ok ())
    (i : Fin n) :
    Session.commit.Did env.visit (d.session i) (.ok ()) ((Desk.commit env d).state.session i) := by
  by_cases hi : d.name i ∈ d.work.keys
  · exact (h.commit_asked env).done hok i hi
  · rw [(h.commit_asked env).unasked i hi, session_of_notin hi]
    obtain ⟨hresult, hstate⟩ := Session.commit_yields_clean env (d.shelf.nth i)
    exact ⟨env, rfl, hresult, hstate⟩

/-- A commit over stores that do not fail succeeds. -/
theorem commit_ok (h : d.Valid) (env : Ambient)
    (hnever : ∀ i count c, (d.shelf.nth i).faults count c = none) :
    (Desk.commit env d).result = .ok () := by
  cases hresult : (Desk.commit env d).result with
  | ok u => rfl
  | error e =>
    obtain ⟨i, -, ⟨env', -, hfails, -⟩, -⟩ := (h.commit_asked env).failed e hresult
    obtain ⟨hmade, -⟩ : Op.Leaves _ _ _ _ :=
      Session.commit_leaves env' (d.session i).buffer (d.shelf.nth i)
    have hok : (Session.commit env' (d.session i)).result = .ok () :=
      hmade.trans (Probe.change_ok _ (hnever i))
    exact absurd (hfails.symm.trans hok) nofun

/-- With other stores of the same content. -/
theorem of_same_tables (h : d.Valid) (hwork : d'.work = d.work)
    (htables : ∀ i, (d'.shelf.nth i).table = (d.shelf.nth i).table) :
    d'.Valid ∧ ∀ i, (d'.session i).buffer = (d.session i).buffer := by
  have hname : ∀ i, d'.name i = d.name i := fun i => congrArg Table.name (htables i)
  have hbuffer : ∀ i, (d'.session i).buffer = (d.session i).buffer := fun i => by
    rw [session, session, hname, hwork]
  refine ⟨⟨⟨fun i j hij => ?_, hwork ▸ h.apart.keys_nodup, fun e he => ?_⟩, fun i => ?_⟩, hbuffer⟩
  · rw [hname, hname] at hij
    exact h.apart.name_inj i j hij
  · rw [hname]
    exact h.apart.named e (hwork ▸ he)
  · rw [hbuffer]
    exact h.sound i

variable [Std.LawfulEqOrd κ]

/-- Along commits that fail, every session has been asked to commit, any number of times. -/
theorem retried (h : d.Valid) (hd : Relation.ReflTransGen FailedCommit d d') :
    d'.Valid ∧ ∀ i, (d.session i).Retried (d'.session i) := by
  induction hd with
  | refl => exact ⟨h, fun i => .waiting .refl⟩
  | tail _ hlast ih =>
    obtain ⟨hvalid, hretried⟩ := ih
    obtain ⟨env, d₁, e, he⟩ := hlast
    refine ⟨hvalid.commit env, fun i => ?_⟩
    rcases (hvalid.commit_asked env).each i with hsame | ⟨r, env', -, -, hstate⟩
    · rw [hsame]
      exact hretried i
    · rw [← hstate]
      exact (hretried i).commit (h.sound i)

/-- A commit that succeeds at last has published every session. -/
theorem commit_of_ok (h : d.Valid) (hd : Relation.ReflTransGen FailedCommit d d') {env : Ambient}
    (hok : (Desk.commit env d').result = .ok ()) (i : Fin n) :
    ((Desk.commit env d').state.session i).buffer = {} ∧
      ((Desk.commit env d').state.shelf.nth i).table =
        (d.session i).buffer.published .asListed (d.shelf.nth i).table := by
  obtain ⟨hvalid, hretried⟩ := h.retried hd
  obtain ⟨env', -, hresult, hstate⟩ := hvalid.commit_did hok i
  have hshelf : (Desk.commit env d').state.shelf.nth i =
      (Session.commit env' (d'.session i)).state.below := congrArg Session.below hstate.symm
  rw [hshelf, ← hstate]
  exact (hretried i).commit_of_ok (h.sound i) hresult

end Valid

/-- **A commit that fails part way can be tried again, and publishes nothing twice.** Over stores of
which any call may fail, and in whatever order sessions and entries are visited, a commit that fails
leaves one session that has kept what it had gathered; each of the others is either as it was, its
store included, or it is published and has nothing left to do. So it is after any number of
failures. A further commit asks nothing of a store whose session is published. It succeeds if no
store fails any more; and when it succeeds, every session has ended, and every store is left as a
single commit that succeeds would have left it. -/
theorem retried_commit_publishes_once [Std.LawfulEqOrd κ] (h : d.Valid) :
    (∀ env e, (commit env d).result = .error e →
      let d₁ := (commit env d).state
      ∃ i, (d₁.session i).buffer = (d.session i).buffer ∧
        ∀ j, j ≠ i → d₁.session j = d.session j ∨ (d₁.session j).buffer = {} ∧
          (d₁.shelf.nth j).table = (d.session j).buffer.published env.visit (d.shelf.nth j).table) ∧
    ∀ d₁, Relation.ReflTransGen FailedCommit d d₁ →
      (∀ i, (d₁.session i).buffer = (d.session i).buffer ∨ (d₁.session i).buffer = {} ∧
        (d₁.shelf.nth i).table = (d.session i).buffer.published .asListed (d.shelf.nth i).table) ∧
      ∀ env,
        let d₂ := (commit env d₁).state
        (∀ i, (d₁.session i).buffer = {} → d₂.session i = d₁.session i) ∧
        ((∀ i count c, (d₁.shelf.nth i).faults count c = none) → (commit env d₁).result = .ok ()) ∧
        ((commit env d₁).result = .ok () → (∀ i, (d₂.session i).buffer = {}) ∧
          ∀ env' (d₀ : Desk κ ν (Probe κ ν) n), d₀.work = d.work →
            (∀ i, (d₀.shelf.nth i).table = (d.shelf.nth i).table) →
            (commit env' d₀).result = .ok () →
            ∀ i, (d₂.shelf.nth i).table = ((commit env' d₀).state.shelf.nth i).table) := by
  refine ⟨fun env e he => ?_, fun d₁ hd => ?_⟩
  · -- a commit that fails
    intro d₁
    obtain ⟨i, -, ⟨env', -, hfails, hstate⟩, hothers⟩ := (h.commit_asked env).failed e he
    have hend : Session.FailedEnd (d.session i) (d₁.session i) :=
      hstate ▸ .commit env' (d.session i) e hfails
    refine ⟨i, hend.spares.1, fun j hj => (hothers j hj).imp_right ?_⟩
    rintro ⟨env'', hvisit, hresult, hstate'⟩
    have hshelf : d₁.shelf.nth j = (Session.commit env'' (d.session j)).state.below :=
      congrArg Session.below hstate'.symm
    rw [hshelf, ← hstate', ← hvisit]
    exact Session.commit_of_ok hresult
  · obtain ⟨hvalid, hretried⟩ := h.retried hd
    refine ⟨fun i => ?_, fun env => ⟨fun i hclean => hvalid.commit_clean env hclean,
      hvalid.commit_ok env, fun hok => ⟨fun i => (h.commit_of_ok hd hok i).1, ?_⟩⟩⟩
    · -- after any number of failures
      cases hretried i with
      | waiting hends => exact .inl (Session.spares_of_failedEnds hends).1
      | published hbuffer htable => exact .inr ⟨hbuffer, htable⟩
    · -- the commit that succeeds at last
      intro env' d₀ hwork htables hok' i
      obtain ⟨hvalid₀, hbuffer⟩ := h.of_same_tables hwork htables
      rw [(h.commit_of_ok hd hok i).2, (hvalid₀.commit_of_ok .refl hok' i).2, hbuffer, htables]

/-- Two caches are written to, and the first call on the second of them fails. The commit has
published the first cache then; tried again, it leaves it alone and publishes the second. -/
theorem second_commit_publishes_rest :
    let a : Value := ⟨0, "a"⟩
    let faults : Faults Nat := fun count _ => if count = 0 then some (.backend "down") else none
    let users : Probe Nat Value := ⟨Table.named "users", false, false, Faults.never, [], [], 0⟩
    let orders : Probe Nat Value := ⟨Table.named "orders", false, false, faults, [], [], 0⟩
    let shelf : Shelf (Probe Nat Value) 2 := #v[users, orders]
    let d : Desk Nat Value (Probe Nat Value) 2 := run ⟨[], shelf⟩
      ([.ask 0 (.write 1 a), .ask 1 .clear, .ask 1 (.write 2 a)].map (Ambient.alone, ·))
    let d₁ := (commit .alone d).state
    let d₂ := (commit .alone d₁).state
    d.Valid ∧ (commit .alone d).result = .error (.backend "down") ∧
      (d₁.session 0).buffer = {} ∧ (d₁.session 1).buffer = (d.session 1).buffer ∧
      (commit .alone d₁).result = .ok () ∧ d₂.session 0 = d₁.session 0 ∧
      ∀ i, (d₂.shelf.nth i).table = ((commit .alone
        { d with shelf := #v[users, { orders with faults := Faults.never }] }).state.shelf.nth
          i).table := by
  intro a faults users orders shelf d d₁ d₂
  have hnames : ∀ i j, Store.id (shelf.nth i) = Store.id (shelf.nth j) → i = j := by decide
  have h : d.Valid := (valid_start hnames).run _
  have hfails : (commit .alone d).result = .error (.backend "down") := by decide +kernel
  have hok : (commit .alone d₁).result = .ok () := by decide +kernel
  have hdirty : (d.session 0).buffer.isDirty = true ∧ (d₁.session 0).buffer.isDirty = false ∧
      (d₁.session 1).buffer.isDirty = true := by decide +kernel
  obtain ⟨hdirty, hended, hwaits⟩ := hdirty
  obtain ⟨-, hretried⟩ := retried_commit_publishes_once h
  obtain ⟨heach, hcommit⟩ := hretried d₁ (.single (.mk .alone d _ hfails))
  obtain ⟨hsame, -, hends⟩ := hcommit .alone
  have hclean : (d₁.session 0).buffer = {} := by
    rcases heach 0 with hkept | ⟨hclean, -⟩
    · rw [hkept, hdirty] at hended
      exact absurd hended nofun
    · exact hclean
  have hkept : (d₁.session 1).buffer = (d.session 1).buffer := by
    rcases heach 1 with hkept | ⟨hclean, -⟩
    · exact hkept
    · rw [hclean] at hwaits
      exact absurd hwaits nofun
  refine ⟨h, hfails, hclean, hkept, hok, hsame 0 hclean, (hends hok).2 .alone _ rfl ?_ ?_⟩
  · exact Fin.forall_fin_two.mpr ⟨rfl, rfl⟩
  · decide +kernel

end Desk

end UnitOfWork

end SoftTier
