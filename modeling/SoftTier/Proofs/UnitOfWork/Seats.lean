import SoftTier.Proofs.Assoc
import SoftTier.Proofs.Op
import SoftTier.UnitOfWork

/-!
# Which session serves a cache

A request for a cache goes to the session that has the name of the cache, or to a new one over the
cache if no session has that name yet. As long as caches have names of their own, each of them has
its own session; what a request does to it is what it would do to that session on its own, and the
sessions of the other caches never notice.

- `Desk.serving`, `Desk.onCache_eq`: the session that serves a cache, and what becomes of it.
- `Desk.Apart`: caches have names of their own, and each session stands over the cache of its name.
- `Desk.session`: a cache with the session that is its own.
- `Desk.onCache_yields`: a request, told from what it does to the session of its cache.
- `Desk.onSeats_yields`: an end, told from what it does to each session.
-/

namespace SoftTier

namespace UnitOfWork

namespace Desk

variable {κ ν σ α β : Type} {n : Nat}

/-- The desk when the session with this name has been left as `s`. -/
def settle (name : String) (i : Fin n) (s : Session κ ν σ) (d : Desk κ ν σ n) : Desk κ ν σ n :=
  ⟨d.work.insert name ⟨i, s.buffer⟩, d.shelf.put i s.below⟩

/-- Leaving a session as it may be does not move it. -/
theorem get?_settle (nm nm' : String) (i : Fin n) (s : Session κ ν σ) (d : Desk κ ν σ n) :
    (d.settle nm i s).work.get? nm' = if nm = nm' then some ⟨i, s.buffer⟩ else d.work.get? nm' :=
  Assoc.get?_insert ..

/-- Leaving a session as it may be closes none. -/
theorem mem_keys_settle {nm nm' : String} {i : Fin n} {s : Session κ ν σ} {d : Desk κ ν σ n}
    (hnm' : nm' ∈ d.work.keys) : nm' ∈ (d.settle nm i s).work.keys :=
  Assoc.mem_keys_insert.mpr (.inr hnm')

/-- No session is new or gone, and each stands over the store that it stood over before. -/
structure SameSeats (d d' : Desk κ ν σ n) : Prop where
  keys_eq : d'.work.keys = d.work.keys
  store_eq : ∀ nm, (d'.work.get? nm).map Seat.store = (d.work.get? nm).map Seat.store

theorem SameSeats.trans {d d' d'' : Desk κ ν σ n} (h : d.SameSeats d') (h' : d'.SameSeats d'') :
    d.SameSeats d'' :=
  ⟨h'.keys_eq.trans h.keys_eq, fun nm => (h'.store_eq nm).trans (h.store_eq nm)⟩

section Serving

variable [Store σ κ ν]

/-- The name that a cache goes by. -/
def name (i : Fin n) (d : Desk κ ν σ n) : String := Store.id (d.shelf.nth i)

/-- The session that serves a cache. -/
def serving (i : Fin n) (d : Desk κ ν σ n) : Seat κ ν n := (d.work.get? (d.name i)).getD ⟨i, {}⟩

theorem serving_eq (i : Fin n) (d : Desk κ ν σ n) :
    d.serving i = ⟨((d.work.get? (d.name i)).map Seat.store).getD i,
      ((d.work.get? (d.name i)).map Seat.buffer).getD {}⟩ := by
  rw [serving]
  cases d.work.get? (d.name i) <;> rfl

variable [Keeper ν]

/-- What surrounds the session with this name, which stands over the `i`-th store: what the other
sessions and the other stores keep is kept. -/
def around (name : String) (i : Fin n) (env : Ambient) (d : Desk κ ν σ n) : Ambient :=
  let others : UnitOfWork κ ν n := d.work.erase name
  d.shelf.beside i (env.also others)

/-- What a session is asked is answered by it, and changes it and the store that it stands over. -/
theorem onSeat_eq (nm : String) (seat : Seat κ ν n) (x : Op (Session κ ν σ) α) (env : Ambient)
    (d : Desk κ ν σ n) :
    let served := (d.work.get? nm).getD seat
    let o := x (d.around nm served.store env) ⟨served.buffer, d.shelf.nth served.store⟩
    (onSeat nm seat x env d).result = o.result ∧
      (onSeat nm seat x env d).state = d.settle nm served.store o.state := ⟨rfl, rfl⟩

/-- What a cache is asked is answered by the session that serves it. -/
theorem onCache_eq (i : Fin n) (x : Op (Session κ ν σ) α) (env : Ambient) (d : Desk κ ν σ n) :
    let o := x (d.around (d.name i) (d.serving i).store env)
      ⟨(d.serving i).buffer, d.shelf.nth (d.serving i).store⟩
    (onCache i x env d).result = o.result ∧
      (onCache i x env d).state = d.settle (d.name i) (d.serving i).store o.state := ⟨rfl, rfl⟩

/-- Answering a request in another form does not change what it does. -/
theorem onCache_map (i : Fin n) (x : Op (Session κ ν σ) α) (f : α → β) :
    (onCache i x >>= fun a => pure (f a) : Op (Desk κ ν σ n) β) =
      onCache i (x >>= fun a => pure (f a)) := by
  funext env d
  simp only [onCache, Op.bind_run, Op.read, onSeat]
  generalize x _ _ = o
  obtain ⟨r, s', events⟩ := o
  cases r with
  | ok a => rfl
  | error e => rfl

/-- Asks every session of the unit of work, in some order. -/
def onSeats (x : Op (Session κ ν σ) Unit) : Op (Desk κ ν σ n) Unit := do
  let seats ← Op.visiting (← Op.read fun d => d.work)
  Op.each (fun e => onSeat e.1 e.2 x) seats

/-! ## Where sessions stand -/

/-- Asking a session that is there does not move it, whether or not it fails. -/
theorem onSeat_sameSeats {nm : String} (seat : Seat κ ν n) (x : Op (Session κ ν σ) Unit)
    (env : Ambient) {d : Desk κ ν σ n} (hnm : nm ∈ d.work.keys) :
    (onSeat nm seat x).Leaves env d fun _ d' => d.SameSeats d' := by
  have hsome : (d.work.get? nm).isSome := Assoc.has_iff.mpr hnm
  obtain ⟨served, hserved⟩ := Option.isSome_iff_exists.mp hsome
  rw [Op.Leaves, (onSeat_eq nm seat x env d).2, hserved, Option.getD_some]
  constructor
  · exact Assoc.keys_insert_of_mem _ hnm
  · intro nm'
    rw [get?_settle]
    split
    · rename_i heq
      rw [← heq, hserved]
      rfl
    · rfl

/-- Asking sessions one after the other moves none of them, whatever fails. -/
theorem each_onSeat_sameSeats {x : Op (Session κ ν σ) Unit} {env : Ambient}
    (l : UnitOfWork κ ν n) {d : Desk κ ν σ n} (hl : ∀ e ∈ l, e.1 ∈ d.work.keys) :
    (Op.each (fun e => onSeat e.1 e.2 x) l).Leaves env d fun _ d' => d.SameSeats d' := by
  induction l generalizing d with
  | nil => exact ⟨rfl, fun _ => rfl⟩
  | cons e l ih =>
    rw [Op.each_cons]
    refine (onSeat_sameSeats e.2 x env (hl e List.mem_cons_self)).bind ?_ ?_
    · intro _ d₁ h₁
      refine (ih fun e' he' => ?_).imp fun _ d₂ h₂ => h₁.trans h₂
      rw [h₁.keys_eq]
      exact hl e' (List.mem_cons_of_mem e he')
    · intro _ d₁ h₁
      exact h₁

/-- An end moves no session, whatever fails. -/
theorem onSeats_sameSeats (x : Op (Session κ ν σ) Unit) (env : Ambient) (d : Desk κ ν σ n) :
    (onSeats x).Leaves env d fun _ d' => d.SameSeats d' := by
  refine (Op.yields_read _).bind_leaves ((Op.yields_visiting _).bind_leaves ?_)
  refine each_onSeat_sameSeats _ ?_
  intro e he
  have hmem := (env.visit.arrange_perm d.work).mem_iff.mp he
  exact Assoc.mem_keys_of_mem hmem

end Serving

/-! ## Caches with names of their own -/

section Apart

variable [Store σ κ ν]

/-- Caches have names of their own, no name has two sessions, and each session stands over the cache
of its name. -/
structure Apart (d : Desk κ ν σ n) : Prop where
  name_inj : ∀ i j, d.name i = d.name j → i = j
  keys_nodup : d.work.keys.Nodup
  named : ∀ e ∈ d.work, e.1 = d.name e.2.store

/-- A cache with the session of its name. -/
def session (i : Fin n) (d : Desk κ ν σ n) : Session κ ν σ :=
  ⟨((d.work.get? (d.name i)).map Seat.buffer).getD {}, d.shelf.nth i⟩

theorem session_of_notin {i : Fin n} {d : Desk κ ν σ n} (h : d.name i ∉ d.work.keys) :
    d.session i = ⟨{}, d.shelf.nth i⟩ := by
  rw [session, Assoc.get?_eq_none_iff.mpr h]
  rfl

/-- Nobody has asked for anything yet. -/
theorem apart_start {shelf : Shelf σ n}
    (hnames : ∀ i j, Store.id (shelf.nth i) = Store.id (shelf.nth j) → i = j) :
    (⟨[], shelf⟩ : Desk κ ν σ n).Apart where
  name_inj := hnames
  keys_nodup := List.nodup_nil
  named _ he := absurd he List.not_mem_nil

namespace Apart

variable {d : Desk κ ν σ n} {i j : Fin n} {s : Session κ ν σ} {env : Ambient}

/-- The session that serves a cache is its own. -/
theorem serving_eq (h : d.Apart) (i : Fin n) : d.serving i = ⟨i, (d.session i).buffer⟩ := by
  rw [serving, session]
  cases hget : d.work.get? (d.name i) with
  | none => rfl
  | some seat =>
    obtain ⟨store, buffer⟩ := seat
    have hstore := h.named _ (Assoc.mem_of_get?_eq_some hget)
    rw [h.name_inj i store hstore]
    rfl

/-- A session that has been opened is the one that is asked, whatever seat is given. -/
theorem getD_of_open (h : d.Apart) (hi : d.name i ∈ d.work.keys) (given : Seat κ ν n) :
    (d.work.get? (d.name i)).getD given = ⟨i, (d.session i).buffer⟩ := by
  obtain ⟨seat, hmem⟩ := Assoc.mem_keys.mp hi
  have hget : d.work.get? (d.name i) = some seat :=
    (Assoc.get?_eq_some_iff h.keys_nodup).mpr hmem
  rw [← h.serving_eq i, serving, hget]
  rfl

theorem name_settle (hid : Store.id s.below = d.name i) (nm : String) (j : Fin n) :
    (d.settle nm i s).name j = d.name j := by
  by_cases hj : j = i
  · subst hj
    rw [name, settle, Shelf.nth_put_self, hid]
  · rw [name, settle, Shelf.nth_put_of_ne _ _ hj]
    rfl

/-- Leaving the session of a cache as it may be leaves caches apart. -/
theorem settle (h : d.Apart) (hid : Store.id s.below = d.name i) :
    (d.settle (d.name i) i s).Apart := by
  constructor
  · intro j j' hj
    rw [name_settle hid, name_settle hid] at hj
    exact h.name_inj j j' hj
  · exact Assoc.nodup_keys_insert h.keys_nodup _ _
  · intro e he
    rw [name_settle hid]
    obtain ⟨nm, seat⟩ := e
    have hnodup := Assoc.nodup_keys_insert h.keys_nodup (d.name i) ⟨i, s.buffer⟩
    have hget := (Assoc.get?_eq_some_iff hnodup).mpr he
    rw [Assoc.get?_insert] at hget
    split at hget
    · rename_i heq
      cases hget
      exact heq.symm
    · exact h.named _ (Assoc.mem_of_get?_eq_some hget)

theorem session_settle_self (hid : Store.id s.below = d.name i) :
    (d.settle (d.name i) i s).session i = s := by
  rw [session, name_settle hid, get?_settle, if_pos rfl]
  have hbelow : (d.settle (d.name i) i s).shelf.nth i = s.below := Shelf.nth_put_self ..
  rw [hbelow]
  rfl

/-- The other caches and their sessions stay as they are. -/
theorem session_settle_of_ne (h : d.Apart) (hid : Store.id s.below = d.name i) (hj : j ≠ i) :
    (d.settle (d.name i) i s).session j = d.session j := by
  have hne : d.name i ≠ d.name j := fun heq => hj (h.name_inj i j heq).symm
  rw [session, name_settle hid, get?_settle, if_neg hne, session]
  have hbelow : (d.settle (d.name i) i s).shelf.nth j = d.shelf.nth j :=
    Shelf.nth_put_of_ne _ _ hj
  rw [hbelow]

/-- Every session has the name of a cache. -/
theorem exists_name (h : d.Apart) {nm : String} (hnm : nm ∈ d.work.keys) : ∃ i, nm = d.name i := by
  obtain ⟨seat, hmem⟩ := Assoc.mem_keys.mp hnm
  exact ⟨seat.store, h.named _ hmem⟩

/-- What surrounds the session of a cache when there is no other cache. -/
theorem around_eq [Keeper ν] {d : Desk κ ν σ 1} (h : d.Apart) (env : Ambient) :
    d.around (d.name 0) 0 env = env := by
  have hothers : d.work.erase (d.name 0) = [] := by
    rw [List.eq_nil_iff_forall_not_mem]
    intro e he
    obtain ⟨hmem, hne⟩ := Assoc.mem_erase.mp he
    rw [h.named e hmem, Subsingleton.elim e.2.store 0] at hne
    exact hne rfl
  have hheld : (d.around (d.name 0) 0 env).held = env.held := by
    funext v
    unfold around
    rw [hothers]
    show (env.held v || false || false) = env.held v
    rw [Bool.or_false, Bool.or_false]
  obtain ⟨held, visit⟩ := env
  exact congrArg (Ambient.mk · visit) hheld

end Apart

end Apart

/-! ## Requests and ends -/

section Yields

variable [Keeper ν] [Store σ κ ν] {d : Desk κ ν σ n} {env : Ambient}

/-- A request does to the session of its cache what it is, and to no other anything. -/
theorem onCache_yields (h : d.Apart) {i : Fin n} {x : Op (Session κ ν σ) α} {a : α}
    {s : Session κ ν σ}
    (hx : x.Yields (d.around (d.name i) i env) (d.session i) a s) :
    (onCache i x).Yields env d a (d.settle (d.name i) i s) := by
  obtain ⟨hresult, hstate⟩ := onCache_eq i x env d
  rw [h.serving_eq i] at hresult hstate
  have hsession : (⟨(d.session i).buffer, d.shelf.nth i⟩ : Session κ ν σ) = d.session i := rfl
  constructor
  · rw [hresult, hsession]
    exact hx.result_eq
  · rw [hstate, hsession, hx.state_eq]

/-- What a session that has been opened is asked does to it what it is. -/
theorem onSeat_yields (h : d.Apart) {i : Fin n} (hi : d.name i ∈ d.work.keys) (given : Seat κ ν n)
    {x : Op (Session κ ν σ) α} {a : α} {s : Session κ ν σ}
    (hx : x.Yields (d.around (d.name i) i env) (d.session i) a s) :
    (onSeat (d.name i) given x).Yields env d a (d.settle (d.name i) i s) := by
  obtain ⟨hresult, hstate⟩ := onSeat_eq (d.name i) given x env d
  rw [h.getD_of_open hi given] at hresult hstate
  constructor
  · exact hresult.trans hx.result_eq
  · rw [hstate]
    exact congrArg (d.settle (d.name i) i) hx.state_eq

/-- Asking some sessions one after the other does to each of them what it is. -/
theorem each_onSeat_yields {x : Op (Session κ ν σ) Unit} {left : Fin n → Session κ ν σ}
    (l : UnitOfWork κ ν n) (hl : l.keys.Nodup) (h : d.Apart)
    (hmem : ∀ nm ∈ l.keys, nm ∈ d.work.keys)
    (hid : ∀ i, Store.id (left i).below = d.name i)
    (hx : ∀ i (d₁ : Desk κ ν σ n), d.name i ∈ l.keys → d₁.Apart →
      x.Yields (d₁.around (d₁.name i) i env) (d.session i) () (left i)) :
    ∃ d' : Desk κ ν σ n, (Op.each (fun e => onSeat e.1 e.2 x) l).Yields env d () d' ∧ d'.Apart ∧
      (∀ i, d'.name i = d.name i) ∧
      ∀ i, d'.session i = if d.name i ∈ l.keys then left i else d.session i := by
  -- along the sessions still to be asked; those asked already are not among them
  induction l generalizing d with
  | nil => exact ⟨d, Op.yields_pure _, h, fun _ => rfl, fun i => (if_neg List.not_mem_nil).symm⟩
  | cons e l ih =>
    obtain ⟨nm, given⟩ := e
    have hcut : nm ∉ Assoc.keys l ∧ (Assoc.keys l).Nodup := List.nodup_cons.mp hl
    obtain ⟨hnm, hrest⟩ := hcut
    have hopen := hmem nm List.mem_cons_self
    obtain ⟨i, rfl⟩ := h.exists_name hopen
    have hfirst := onSeat_yields h hopen given (hx i d List.mem_cons_self h)
    have hnames := fun j => Apart.name_settle (d := d) (hid i) (d.name i) j
    have hne : ∀ j, d.name j ∈ Assoc.keys l → j ≠ i := by
      rintro j hj rfl
      exact hnm hj
    -- the session just asked is as it was left, and what is said of the others is still so
    obtain ⟨d', hothers, hapart, hnames', hsessions⟩ :=
      ih (d := d.settle (d.name i) i (left i)) hrest (h.settle (hid i))
        (fun nm' hnm' => mem_keys_settle (hmem nm' (List.mem_cons_of_mem _ hnm')))
        (fun j => (hid j).trans (hnames j).symm)
        (fun j d₁ hj h₁ => by
          rw [hnames j] at hj
          rw [h.session_settle_of_ne (hid i) (hne j hj)]
          exact hx j d₁ (List.mem_cons_of_mem _ hj) h₁)
    refine ⟨d', ?_, hapart, fun j => (hnames' j).trans (hnames j), fun j => ?_⟩
    · rw [Op.each_cons]
      exact hfirst.bind hothers
    · rw [hsessions j, hnames j]
      by_cases hj : j = i
      · subst hj
        rw [if_neg hnm, Apart.session_settle_self (hid j)]
        exact (if_pos List.mem_cons_self).symm
      · have hkey : d.name j ≠ d.name i := fun heq => hj (h.name_inj j i heq)
        have hcons : d.name j ∈ Assoc.keys ((d.name i, given) :: l) ↔ d.name j ∈ Assoc.keys l :=
          ⟨fun hm => (List.mem_cons.mp hm).resolve_left hkey, List.mem_cons_of_mem _⟩
        rw [h.session_settle_of_ne (hid i) hj]
        simp only [hcons]

/-- An end does to every session that has been opened what it is, in whatever order. -/
theorem onSeats_yields (env : Ambient) (h : d.Apart) {x : Op (Session κ ν σ) Unit}
    (left : Fin n → Session κ ν σ) (hid : ∀ i, Store.id (left i).below = d.name i)
    (hx : ∀ i (d₁ : Desk κ ν σ n), d.name i ∈ d.work.keys → d₁.Apart →
      x.Yields (d₁.around (d₁.name i) i env) (d.session i) () (left i)) :
    ∃ d' : Desk κ ν σ n, (onSeats x).Yields env d () d' ∧ d'.Apart ∧
      (∀ i, d'.name i = d.name i) ∧
      ∀ i, d'.session i = if d.name i ∈ d.work.keys then left i else d.session i := by
  have hperm := (env.visit.arrange_perm d.work).map Prod.fst
  have hkeys : ∀ nm, nm ∈ Assoc.keys (env.visit.arrange d.work) ↔ nm ∈ d.work.keys :=
    fun _ => hperm.mem_iff
  obtain ⟨d', hyields, hapart, hnames, hsessions⟩ := each_onSeat_yields
    (env.visit.arrange d.work) (hperm.nodup_iff.mpr h.keys_nodup) h
    (fun nm hnm => (hkeys nm).mp hnm) hid fun i d₁ hi => hx i d₁ ((hkeys _).mp hi)
  refine ⟨d', (Op.yields_read _).bind ((Op.yields_visiting _).bind hyields), hapart, hnames,
    fun i => ?_⟩
  rw [hsessions i]
  simp only [hkeys]

end Yields

/-! ## One cache -/

section One

variable [Keeper ν] [Store σ κ ν] {d : Desk κ ν σ 1} {env : Ambient}

/-- In a unit of work with one cache, a request does what it does to the session. -/
theorem onCache_yields_one (h : d.Apart) {x : Op (Session κ ν σ) α} {a : α} {s : Session κ ν σ}
    (hx : x.Yields env (d.session 0) a s) (hid : Store.id s.below = d.name 0) :
    ∃ d', (onCache 0 x).Yields env d a d' ∧ d'.Apart ∧ d'.session 0 = s := by
  rw [← h.around_eq env] at hx
  exact ⟨_, onCache_yields h hx, h.settle hid, Apart.session_settle_self hid⟩

/-- An end does what it does to the session, if that is nothing where nothing was gathered. -/
theorem onSeats_yields_one (h : d.Apart) {x : Op (Session κ ν σ) Unit} {s : Session κ ν σ}
    (hx : x.Yields env (d.session 0) () s) (hid : Store.id s.below = d.name 0)
    (hnew : ∀ t, d.session 0 = ⟨{}, t⟩ → s = ⟨{}, t⟩) :
    ∃ d', (onSeats x).Yields env d () d' ∧ d'.session 0 = s := by
  have hzero : ∀ i : Fin 1, i = 0 := fun i => Subsingleton.elim i 0
  obtain ⟨d', hyields, -, -, hsessions⟩ := onSeats_yields env h (x := x) (fun _ => s)
    (fun i => hzero i ▸ hid) fun i d₁ _ h₁ => by
      rw [hzero i, h₁.around_eq env]
      exact hx
  refine ⟨d', hyields, (hsessions 0).trans ?_⟩
  split
  · rfl
  · rename_i hnotin
    rw [session_of_notin hnotin, hnew _ (session_of_notin hnotin)]

end One

end Desk

end UnitOfWork

end SoftTier
