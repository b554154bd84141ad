import SoftTier.Proofs.Session.Loading
import SoftTier.Proofs.Soft.Publishing
import SoftTier.Proofs.Stack
import SoftTier.Proofs.UnitOfWork.Seats
import SoftTier.Service

/-!
# How traffic runs

No session of a service fails, as no request to its layers does. So what traffic makes of a service
is told step by step: by its lookups, each of which loads a row or does not, by the end of each
session, which sends what the session has gathered, and by the pressure after it.

- `Service.Progress`: the rows loaded, what the session has gathered and the layers meanwhile.
- `Progress.lookUp`, `Service.progress`: one lookup and many.
- `Progress.ended`: the layers when the session has ended.
- `Service.lookUp_yields_of`, `Service.end_yields_of`: a session over any store, told from what the
  store makes of each request.
- `Service.lookUps_yields`, `Service.runSession_yields`: a session does just that.
- `Service.steps_yields`, `Service.run_yields`: so do many of them, and a run.
- `Service.afterSessions`, `Service.lookUps`, `Service.runs`: what statements about services speak
  of, and what it comes to.
-/

namespace SoftTier

namespace Soft

variable {κ : Type} [DecidableEq κ] [Ord κ] [Std.TransOrd κ] {s : Soft κ (Table κ Handle)}

theorem name_looked (env : Ambient) (k : κ) : (s.looked env k).2.below.name = s.below.name := by
  rw [looked]
  split
  · rfl
  · split <;> rfl

theorem name_sent (env : Ambient) (e : κ × Option Value) :
    (s.sent env e).below.name = s.below.name := by
  obtain ⟨k, entry⟩ := e
  cases entry with
  | some v => exact Table.name_removeWhere ..
  | none => exact Table.name_removeWhere ..

end Soft

namespace Stack

variable {layers : List Layer}

/-- Layers over a soft layer that have been sent a write or a miss. -/
def sent (env : Ambient) (s : Stack Nat Value Service.Core layers) (e : Nat × Option Value) :
    Stack Nat Value Service.Core layers :=
  s.change (·.addWrites 1) ((base layers s).sent env e)

theorem base_foldl_sent (env : Ambient) (es : Assoc Nat (Option Value))
    (s : Stack Nat Value Service.Core layers) :
    base layers (es.foldl (sent env) s) = es.foldl (Soft.sent env) (base layers s) := by
  induction es generalizing s with
  | nil => rfl
  | cons e es ih =>
    rw [List.foldl_cons, List.foldl_cons, ih, sent, base_change]

theorem id_sent (env : Ambient) (e : Nat × Option Value)
    (s : Stack Nat Value Service.Core layers) : Store.id (s.sent env e) = Store.id s := by
  rw [sent, id_change, id_eq s]
  exact Soft.name_sent ..

end Stack

/-- The keys that a session looks up. -/
def Traffic.keysOf (t : Traffic) (i : Nat) : List Nat := (List.range t.reads).map (t.key i)

namespace Service

variable {layers : List Layer}

/-- How far a session has come: the rows that it has loaded, what it has gathered and the layers. -/
structure Progress (layers : List Layer) where
  loads : Nat
  buffer : Buffer Nat Value
  stack : Stack Nat Value Core layers

namespace Progress

/-- The soft layer. -/
def core (p : Progress layers) : Core := p.stack.base

/-- A session that has done nothing yet. -/
def start (stack : Stack Nat Value Core layers) : Progress layers := ⟨0, {}, stack⟩

/-- What a lookup finds. -/
def found (env : Ambient) (key : Nat) (p : Progress layers) : Option Value :=
  (p.core.looked (env.also p.buffer) key).1

/-- The layers after a lookup. -/
def looked (env : Ambient) (key : Nat) (p : Progress layers) : Stack Nat Value Core layers :=
  p.stack.change (·.addLookup (p.found env key).isSome) (p.core.looked (env.also p.buffer) key).2

/-- A session after one lookup more. If nothing is found, a row is loaded, as a value with the next
tag. -/
def lookUp (env : Ambient) (tag key : Nat) (p : Progress layers) : Progress layers :=
  match p.found env key with
  | some _ => ⟨p.loads, p.buffer, p.looked env key⟩
  | none =>
    ⟨p.loads + 1, (p.buffer.miss key).put key (some (row (tag + p.loads) key)), p.looked env key⟩

/-- What the end of a session sends. -/
def sends (env : Ambient) (rollsBack : Bool) (p : Progress layers) : Assoc Nat (Option Value) :=
  if rollsBack then (env.visit.arrange p.buffer.missed).map (·, none) else p.buffer.sends env.visit

/-- The layers when the session has ended. -/
def ended (env : Ambient) (rollsBack : Bool) (p : Progress layers) :
    Stack Nat Value Core layers :=
  (p.sends env rollsBack).foldl (Stack.sent (env.also p.buffer)) p.stack

end Progress

/-- How far a session has come after some lookups. -/
def progress (env : Ambient) (t : Traffic) (i tag : Nat) (stack : Stack Nat Value Core layers) :
    Nat → Progress layers
  | 0 => .start stack
  | n + 1 => (progress env t i tag stack n).lookUp env tag (t.key i n)

namespace Progress

variable {env : Ambient} {tag key : Nat} {p : Progress layers}

theorem stack_lookUp : (p.lookUp env tag key).stack = p.looked env key := by
  rw [lookUp]
  cases p.found env key <;> rfl

theorem core_lookUp :
    (p.lookUp env tag key).core = (p.core.looked (env.also p.buffer) key).2 := by
  rw [core, stack_lookUp, looked, Stack.base_change]

/-- A lookup counts as a load unless it finds something. -/
theorem loads_lookUp : (p.lookUp env tag key).loads =
    p.loads + if (p.found env key).isSome then 0 else 1 := by
  rw [lookUp]
  cases p.found env key <;> rfl

theorem id_looked : Store.id (p.looked env key) = Store.id p.stack := by
  rw [looked, Stack.id_change, Stack.id_eq p.stack]
  exact Soft.name_looked ..

theorem loaded_lookUp (h : p.buffer.Loaded) : (p.lookUp env tag key).buffer.Loaded := by
  rw [lookUp]
  cases p.found env key with
  | none => exact h.load key _
  | some v => exact h

/-- A session that has gathered nothing sends nothing. -/
theorem sends_of_empty (h : p.buffer = {}) (rollsBack : Bool) : p.sends env rollsBack = [] := by
  rw [sends, h]
  cases rollsBack with
  | true => simp [Visit.arrange_nil]
  | false => simp [Buffer.sends, Buffer.due, Visit.arrange_nil]

/-- The keys with a row waiting after a lookup. -/
theorem mem_pending_lookUp {k : Nat} : k ∈ (p.lookUp env tag key).buffer.pending.keys ↔
    k = key ∧ p.found env key = none ∨ k ∈ p.buffer.pending.keys := by
  rw [lookUp]
  cases p.found env key with
  | some v => simp
  | none => exact Assoc.mem_keys_insert.trans (or_congr_left (and_iff_left rfl).symm)

/-- A commit of a session that has loaded what it missed sends its rows, each key once. -/
theorem sends_commit (h : p.buffer.Loaded) (env : Ambient) :
    (p.sends env false).Perm p.buffer.pending ∧ (p.sends env false).keys.Nodup ∧
      ∀ e ∈ p.sends env false, e.2.isSome := by
  have hperm : (p.sends env false).Perm p.buffer.pending := by
    rw [sends, if_neg Bool.false_ne_true, Buffer.sends, h.due_eq, List.map_nil, List.append_nil]
    exact env.visit.arrange_perm p.buffer.pending
  refine ⟨hperm, (hperm.map Prod.fst).nodup_iff.mpr h.sound.pending_nodup, fun e he => ?_⟩
  exact h.valued e (hperm.mem_iff.mp he)

/-- The unit of work has what the session has gathered, over this store. -/
structure Shows {σ : Type} [Store σ Nat Value] (p : Progress layers) (s : σ) (d : Desk σ) :
    Prop where
  apart : d.Apart
  session_eq : d.session 0 = ⟨p.buffer, s⟩
  clears_eq : p.buffer.clears = false

theorem shows_start {σ : Type} [Store σ Nat Value] (stack : Stack Nat Value Core layers) (s : σ) :
    (Progress.start stack).Shows s ⟨[], #v[s]⟩ where
  apart := UnitOfWork.Desk.apart_start fun i j _ => Subsingleton.elim i j
  session_eq := rfl
  clears_eq := rfl

theorem Shows.name_eq {σ : Type} [Store σ Nat Value] {s : σ} {d : Desk σ} (h : p.Shows s d) :
    d.name 0 = Store.id s := congrArg (fun s : Session Nat Value σ => Store.id s.below) h.session_eq

end Progress

theorem progress_loaded (env : Ambient) (t : Traffic) (i tag : Nat)
    (stack : Stack Nat Value Core layers) (n : Nat) :
    (progress env t i tag stack n).buffer.Loaded := by
  induction n with
  | zero => exact Buffer.loaded_empty
  | succ n ih => exact Progress.loaded_lookUp ih

/-- A session has a row waiting for each key that one of its lookups has not found. -/
theorem mem_pending_progress (env : Ambient) (t : Traffic) (i tag : Nat)
    (stack : Stack Nat Value Core layers) (n k : Nat) :
    k ∈ (progress env t i tag stack n).buffer.pending.keys ↔
      ∃ r < n, t.key i r = k ∧ (progress env t i tag stack r).found env (t.key i r) = none := by
  induction n with
  | zero => simp [progress, Progress.start, Assoc.keys]
  | succ n ih =>
    rw [progress, Progress.mem_pending_lookUp, ih]
    constructor
    · rintro (⟨rfl, hfound⟩ | ⟨r, hr, hkey, hfound⟩)
      · exact ⟨n, Nat.lt_succ_self n, rfl, hfound⟩
      · exact ⟨r, Nat.lt_succ_of_lt hr, hkey, hfound⟩
    · rintro ⟨r, hr, rfl, hfound⟩
      rcases Nat.lt_succ_iff_lt_or_eq.mp hr with hr | rfl
      · exact .inr ⟨r, hr, rfl, hfound⟩
      · exact .inl ⟨rfl, hfound⟩

/-! ## Sessions over any store -/

section Over

variable {σ : Type} [Store σ Nat Value] {env : Ambient} {t : Traffic} {i tag : Nat}
  {p : Progress layers} {s s' : σ} {d : Desk σ}

/-- A lookup does what it does to the progress of the session, if the store answers alike. -/
theorem lookUp_yields_of (h : p.Shows s d) (r : Nat)
    (hread : (Store.read (t.key i r) : Op σ (Option Value)).Yields (env.also p.buffer) s
      (p.found env (t.key i r)) s') (hid : Store.id s' = Store.id s) :
    ∃ d', (lookUp t i tag p.loads r).Yields env d (p.lookUp env tag (t.key i r)).loads d' ∧
      (p.lookUp env tag (t.key i r)).Shows s' d' := by
  set key := t.key i r
  have hlooked : (Store.read key : Op (Session Nat Value σ) _).Yields env (d.session 0)
      (p.found env key)
      ⟨if (p.found env key).isNone then p.buffer.miss key else p.buffer, s'⟩ := by
    have hsession := Session.read_yields_of (s := ⟨p.buffer, s⟩) hread
    rw [if_neg (ne_true_of_eq_false h.clears_eq)] at hsession
    rw [h.session_eq]
    exact hsession
  obtain ⟨d₁, hfound, h₁, hsession⟩ :=
    UnitOfWork.Desk.onCache_yields_one h.apart hlooked (hid.trans h.name_eq.symm)
  rw [Progress.lookUp]
  -- a row that is loaded is written by a request of its own, to the session as the lookup left it
  cases hv : p.found env key with
  | some v =>
    rw [hv] at hfound hsession
    exact ⟨d₁, hfound.bind (Op.yields_pure _), h₁, hsession, h.clears_eq⟩
  | none =>
    rw [hv] at hfound hsession
    have hwrite : (Store.write key (row (tag + p.loads) key) :
        Op (Session Nat Value σ) Unit).Yields env (d₁.session 0) ()
        ⟨(p.buffer.miss key).put key (some (row (tag + p.loads) key)), s'⟩ := by
      rw [hsession]
      exact Session.note_yields _
    have hname : Store.id s' = d₁.name 0 :=
      (congrArg (fun s => Store.id (Session.below s)) hsession).symm
    obtain ⟨d₂, hwritten, h₂, hsession₂⟩ := UnitOfWork.Desk.onCache_yields_one h₁ hwrite hname
    exact ⟨d₂, hfound.bind (hwritten.bind (Op.yields_pure _)), h₂, hsession₂, h.clears_eq⟩

/-- The end of a session sends what it has gathered, told from what each write and each miss makes
of the store. -/
theorem end_yields_of (h : p.Shows s d) {next : σ → Nat × Option Value → σ}
    (hsend : ∀ e s, (Buffer.send e : Op σ Unit).Yields (env.also p.buffer) s () (next s e))
    (hid : ∀ s e, Store.id (next s e) = Store.id s) (rollsBack : Bool) :
    ∃ d', (if rollsBack then UnitOfWork.Desk.rollback else UnitOfWork.Desk.commit :
        Op (Desk σ) Unit).Yields env d () d' ∧
      d'.shelf.nth 0 = (p.sends env rollsBack).foldl next s := by
  have hname : Store.id ((p.sends env rollsBack).foldl next s) = d.name 0 := by
    rw [h.name_eq]
    exact List.foldlRecOn (motive := fun s' => Store.id s' = Store.id s) _ next rfl
      fun s' hs' e _ => (hid s' e).trans hs'
  -- an end passes over a session that was never opened, and such a session has nothing to send
  have hnew : ∀ t, d.session 0 = ⟨{}, t⟩ →
      (⟨{}, (p.sends env rollsBack).foldl next s⟩ : Session Nat Value σ) = ⟨{}, t⟩ := by
    intro t ht
    obtain ⟨hbuffer, hbelow⟩ := Session.mk.inj (h.session_eq.symm.trans ht)
    rw [Progress.sends_of_empty hbuffer, List.foldl_nil, hbelow]
  have hend : ∀ x : Op (Session Nat Value σ) Unit,
      x.Yields env ⟨p.buffer, s⟩ () ⟨{}, (p.sends env rollsBack).foldl next s⟩ →
      ∃ d', (UnitOfWork.Desk.onSeats x).Yields env d () d' ∧
        d'.shelf.nth 0 = (p.sends env rollsBack).foldl next s := by
    intro x hx
    rw [← h.session_eq] at hx
    obtain ⟨d', hyields, hsession⟩ := UnitOfWork.Desk.onSeats_yields_one h.apart hx hname hnew
    exact ⟨d', hyields, congrArg Session.below hsession⟩
  cases rollsBack with
  | true => exact hend _ (Session.rollback_yields_of (Buffer.freeAll_yields_of hsend _ _))
  | false =>
    have hclear : if p.buffer.clears then
          (Store.clear : Op σ Unit).Yields (env.also p.buffer) s () s
        else s = s := by
      rw [if_neg (ne_true_of_eq_false h.clears_eq)]
    have hflush := Buffer.flush_yields_of hsend p.buffer hclear
    have hcommit := Session.commit_yields_of (s := ⟨p.buffer, s⟩) hflush
      (Buffer.freeMissed_yields_of hsend p.buffer _)
    rw [← List.foldl_append] at hcommit
    exact hend _ hcommit

/-- A session is its lookups and its end. -/
theorem session_yields_of {d₁ d₂ : Desk σ} {loads : Nat}
    (hlookUps : (Op.foldl (lookUp t i tag) 0 (List.range t.reads)).Yields env d loads d₁)
    (hend : (if t.rollsBack i then UnitOfWork.Desk.rollback else UnitOfWork.Desk.commit :
      Op (Desk σ) Unit).Yields env d₁ () d₂) : (session t i tag).Yields env d loads d₂ := by
  refine hlookUps.bind ?_
  cases hrolls : t.rollsBack i with
  | true =>
    rw [hrolls] at hend
    exact hend.bind (Op.yields_pure _)
  | false =>
    rw [hrolls] at hend
    exact hend.bind (Op.yields_pure _)

end Over

/-! ## Sessions of a service -/

section Yields

variable (env : Ambient) {p : Progress layers} {d : Desk (Stack Nat Value Core layers)}

theorem Progress.read_yields (hl : .session ∉ layers) (key : Nat) (p : Progress layers) :
    (Store.read key : Op (Stack Nat Value Core layers) (Option Value)).Yields (env.also p.buffer)
      p.stack (p.found env key) (p.looked env key) :=
  Stack.read_yields hl (Soft.read_yields key p.core)

theorem send_yields (hl : .session ∉ layers) (e : Nat × Option Value)
    (s : Stack Nat Value Core layers) :
    (Buffer.send e : Op (Stack Nat Value Core layers) Unit).Yields env s () (s.sent env e) :=
  Stack.send_yields hl (Soft.send_yields e _)

/-- A lookup does what it does to the progress of the session. -/
theorem lookUp_yields (hl : .session ∉ layers) (h : p.Shows p.stack d) (t : Traffic)
    (i tag r : Nat) :
    ∃ d', (lookUp t i tag p.loads r).Yields env d (p.lookUp env tag (t.key i r)).loads d' ∧
      (p.lookUp env tag (t.key i r)).Shows (p.lookUp env tag (t.key i r)).stack d' := by
  rw [Progress.stack_lookUp]
  exact lookUp_yields_of h r (p.read_yields env hl _) Progress.id_looked

/-- Lookups do what they do to the progress of the session. -/
theorem lookUps_yields (hl : .session ∉ layers) (t : Traffic) (i tag : Nat)
    (stack : Stack Nat Value Core layers) (n : Nat) :
    ∃ d, (Op.foldl (lookUp t i tag) 0 (List.range n)).Yields env ⟨[], #v[stack]⟩
        (progress env t i tag stack n).loads d ∧
      (progress env t i tag stack n).Shows (progress env t i tag stack n).stack d := by
  obtain ⟨_, d, hyields, rfl, hshows⟩ := Op.exists_yields_range env (f := lookUp t i tag)
    (I := fun n loads d => loads = (progress env t i tag stack n).loads ∧
      (progress env t i tag stack n).Shows (progress env t i tag stack n).stack d)
    ⟨rfl, Progress.shows_start stack stack⟩ (fun r _ d ⟨hloads, h⟩ => by
      obtain ⟨d', hyields, h'⟩ := lookUp_yields env hl h t i tag r
      exact ⟨_, d', hloads ▸ hyields, rfl, h'⟩) n
  exact ⟨d, hyields, hshows⟩

/-- The end of a session sends what it has gathered. -/
theorem end_yields (hl : .session ∉ layers) (h : p.Shows p.stack d) (rollsBack : Bool) :
    ∃ d', (if rollsBack then UnitOfWork.Desk.rollback else UnitOfWork.Desk.commit :
        Op (Desk (Stack Nat Value Core layers)) Unit).Yields env d () d' ∧
      d'.shelf.nth 0 = p.ended env rollsBack :=
  end_yields_of h (send_yields (env.also p.buffer) hl)
    (fun s e => s.id_sent (env.also p.buffer) e) rollsBack

end Yields

/-! ## Traffic -/

/-- The rows that a session loads, and the service after it. -/
def afterSession (env : Ambient) (t : Traffic) (i : Nat) (c : Service) : Nat × Service :=
  let p := progress env t i c.nextTag c.stack t.reads
  (p.loads, ⟨c.layers, p.ended env (t.rollsBack i), c.nextTag + p.loads⟩)

theorem runSession_yields (env : Ambient) {c : Service} (hl : .session ∉ c.layers) (t : Traffic)
    (i : Nat) : (runSession t i).Yields env c (afterSession env t i c).1
      (afterSession env t i c).2 := by
  obtain ⟨layers, stack, tag⟩ := c
  obtain ⟨d, hlookUps, hshows⟩ := lookUps_yields env hl t i tag stack t.reads
  obtain ⟨d', hend, hstack⟩ := end_yields env hl hshows (t.rollsBack i)
  have hsession := session_yields_of hlookUps hend
  constructor
  · exact hsession.result_eq
  · rw [runSession, hsession.result_eq, hsession.state_eq, hstack]
    rfl

/-- The service under pressure. -/
def pressed (env : Ambient) (c : Service) : Service :=
  ⟨c.layers, c.stack.change id { c.soft with
    reclaimer := (c.soft.reclaimer.shrink (env.also c.soft.pinned) 0).2 }, c.nextTag⟩

@[simp] theorem soft_pressed (env : Ambient) (c : Service) : (c.pressed env).soft = { c.soft with
    reclaimer := (c.soft.reclaimer.shrink (env.also c.soft.pinned) 0).2 } := Stack.base_change ..

/-- The service with the entries of posted keys taken out. -/
def settled (env : Ambient) (c : Service) : Service :=
  ⟨c.layers, c.stack.change id (c.soft.drained env), c.nextTag⟩

@[simp] theorem soft_settled (env : Ambient) (c : Service) :
    (c.settled env).soft = c.soft.drained env := Stack.base_change ..

/-- The summary and the service after one session more and what follows it. -/
def stepped (env : Ambient) (t : Traffic) (p : Summary × Service) (i : Nat) : Summary × Service :=
  let (loads, c) := afterSession env t i p.2
  (let summary := { p.1 with loads := p.1.loads + loads }
    if t.rollsBack i then { summary with rollbacks := summary.rollbacks + 1 }
    else { summary with commits := summary.commits + 1 },
    if t.pressesAfter i then c.pressed env else c)

/-- The summary and the service after some sessions. -/
def steps (env : Ambient) (t : Traffic) (c : Service) : Nat → Summary × Service
  | 0 => ({}, c)
  | n + 1 => stepped env t (steps env t c n) n

/-- The rows that a session loads are counted, however it ends. -/
theorem loads_stepped (env : Ambient) (t : Traffic) (p : Summary × Service) (i : Nat) :
    (stepped env t p i).1.loads =
      p.1.loads + (progress env t i p.2.nextTag p.2.stack t.reads).loads := by
  rw [stepped]
  dsimp only
  split <;> rfl

/-- The layers stay the same. -/
theorem layers_steps (env : Ambient) (t : Traffic) (c : Service) (n : Nat) :
    (steps env t c n).2.layers = c.layers := by
  induction n with
  | zero => rfl
  | succ n ih =>
    rw [steps, stepped]
    dsimp only
    split
    · exact ih
    · exact ih

/-- The service when a run is through. -/
def afterRun (env : Ambient) (t : Traffic) (c : Service) : Service :=
  (steps env t c t.sessions).2.settled env

theorem layers_afterRun (env : Ambient) (t : Traffic) (c : Service) :
    (afterRun env t c).layers = c.layers := layers_steps env t c t.sessions

section Run

variable (env : Ambient) {c : Service}

theorem press_yields (hl : .session ∉ c.layers) :
    ∃ n, (onStack (Stack.onBase (Soft.shrink 0) _)).Yields env c n (c.pressed env) := by
  obtain ⟨layers, stack, tag⟩ := c
  have hcore : (Soft.shrink 0 : Op Core Nat).Yields env stack.base _ _ := Soft.shrink_yields 0
  obtain ⟨hresult, hstate⟩ := Stack.onBase_yields hl hcore
  refine ⟨_, hresult, ?_⟩
  rw [onStack, hstate]
  rfl

theorem runStep_yields (hl : .session ∉ c.layers) (t : Traffic) (summary : Summary) (i : Nat) :
    (runStep t summary i).Yields env c (stepped env t (summary, c) i).1
      (stepped env t (summary, c) i).2 := by
  have hsession := runSession_yields env hl t i
  obtain ⟨n, hpress⟩ := press_yields env (c := (afterSession env t i c).2) hl
  refine hsession.bind ?_
  rw [stepped]
  cases t.pressesAfter i with
  | true =>
    refine hpress.bind ?_
    cases t.rollsBack i with
    | true => exact Op.yields_pure _
    | false => exact Op.yields_pure _
  | false =>
    cases t.rollsBack i with
    | true => exact Op.yields_pure _
    | false => exact Op.yields_pure _

/-- Sessions do, one after the other, what is told of them. -/
theorem steps_yields (hl : .session ∉ c.layers) (t : Traffic) (n : Nat) :
    (Op.foldl (runStep t) {} (List.range n)).Yields env c (steps env t c n).1
      (steps env t c n).2 := by
  obtain ⟨_, _, hyields, hsteps⟩ := Op.exists_yields_range env (f := runStep t)
    (I := fun n summary c' => (summary, c') = steps env t c n) rfl (fun i summary c' h => by
      have hl' : .session ∉ c'.layers := by
        rw [show c' = (steps env t c i).2 from congrArg Prod.snd h, layers_steps]
        exact hl
      refine ⟨_, _, runStep_yields env hl' t summary i, ?_⟩
      rw [h]
      rfl) n
  rw [← hsteps]
  exact hyields

theorem size_yields (hl : .session ∉ c.layers) :
    ∃ n, (onStack Store.size).Yields env c n (c.settled env) := by
  obtain ⟨layers, stack, tag⟩ := c
  have hcore : (Store.size : Op Core Nat).Yields env stack.base _ _ := Soft.size_yields
  obtain ⟨hresult, hstate⟩ := Stack.size_yields hl hcore
  refine ⟨_, hresult, ?_⟩
  rw [onStack, hstate]
  rfl

/-- A run is its sessions, and then the size is asked for. -/
theorem run_yields (hl : .session ∉ c.layers) (t : Traffic) :
    ∃ summary, (run t).Yields env c summary (afterRun env t c) ∧
      summary.commits = (steps env t c t.sessions).1.commits ∧
      summary.rollbacks = (steps env t c t.sessions).1.rollbacks ∧
      summary.loads = (steps env t c t.sessions).1.loads ∧
      summary.reclaimed = (steps env t c t.sessions).2.soft.reclaimer.reclaimed ∧
      summary.pinned = (afterRun env t c).soft.pinned.length := by
  have hsteps := steps_yields env hl t t.sessions
  obtain ⟨n, hsize⟩ := size_yields env (c := (steps env t c t.sessions).2) (by
    rw [layers_steps]
    exact hl)
  exact ⟨_, hsteps.bind ((Op.yields_read _).bind (hsize.bind ((Op.yields_read _).bind
    (Op.yields_pure _)))), rfl, rfl, rfl, rfl, rfl⟩

end Run

/-! ## What is asked of a service -/

/-- The service after the first sessions of its traffic. -/
def afterSessions (env : Ambient) (t : Traffic) (n : Nat) (c : Service) : Service :=
  (Op.foldl (runStep t) {} (List.range n) env c).state

/-- What the first lookups of a session come to: the rows loaded, and the unit of work. -/
def lookUps (env : Ambient) (t : Traffic) (i n : Nat) (c : Service) :
    Outcome (Desk (Stack Nat Value Core c.layers)) Nat :=
  Op.foldl (lookUp t i c.nextTag) 0 (List.range n) env ⟨[], #v[c.stack]⟩

/-- The results of runs, one after the other, and the service after them. -/
def runs (c : Service) : List (Ambient × Traffic) → List (Except Failure Summary) × Service
  | [] => ([], c)
  | (env, t) :: rest =>
    let o := run t env c
    (o.result :: (runs o.state rest).1, (runs o.state rest).2)

section Asked

variable (env : Ambient) {c : Service} (hl : .session ∉ c.layers) (t : Traffic)

include hl

theorem afterSessions_eq (n : Nat) : afterSessions env t n c = (steps env t c n).2 :=
  (steps_yields env hl t n).state_eq

theorem layers_afterSessions (n : Nat) : (afterSessions env t n c).layers = c.layers := by
  rw [afterSessions_eq env hl, layers_steps]

/-- The run goes on from what a session leaves, and the pressure after it. -/
theorem afterSessions_succ (n : Nat) :
    let s := (runSession t n env (afterSessions env t n c)).state
    afterSessions env t (n + 1) c =
      if t.pressesAfter n then (onStack (Stack.onBase (Soft.shrink 0) _) env s).state else s := by
  intro s
  have hl' : .session ∉ (afterSessions env t n c).layers :=
    (layers_afterSessions env hl t n).symm ▸ hl
  have hs : s = (afterSession env t n (afterSessions env t n c)).2 :=
    (runSession_yields env hl' t n).state_eq
  obtain ⟨_, hpress⟩ := press_yields env (c := s) (hs ▸ hl')
  rw [hpress.state_eq, hs, afterSessions_eq env hl, afterSessions_eq env hl]
  rfl

theorem lookUps_result (i n : Nat) : (lookUps env t i n c).result =
    .ok (progress env t i c.nextTag c.stack n).loads := by
  obtain ⟨d, hyields, -⟩ := lookUps_yields env hl t i c.nextTag c.stack n
  exact hyields.result_eq

theorem lookUps_shows (i n : Nat) :
    (progress env t i c.nextTag c.stack n).Shows (progress env t i c.nextTag c.stack n).stack
      (lookUps env t i n c).state := by
  obtain ⟨d, hyields, hshows⟩ := lookUps_yields env hl t i c.nextTag c.stack n
  rw [lookUps, hyields.state_eq]
  exact hshows

/-- A lookup makes the count of the rows differ exactly if it finds nothing. -/
theorem lookUps_differ_iff (i r : Nat) :
    (lookUps env t i (r + 1) c).result ≠ (lookUps env t i r c).result ↔
      (progress env t i c.nextTag c.stack r).found env (t.key i r) = none := by
  rw [lookUps_result env hl, lookUps_result env hl, progress, Progress.loads_lookUp]
  cases (progress env t i c.nextTag c.stack r).found env (t.key i r) <;> simp

/-- In the lookups of a session a row is gathered for every key that is loaded. -/
theorem lookUps_gathered (i n : Nat) :
    ((lookUps env t i n c).state.session 0).buffer.Loaded ∧
      ∀ k, k ∈ ((lookUps env t i n c).state.session 0).buffer.pending.keys ↔
        ∃ r < n, t.key i r = k ∧
          (lookUps env t i (r + 1) c).result ≠ (lookUps env t i r c).result := by
  rw [(lookUps_shows env hl t i n).session_eq]
  refine ⟨progress_loaded env t i c.nextTag c.stack n, fun k => ?_⟩
  simp only [lookUps_differ_iff env hl]
  exact mem_pending_progress env t i c.nextTag c.stack n k

/-- What comes of the first of some runs, and what is left for the others. -/
theorem runs_cons (l : List (Ambient × Traffic)) :
    ∃ summary, summary.loads = (steps env t c t.sessions).1.loads ∧
      runs c ((env, t) :: l) =
        let rest := runs (afterRun env t c) l
        (.ok summary :: rest.1, rest.2) := by
  obtain ⟨summary, hrun, -, -, hloads, -⟩ := run_yields env hl t
  refine ⟨summary, hloads, ?_⟩
  rw [runs]
  dsimp only
  rw [hrun.result_eq, hrun.state_eq]

end Asked

/-- Layers stay the same over any runs. -/
theorem layers_runs {c : Service} (hl : .session ∉ c.layers) (l : List (Ambient × Traffic)) :
    (runs c l).2.layers = c.layers := by
  induction l generalizing c with
  | nil => rfl
  | cons run l ih =>
    obtain ⟨env, t⟩ := run
    obtain ⟨summary, -, hruns⟩ := runs_cons env hl t l
    have hlayers := layers_afterRun env t c
    rw [hruns]
    exact (ih (by rwa [hlayers])).trans hlayers

/-! ## New services -/

theorem session_notin_layersOf (settings : ServiceSettings) : .session ∉ layersOf settings := by
  rw [layersOf]
  split <;> simp

/-- A service can be set up if there is room for a value. -/
theorem ofSettings_eq {settings : ServiceSettings} (hcap : 0 < settings.soft.softCapacity) :
    ∃ r : Reclaimer Nat, Reclaimer.ofCapacity settings.soft.softCapacity = .ok r ∧
      ofSettings settings = .ok ⟨layersOf settings,
        .fresh ⟨[], settings.soft.pinCapacity, r, Table.named settings.id⟩ _, 0⟩ := by
  have hr := Reclaimer.ofCapacity_eq (κ := Nat) hcap
  have hcheck : settings.soft.check = .ok () := if_neg (by omega)
  refine ⟨_, hr, ?_⟩
  rw [ofSettings, Soft.ofSettings, hcheck, hr]

end Service

end SoftTier
