import SoftTier.Op

/-!
# What operations yield

An operation that succeeds yields a result and a state. What it reports on the way is left out, so
that what a block of steps yields is told from what its steps yield. An operation that may fail is
told by what holds of its result and state in either case, as a failure does not undo what was done
before it.

- `Op.Yields`: the operation succeeds, with this result and this state.
- `Op.Yields.bind`, `Op.yields_each`, `Op.exists_yields_range`: blocks of steps and runs over lists.
- `Op.Leaves`: what holds when the operation is over, be it with a result or with a failure.
- `Op.Leaves.bind`, `Op.foldl_leaves`: blocks of steps and runs over lists again.
-/

namespace SoftTier

/-- There is one order in which to visit nothing. -/
theorem Visit.arrange_nil {α : Type} (visit : Visit) : visit.arrange ([] : List α) = [] :=
  (visit.arrange_perm []).eq_nil

namespace Op

variable {σ α β : Type}

/-- The operation succeeds and leaves this result and this state. -/
structure Yields (x : Op σ α) (env : Ambient) (s : σ) (a : α) (s' : σ) : Prop where
  result_eq : (x env s).result = .ok a
  state_eq : (x env s).state = s'

variable {env : Ambient} {s s' s'' : σ} {a : α} {b : β}

theorem yields_pure (a : α) : (pure a : Op σ α).Yields env s a s := ⟨rfl, rfl⟩

theorem yields_read (f : σ → α) : (read f).Yields env s (f s) s := ⟨rfl, rfl⟩

theorem yields_update (f : σ → σ) : (update f).Yields env s () (f s) := ⟨rfl, rfl⟩

theorem yields_emit (e : Event) : (emit e : Op σ Unit).Yields env s () s := ⟨rfl, rfl⟩

theorem yields_visiting (l : List α) :
    (visiting l : Op σ (List α)).Yields env s (env.visit.arrange l) s := ⟨rfl, rfl⟩

theorem Yields.bind {x : Op σ α} {f : α → Op σ β} (hx : x.Yields env s a s')
    (hf : (f a).Yields env s' b s'') : (x >>= f).Yields env s b s'' := by
  obtain ⟨hresult, rfl⟩ := hx
  obtain ⟨hresult', rfl⟩ := hf
  constructor
  · rw [bind_run]
    generalize x env s = o at *
    obtain ⟨r, s', events⟩ := o
    subst hresult
    exact hresult'
  · rw [bind_run]
    generalize x env s = o at *
    obtain ⟨r, s', events⟩ := o
    subst hresult
    rfl

/-- What is tried without failing yields what it would have yielded. -/
theorem Yields.attempt {x : Op σ α} (hx : x.Yields env s a s') :
    (attempt x).Yields env s (.ok a) s' :=
  ⟨congrArg Except.ok hx.result_eq, hx.state_eq⟩

theorem Yields.holding {v : Value} {x : Op σ α} (hx : x.Yields (env.also v) s a s') :
    (holding v x).Yields env s a s' := ⟨hx.result_eq, hx.state_eq⟩

/-- A run over a list whose members each change the state in their own way. -/
theorem yields_each {f : α → Op σ Unit} {next : σ → α → σ}
    (hf : ∀ a s, (f a).Yields env s () (next s a)) (l : List α) (s : σ) :
    (each f l).Yields env s () (l.foldl next s) := by
  induction l generalizing s with
  | nil => exact yields_pure ()
  | cons a l ih =>
    rw [each_cons]
    exact (hf a s).bind (ih (next s a))

/-- A run over two lists, one after the other. -/
theorem foldl_append (f : β → α → Op σ β) (b : β) (l l' : List α) :
    foldl f b (l ++ l') = foldl f b l >>= fun b' => foldl f b' l' := by
  induction l generalizing b with
  | nil => exact (pure_bind (m := Op σ) b fun b' => foldl f b' l').symm
  | cons a l ih =>
    rw [List.cons_append, foldl_cons, foldl_cons, bind_assoc]
    exact congrArg (f b a >>= ·) (funext ih)

/-- A run over the first numbers whose steps succeed and carry an invariant along. -/
theorem exists_yields_range (env : Ambient) {f : β → Nat → Op σ β} {I : Nat → β → σ → Prop}
    (h : I 0 b s)
    (hstep : ∀ i b s, I i b s → ∃ b' s', (f b i).Yields env s b' s' ∧ I (i + 1) b' s') (n : Nat) :
    ∃ b' s', (foldl f b (List.range n)).Yields env s b' s' ∧ I n b' s' := by
  induction n with
  | zero => exact ⟨b, s, yields_pure b, h⟩
  | succ n ih =>
    obtain ⟨b₁, s₁, hrun, h₁⟩ := ih
    obtain ⟨b₂, s₂, hlast, h₂⟩ := hstep n b₁ s₁ h₁
    have hone : (foldl f b₁ [n]).Yields env s₁ b₂ s₂ := by
      rw [foldl_cons]
      exact hlast.bind (yields_pure b₂)
    refine ⟨b₂, s₂, ?_, h₂⟩
    rw [List.range_succ, foldl_append]
    exact hrun.bind hone

/-! ## Operations that may fail -/

/-- When the operation is over, its result and the state satisfy `Q`. -/
def Leaves (x : Op σ α) (env : Ambient) (s : σ) (Q : Except Failure α → σ → Prop) : Prop :=
  Q (x env s).result (x env s).state

variable {x : Op σ α} {f : α → Op σ β} {Q R : Except Failure α → σ → Prop}
  {P : Except Failure β → σ → Prop}

theorem Leaves.imp (hx : x.Leaves env s R) (h : ∀ r s', R r s' → Q r s') : x.Leaves env s Q :=
  h _ _ hx

theorem Leaves.and (hx : x.Leaves env s Q) (hx' : x.Leaves env s R) :
    x.Leaves env s fun r s' => Q r s' ∧ R r s' := ⟨hx, hx'⟩

theorem Yields.leaves (hx : x.Yields env s a s') (h : Q (.ok a) s') : x.Leaves env s Q := by
  obtain ⟨hresult, rfl⟩ := hx
  rw [Leaves, hresult]
  exact h

/-- A block is over when its first step has failed, or else when the rest of it is over. -/
theorem Leaves.bind (hx : x.Leaves env s R) (hok : ∀ a s', R (.ok a) s' → (f a).Leaves env s' P)
    (herror : ∀ e s', R (.error e) s' → P (.error e) s') : (x >>= f).Leaves env s P := by
  rw [Leaves] at hx ⊢
  rw [bind_run]
  generalize x env s = o at *
  obtain ⟨r, s', events⟩ := o
  cases r with
  | ok a => exact hok a s' hx
  | error e => exact herror e s' hx

/-- A step that does not fail is followed by the rest of the block. -/
theorem Yields.bind_leaves (hx : x.Yields env s a s') (hf : (f a).Leaves env s' P) :
    (x >>= f).Leaves env s P := by
  have hstep : x.Leaves env s fun r t => r = .ok a ∧ t = s' := hx.leaves ⟨rfl, rfl⟩
  refine hstep.bind ?_ ?_
  · rintro b t ⟨hb, rfl⟩
    cases hb
    exact hf
  · rintro e t ⟨he, -⟩
    exact absurd he (by simp)

/-- What is so when an operation is over: one thing if it is done, another if it has failed. -/
def Ends (done : σ → Prop) (failed : Failure → σ → Prop) : Except Failure α → σ → Prop
  | .ok _, s => done s
  | .error e, s => failed e s

/-- A run over a list, told by what is so while the rest of the list is still to come. -/
theorem foldl_leaves {g : β → α → Op σ β} {I : List α → σ → Prop} {F : Failure → σ → Prop}
    (hstep : ∀ b a l s, I (a :: l) s → (g b a).Leaves env s (Ends (I l) F)) (b : β) {l : List α}
    (h : I l s) : (foldl g b l).Leaves env s (Ends (I []) F) := by
  induction l generalizing b s with
  | nil => exact (yields_pure b).leaves h
  | cons a l ih =>
    rw [foldl_cons]
    exact (hstep b a l s h).bind (fun b' _ h' => ih b' h') fun _ _ hfailed => hfailed

/-- Answering in another form leaves the state as it is. -/
theorem Leaves.then_pure {S : σ → Prop} (hx : x.Leaves env s fun _ s' => S s') (g : α → β) :
    (x >>= fun a => pure (g a) : Op σ β).Leaves env s fun _ s' => S s' :=
  hx.bind (fun _ _ h => h) fun _ _ h => h

/-- What is tried gives its result or its failure and does not fail itself. -/
theorem Leaves.attempt (hx : x.Leaves env s R) :
    (attempt x).Leaves env s fun r s' => ∃ r', r = .ok r' ∧ R r' s' := ⟨_, rfl, hx⟩

theorem Leaves.holding {v : Value} (hx : x.Leaves (env.also v) s R) :
    (holding v x).Leaves env s R := hx

end Op

end SoftTier
