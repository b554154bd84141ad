import SoftTier.Event
import SoftTier.Value

/-!
# Operations on a store

An operation acts on the state of one store, but what it does can depend on two things around it:
which values are kept alive elsewhere, and in which order a collection without an order of its own
is visited. Both come in as `Ambient`, so a statement about an operation can speak of every
circumstance.

- `Visit`: an order of visiting; it rearranges any list and loses nothing.
- `Outcome`: what an operation leaves: its result or failure, the state, and the events reported. A
  failure does not undo what was done before it.
- `Op σ α`: an operation on a state of type `σ`. The steps of a `do` block run in turn, and the
  first failure ends the block.
-/

namespace SoftTier

/-- An order in which to visit the entries of a collection that has none. -/
structure Visit where
  /-- The entries in the order of the visit. -/
  arrange : {α : Type} → List α → List α
  /-- Every entry is visited once. -/
  arrange_perm : ∀ {α : Type} (l : List α), (arrange l).Perm l

/-- Visits the entries in the order in which they are listed. -/
def Visit.asListed : Visit := ⟨fun l => l, fun l => .refl l⟩

/-- What surrounds an operation. -/
structure Ambient where
  /-- The values kept alive by something outside the state that the operation works on. -/
  held : Value → Bool
  /-- The order in which the operation visits entries that have no order. -/
  visit : Visit

namespace Ambient

/-- Nothing is kept outside, and entries are visited as listed. -/
def alone : Ambient := ⟨fun _ => false, .asListed⟩

/-- The surroundings of an operation on a part of the state: what the rest keeps is kept too. -/
def also {α : Type} [Keeper α] (env : Ambient) (rest : α) : Ambient :=
  { env with held := fun v => env.held v || keeps rest v }

@[simp] theorem held_also {α : Type} [Keeper α] (env : Ambient) (rest : α) (v : Value) :
    (env.also rest).held v = (env.held v || keeps rest v) := rfl

@[simp] theorem visit_also {α : Type} [Keeper α] (env : Ambient) (rest : α) :
    (env.also rest).visit = env.visit := rfl

end Ambient

/-- What an operation leaves behind. -/
structure Outcome (σ α : Type) where
  result : Except Failure α
  state : σ
  events : List Event := []

/-- An operation on a state. -/
def Op (σ α : Type) := Ambient → σ → Outcome σ α

namespace Op

variable {σ τ α β : Type}

/-- Gives a result and does nothing. -/
protected def pure (a : α) : Op σ α := fun _ s => ⟨.ok a, s, []⟩

/-- Runs one operation and then the one its result calls for, unless the first fails. -/
protected def bind (x : Op σ α) (f : α → Op σ β) : Op σ β := fun env s =>
  match x env s with
  | ⟨.ok a, s', events⟩ =>
    let o := f a env s'
    ⟨o.result, o.state, events ++ o.events⟩
  | ⟨.error e, s', events⟩ => ⟨.error e, s', events⟩

instance : Monad (Op σ) where
  pure := Op.pure
  bind := Op.bind

/-- Fails, and does nothing else. -/
def fail (e : Failure) : Op σ α := fun _ s => ⟨.error e, s, []⟩

/-- Runs an operation and gives its result or its failure; never fails itself. -/
def attempt (x : Op σ α) : Op σ (Except Failure α) := fun env s =>
  let o := x env s
  ⟨.ok o.result, o.state, o.events⟩

/-- Reports an event. -/
def emit (e : Event) : Op σ Unit := fun _ s => ⟨.ok (), s, [e]⟩

/-- The entries of a collection without an order, as this operation visits them. -/
def visiting (l : List α) : Op σ (List α) := fun env s => ⟨.ok (env.visit.arrange l), s, []⟩

/-- Runs an operation while a value is kept alive by the caller. -/
def holding (v : Value) (x : Op σ α) : Op σ α := fun env s => x (env.also v) s

/-- Reads something off the state. -/
def read (f : σ → α) : Op σ α := fun _ s => ⟨.ok (f s), s, []⟩

/-- Changes the state. -/
def update (f : σ → σ) : Op σ Unit := fun _ s => ⟨.ok (), f s, []⟩

/-- Takes the members of a list in turn, handing on a running result, up to the first failure.
`reported` is what was reported before, the latest first. -/
def foldlFrom (f : β → α → Op σ β) (env : Ambient) :
    β → List α → σ → (reported : List Event) → Outcome σ β
  | b, [], s, reported => ⟨.ok b, s, reported.reverse⟩
  | b, a :: l, s, reported =>
    match f b a env s with
    | ⟨.ok b', s', events⟩ => foldlFrom f env b' l s' (events.reverseAux reported)
    | ⟨.error e, s', events⟩ => ⟨.error e, s', (events.reverseAux reported).reverse⟩

/-- Takes the members of a list in turn, handing on a running result, up to the first failure. -/
def foldl (f : β → α → Op σ β) (b : β) (l : List α) : Op σ β := fun env s =>
  foldlFrom f env b l s []

/-- Runs an operation on every member of a list in turn, up to the first failure. -/
def each (f : α → Op σ Unit) (l : List α) : Op σ Unit := foldl (fun _ a => f a) () l

/-! ## How the steps of an operation run -/

theorem pure_run (a : α) (env : Ambient) (s : σ) : (pure a : Op σ α) env s = ⟨.ok a, s, []⟩ := rfl

theorem bind_run (x : Op σ α) (f : α → Op σ β) (env : Ambient) (s : σ) :
    (x >>= f) env s =
      match x env s with
      | ⟨.ok a, s', events⟩ =>
        ⟨(f a env s').result, (f a env s').state, events ++ (f a env s').events⟩
      | ⟨.error e, s', events⟩ => ⟨.error e, s', events⟩ := rfl

instance : LawfulMonad (Op σ) :=
  .mk' (Op σ)
    (fun x => by
      funext env s
      show (x >>= fun a => pure a) env s = x env s
      rw [bind_run]
      split <;> simp_all [pure_run])
    (fun a f => by
      funext env s
      simp [bind_run, pure_run])
    (fun x f g => by
      funext env s
      simp only [bind_run]
      cases x env s with
      | mk result s' events =>
        cases result with
        | error e => rfl
        | ok a =>
          simp only
          cases f a env s' with
          | mk result s'' events' =>
            cases result with
            | error e => simp
            | ok b => simp)

/-- What was reported before stands in front of what is reported from here on. -/
theorem foldlFrom_eq (f : β → α → Op σ β) (env : Ambient) (b : β) (l : List α) (s : σ)
    (reported : List Event) :
    foldlFrom f env b l s reported =
      { foldlFrom f env b l s [] with
        events := reported.reverse ++ (foldlFrom f env b l s []).events } := by
  induction l generalizing b s reported with
  | nil => simp [foldlFrom]
  | cons a l ih =>
    simp only [foldlFrom]
    split
    · rename_i b' s' events _
      rw [ih b' s' (events.reverseAux reported), ih b' s' (events.reverseAux [])]
      simp [List.reverseAux_eq]
    · simp [List.reverseAux_eq]

@[simp] theorem foldl_nil (f : β → α → Op σ β) (b : β) : foldl f b [] = pure b := rfl

/-- A run over a list is a run of its first member and then of the rest. -/
theorem foldl_cons (f : β → α → Op σ β) (b : β) (a : α) (l : List α) :
    foldl f b (a :: l) = f b a >>= fun b' => foldl f b' l := by
  funext env s
  rw [bind_run]
  simp only [foldl, foldlFrom]
  split
  · rename_i b' s' events _
    rw [foldlFrom_eq]
    simp [List.reverseAux_eq]
  · simp [List.reverseAux_eq]

@[simp] theorem each_nil (f : α → Op σ Unit) : each f [] = pure () := rfl

theorem each_cons (f : α → Op σ Unit) (a : α) (l : List α) :
    each f (a :: l) = f a >>= fun _ => each f l := foldl_cons ..

end Op

end SoftTier
