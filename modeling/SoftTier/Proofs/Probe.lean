import SoftTier.Proofs.Op
import SoftTier.Proofs.Table
import SoftTier.Store.Probe

/-!
# How a store under observation answers

Each request to a store under observation is one call. If the call is to fail it is recorded and
nothing else happens; otherwise the request is served as by the table inside, and the key it names
is blocked or freed.

- `Probe.Answers`: what a request comes to in either case.
- `Probe.read_answers`, `Probe.write_answers` and so on: one statement for each request.
-/

namespace SoftTier

namespace Probe

variable {κ ν α : Type} [Ord κ] {env : Ambient} {p p' : Probe κ ν} {c : Call κ} {a : α}

/-- The store when it has recorded a call. -/
def noted (c : Call κ) (p : Probe κ ν) : Probe κ ν :=
  { p with received := c :: p.received, count := p.count + 1 }

/-- A request that is the call `c`. If that is to fail, the request fails and the call is recorded;
if not, it yields `a` and the store `p'`. -/
structure Answers (x : Op (Probe κ ν) α) (c : Call κ) (env : Ambient) (p : Probe κ ν) (a : α)
    (p' : Probe κ ν) : Prop where
  fails : ∀ e, p.faults p.count c = some e →
    (x env p).result = .error e ∧ (x env p).state = p.noted c
  serves : p.faults p.count c = none → x.Yields env p a p'

theorem Answers.leaves {x : Op (Probe κ ν) α} {Q : Except Failure α → Probe κ ν → Prop}
    (h : Answers x c env p a p')
    (hfails : ∀ e, p.faults p.count c = some e → Q (.error e) (p.noted c))
    (hserves : p.faults p.count c = none → Q (.ok a) p') : x.Leaves env p Q := by
  cases hfault : p.faults p.count c with
  | none => exact (h.serves hfault).leaves (hserves hfault)
  | some e =>
    obtain ⟨hresult, hstate⟩ := h.fails e hfault
    rw [Op.Leaves, hresult, hstate]
    exact hfails e hfault

theorem answers_call {x : Op (Probe κ ν) α} (hx : x.Yields env (p.noted c) a p') :
    Answers (call c >>= fun _ => x) c env p a p' := by
  constructor
  · intro e he
    rw [Op.bind_run, call, he]
    exact ⟨rfl, rfl⟩
  · intro hnone
    have hcall : (call c : Op (Probe κ ν) Unit).Yields env p () (p.noted c) := by
      constructor
      · rw [call, hnone]
      · rfl
    exact hcall.bind hx

theorem inside_yields {x : Op (Table κ ν) α} {t : Table κ ν} (hx : x.Yields env p.table a t) :
    (inside x : Op (Probe κ ν) α).Yields env p a { p with table := t } := by
  obtain ⟨hresult, rfl⟩ := hx
  exact ⟨hresult, rfl⟩

/-! ## Requests -/

variable [DecidableEq κ]

/-- The store when it has put an entry under a key, which frees the key. -/
def stored [Std.TransOrd κ] (k : κ) (entry : Option ν) (p : Probe κ ν) : Probe κ ν :=
  { p.unblock k with table := p.table.put k entry }

/-- The store when it has removed a key, which frees the key. -/
def removed [Std.TransOrd κ] (k : κ) (p : Probe κ ν) : Probe κ ν :=
  { p.unblock k with table := p.table.remove k }

/-- The store when a key has been looked up. -/
def searched [Std.TransOrd κ] (k : κ) (p : Probe κ ν) : Probe κ ν :=
  if (p.table.value? k).isNone then p.block k else p

theorem table_searched [Std.TransOrd κ] (k : κ) (p : Probe κ ν) :
    (p.searched k).table = p.table := by
  rw [searched, block]
  split
  · split <;> rfl
  · rfl

theorem faults_searched [Std.TransOrd κ] (k : κ) (p : Probe κ ν) :
    (p.searched k).faults = p.faults := by
  rw [searched, block]
  split
  · split <;> rfl
  · rfl

variable [Std.TransOrd κ] [Keeper ν]

theorem size_answers :
    Answers (Store.size : Op (Probe κ ν) Nat) .size env p p.table.entries.size (p.noted .size) :=
  answers_call (inside_yields Table.size_yields)

theorem write_answers (k : κ) (a : ν) :
    Answers (Store.write k a : Op (Probe κ ν) Unit) (.write k) env p ()
      ((p.noted (.write k)).stored k (some a)) :=
  answers_call ((Op.yields_update _).bind (inside_yields (Table.write_yields k a)))

theorem writeMiss_answers (k : κ) :
    Answers (Store.writeMiss k : Op (Probe κ ν) Unit) (.writeMiss k) env p ()
      ((p.noted (.writeMiss k)).stored k none) :=
  answers_call ((Op.yields_update _).bind (inside_yields (Table.writeMiss_yields k)))

theorem read_answers (k : κ) :
    Answers (Store.read k : Op (Probe κ ν) (Option ν)) (.read k) env p (p.table.value? k)
      ((p.noted (.read k)).searched k) := by
  refine answers_call ((inside_yields (Table.read_yields k)).bind ?_)
  rw [searched]
  split
  · exact (Op.yields_update _).bind (Op.yields_pure _)
  · exact Op.yields_pure _

theorem erase_answers (k : κ) :
    Answers (Store.erase k : Op (Probe κ ν) (Option ν)) (.erase k) env p (p.table.value? k)
      ((p.noted (.erase k)).removed k) :=
  answers_call ((Op.yields_update _).bind (inside_yields (Table.erase_yields k)))

theorem clear_answers :
    Answers (Store.clear : Op (Probe κ ν) Unit) .clear env p ()
      { p.noted .clear with table := { p.table with entries := ∅ } } :=
  answers_call (inside_yields Table.clear_yields)

end Probe

end SoftTier
