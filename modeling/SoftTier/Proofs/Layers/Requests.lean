import SoftTier.Proofs.Session.Sharing

/-!
# Requests and their log

A request is what one can ask of any store. `Monitored` puts a log between a store and whoever asks
it: every call that the store was asked for, and whether it failed, gave a value or gave none.

- `Request`: the six requests.
- `Log`: calls and what came of them, the latest first.
- `Monitored`: a store and the log of its calls.
-/

namespace SoftTier

/-- What can be asked of a store. -/
inductive Request (κ ν : Type) where
  | size
  | write (k : κ) (a : ν)
  | writeMiss (k : κ)
  | read (k : κ)
  | erase (k : κ)
  | clear

/-- Asks a store. -/
def Request.perform {σ κ ν : Type} [Store σ κ ν] : Request κ ν → Op σ (Sharing.Answer ν)
  | .size => do return .count (← Store.size)
  | .write k a => do
    Store.write k a
    return .done
  | .writeMiss k => do
    Store.writeMiss k
    return .done
  | .read k => do return .found (← Store.read k)
  | .erase k => do return .found (← Store.erase k)
  | .clear => do
    Store.clear
    return .done

/-- Calls on a store, the latest first: whether each of them failed, and if not, whether it gave a
value. -/
abbrev Log (κ : Type) := List (Call κ × Except Failure Bool)

/-- A store, and the log of the calls on it. -/
structure Monitored (κ σ : Type) where
  below : σ
  log : Log κ := []

namespace Monitored

variable {σ κ ν α : Type}

/-- Runs an operation on the store and logs it as a call; `gave` tells whether a result is a
value. -/
def watch (call : Call κ) (gave : α → Bool) (x : Op σ α) : Op (Monitored κ σ) α := fun env s =>
  let o := x env s.below
  ⟨o.result, ⟨o.state, (call, o.result.map gave) :: s.log⟩, o.events⟩

instance [Keeper σ] : Keeper (Monitored κ σ) := ⟨fun s => keeps s.below⟩

instance [Store σ κ ν] : Store (Monitored κ σ) κ ν where
  id s := Store.id s.below
  hasLock s := Store.hasLock s.below
  size := watch .size (fun _ => false) Store.size
  write k a := watch (.write k) (fun _ => false) (Store.write k a)
  writeMiss k := watch (.writeMiss k) (fun _ => false) (Store.writeMiss k)
  read k := watch (.read k) Option.isSome (Store.read k)
  erase k := watch (.erase k) Option.isSome (Store.erase k)
  clear := watch .clear (fun _ => false) Store.clear

end Monitored

end SoftTier
