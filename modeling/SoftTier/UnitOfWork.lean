import SoftTier.Session
import SoftTier.Shelf

/-!
# Units of work

A unit of work touches several shared caches, and ends in all of them at once. It has one session
for each cache that it touched. Caches are told apart by their names: a session stands over the
cache that was first used under its name, and later uses of that name go to the same session.

- `UnitOfWork`: the sessions, by the name of their cache.
- `UnitOfWork.Desk`: a unit of work together with the stores it may touch.
- `Desk.read`, `Desk.write`, `Desk.clear`: work on one cache.
- `Desk.commit`, `Desk.rollback`: ends the sessions one after the other, up to the first failure.
-/

namespace SoftTier

/-- A session of a unit of work: its store's number and its buffer. -/
structure UnitOfWork.Seat (κ ν : Type) (n : Nat) where
  store : Fin n
  buffer : Buffer κ ν

/-- The sessions of a unit of work, by the name of the cache they are for. -/
abbrev UnitOfWork (κ ν : Type) (n : Nat) := Assoc String (UnitOfWork.Seat κ ν n)

namespace UnitOfWork

variable {κ ν σ α : Type} {n : Nat}

/-- What waits in a session stays alive. -/
instance [Keeper ν] : Keeper (Seat κ ν n) := ⟨fun seat => keeps seat.buffer⟩

/-- A unit of work and the stores it may touch. -/
structure Desk (κ ν σ : Type) (n : Nat) where
  work : UnitOfWork κ ν n
  shelf : Shelf σ n

namespace Desk

variable [DecidableEq κ] [Keeper ν] [Store σ κ ν]

/-- Runs an operation on the session with this name; a name without a session is given `seat`. -/
def onSeat (name : String) (seat : Seat κ ν n) (x : Op (Session κ ν σ) α) : Op (Desk κ ν σ n) α :=
  fun env d =>
    let seat := (d.work.get? name).getD seat
    let others : UnitOfWork κ ν n := d.work.erase name
    let o := x (d.shelf.beside seat.store (env.also others)) ⟨seat.buffer, d.shelf.nth seat.store⟩
    ⟨o.result, ⟨d.work.insert name ⟨seat.store, o.state.buffer⟩,
      d.shelf.put seat.store o.state.below⟩, o.events⟩

/-- Runs an operation on the session for the cache with this number, opened on first use. -/
def onCache (i : Fin n) (x : Op (Session κ ν σ) α) : Op (Desk κ ν σ n) α := do
  let name ← Op.read fun d => Store.id (d.shelf.nth i)
  onSeat name ⟨i, {}⟩ x

/-- Looks a key up in a cache. -/
def read (i : Fin n) (k : κ) : Op (Desk κ ν σ n) (Option ν) := onCache i (Store.read k)

/-- Buffers a write to a cache. -/
def write (i : Fin n) (k : κ) (a : ν) : Op (Desk κ ν σ n) Unit := onCache i (Store.write k a)

/-- Has a cache cleared at the commit. -/
def clear (i : Fin n) : Op (Desk κ ν σ n) Unit := onCache i Store.clear

/-- Commits every session in turn. -/
def commit : Op (Desk κ ν σ n) Unit := do
  let seats ← Op.visiting (← Op.read fun d => d.work)
  Op.each (fun e => onSeat e.1 e.2 Session.commit) seats

/-- Rolls every session back in turn. -/
def rollback : Op (Desk κ ν σ n) Unit := do
  let seats ← Op.visiting (← Op.read fun d => d.work)
  Op.each (fun e => onSeat e.1 e.2 Session.rollback) seats

end Desk

end UnitOfWork

end SoftTier
