import SoftTier.Store.Table

/-!
# A base store under observation

`Probe` is a table that records the calls it receives, that fails where it is told to, and that can
block a key: a lookup that finds nothing blocks the key until it is next written or removed.

- `Faults`: which call fails, and how, told from the number of calls before it and the call itself.
- `Probe.call`: how every operation starts: the call is recorded, and a failing one does no more.
-/

namespace SoftTier

/-- The failures that a store will show: of the `n`-th call, counted from zero, and what it asks. -/
abbrev Faults (κ : Type) := Nat → Call κ → Option Failure

namespace Faults

variable {κ : Type}

/-- No call fails. -/
def never : Faults κ := fun _ _ => none

/-- A rule that makes calls fail: all of one operation, or those on one key. -/
structure Rule (κ : Type) where
  verb : String
  key : Option κ

/-- Whether the rule speaks of this call. -/
def Rule.covers [DecidableEq κ] (r : Rule κ) (c : Call κ) : Bool :=
  r.verb == c.verb && (r.key.isNone || r.key == c.key?)

/-- A call fails when some rule speaks of it. -/
def ofRules [DecidableEq κ] (rules : List (Rule κ)) : Faults κ := fun _ c =>
  if rules.any (·.covers c) then some (.backend (c.verb ++ " failed")) else none

end Faults

/-- A table that records its calls, can fail and can block keys. -/
structure Probe (κ ν : Type) [Ord κ] where
  table : Table κ ν
  /-- Whether a lookup that finds nothing blocks the key. -/
  blocking : Bool
  /-- Whether a lock is offered. -/
  lockable : Bool
  faults : Faults κ
  /-- The keys blocked at present. -/
  blocked : List κ
  /-- The calls recorded so far, the last one first. -/
  received : List (Call κ)
  /-- The number of calls since the store was made. -/
  count : Nat

namespace Probe

variable {κ ν : Type} [DecidableEq κ] [Ord κ] [Std.TransOrd κ]

/-- A probe around a table with no entries. -/
def named (name : String) (blocking lockable : Bool) (faults : Faults κ) : Probe κ ν :=
  ⟨.named name, blocking, lockable, faults, [], [], 0⟩

/-- Records a call and fails if it is to fail. -/
def call (c : Call κ) : Op (Probe κ ν) Unit := fun _ p =>
  let result := match p.faults p.count c with
    | some e => .error e
    | none => .ok ()
  ⟨result, { p with received := c :: p.received, count := p.count + 1 }, []⟩

/-- Runs an operation on the table inside. -/
def inside {α : Type} (x : Op (Table κ ν) α) : Op (Probe κ ν) α := fun env p =>
  match p with
  | ⟨table, blocking, lockable, faults, blocked, received, count⟩ =>
    let o := x env table
    ⟨o.result, ⟨o.state, blocking, lockable, faults, blocked, received, count⟩, o.events⟩

/-- Unblocks a key. -/
def unblock (k : κ) (p : Probe κ ν) : Probe κ ν := { p with blocked := p.blocked.filter (· ≠ k) }

/-- Blocks a key, if the store blocks at all. -/
def block (k : κ) (p : Probe κ ν) : Probe κ ν :=
  if p.blocking then { p with blocked := p.blocked.insert k } else p

instance [Keeper ν] : Keeper (Probe κ ν) := ⟨fun p => keeps p.table⟩

instance [Keeper ν] : Store (Probe κ ν) κ ν where
  id p := p.table.name
  hasLock p := p.lockable
  size := do
    call .size
    inside Store.size
  write k a := do
    call (.write k)
    Op.update (unblock k)
    inside (Store.write k a)
  writeMiss k := do
    call (.writeMiss k)
    Op.update (unblock k)
    inside (Store.writeMiss k)
  read k := do
    call (.read k)
    let found ← inside (Store.read k)
    if found.isNone then
      Op.update (block k)
    return found
  erase k := do
    call (.erase k)
    Op.update (unblock k)
    inside (Store.erase k)
  clear := do
    call .clear
    inside Store.clear

end Probe

end SoftTier
