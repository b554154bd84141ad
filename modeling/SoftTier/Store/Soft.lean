import SoftTier.Reclaimer
import SoftTier.Settings
import SoftTier.Store

/-!
# The soft layer

A soft layer lets unused values go. The store below it holds handles, which keep nothing alive, so
an entry can be read only while something else holds its value: soft retention, the pins, or a
caller. The values read last are *pinned*, up to a bound. When values have been reclaimed their keys
are posted, and every operation but a lookup first drains those keys: it takes their entries out of
the store below.

- `Soft`: the pins, the reclaimer and the store below.
- `Soft.drain`: takes the entries of reclaimed values out of the store below.
- the `Store` instance: a soft layer is a store of values over a store of handles.
- `Soft.shrink`, `Soft.sweep`, `Soft.setCapacity`, `Soft.forget`, `Soft.next?`: the reclaimer's
  operations, where the pins hold their values too.
-/

namespace SoftTier

/-- A store of values that may be reclaimed, over a store of their handles. -/
structure Soft (κ σ : Type) [Ord κ] where
  /-- The values read last, the latest first. -/
  pinned : List Value
  /-- How many values are to be pinned. -/
  pinCapacity : Nat
  reclaimer : Reclaimer κ
  below : σ

namespace Soft

variable {κ σ α : Type} [DecidableEq κ] [Ord κ] [Std.TransOrd κ]

/-- A soft layer with nothing pinned or retained. -/
def ofSettings (settings : SoftSettings) (below : σ) : Except Fault (Soft κ σ) :=
  match settings.check with
  | .error e => .error (.failure e)
  | .ok () =>
    match Reclaimer.ofCapacity settings.softCapacity with
    | .error e => .error e
    | .ok reclaimer => .ok ⟨[], settings.pinCapacity, reclaimer, below⟩

/-- Changes how many values are to be pinned. Pins too many go at the next pin, not now. -/
def setPinCapacity (n : Nat) (s : Soft κ σ) : Soft κ σ := { s with pinCapacity := n }

/-- Whether this very value is pinned. -/
def isPinned (v : Value) (s : Soft κ σ) : Bool := s.pinned.contains v

/-- Pins a value, as the one read last, and drops the oldest pins that do not fit. -/
def pin (v : Value) (s : Soft κ σ) : Soft κ σ :=
  { s with pinned := (v :: s.pinned).take s.pinCapacity }

/-- Whether a value is alive. -/
def alive (env : Ambient) (s : Soft κ σ) (v : Value) : Bool :=
  s.reclaimer.alive (env.also s.pinned) v

/-- A soft layer keeps what it retains and what it has pinned. -/
instance [Keeper σ] : Keeper (Soft κ σ) :=
  ⟨fun s v => keeps s.pinned v || keeps s.reclaimer v || keeps s.below v⟩

/-! ## The parts -/

/-- Runs an operation on the store below. -/
def onBelow (x : Op σ α) : Op (Soft κ σ) α := fun env s =>
  match s with
  | ⟨pinned, pinCapacity, reclaimer, below⟩ =>
    let o := x ((env.also pinned).also reclaimer) below
    ⟨o.result, ⟨pinned, pinCapacity, reclaimer, o.state⟩, o.events⟩

/-- Reads something off the reclaimer, for which the pins are held outside. -/
def ask (f : Ambient → Reclaimer κ → α) : Op (Soft κ σ) α := fun env s =>
  ⟨.ok (f (env.also s.pinned) s.reclaimer), s, []⟩

/-- Changes the reclaimer, for which the pins are held outside. -/
def tell (f : Ambient → Reclaimer κ → α × Reclaimer κ) : Op (Soft κ σ) α := fun env s =>
  match s with
  | ⟨pinned, pinCapacity, reclaimer, below⟩ =>
    let (a, reclaimer) := f (env.also pinned) reclaimer
    ⟨.ok a, ⟨pinned, pinCapacity, reclaimer, below⟩, []⟩

/-- Changes the reclaimer in a way that can end in a sweep, and reports a sweep that reclaimed
something. -/
def sweeping (f : Ambient → Reclaimer κ → Nat × Reclaimer κ) : Op (Soft κ σ) Nat := do
  let reclaimed ← tell f
  if 0 < reclaimed then
    Op.emit (.collected reclaimed)
  return reclaimed

/-! ## Reclaiming -/

/-- Reclaims the released values that are dead; tells how many. -/
def sweep : Op (Soft κ σ) Nat := sweeping Reclaimer.sweep

/-- Gives up retention down to `target` values and sweeps; tells how many were reclaimed. -/
def shrink (target : Nat) : Op (Soft κ σ) Nat := sweeping fun env r => r.shrink env target

/-- Changes the bound of soft retention, if that is one it can run with. -/
def setCapacity (n : Nat) : Op (Soft κ σ) (Except Fault Unit) := do
  let reclaimed : Except Fault Nat ← tell fun env r =>
    match r.setCapacity env n with
    | .ok (reclaimed, r) => (.ok reclaimed, r)
    | .error e => (.error e, r)
  match reclaimed with
  | .error e => return .error e
  | .ok reclaimed =>
    if 0 < reclaimed then
      Op.emit (.collected reclaimed)
    return .ok ()

/-- Retains a value under a key, as the one used last. -/
def retain (k : κ) (v : Value) : Op (Soft κ σ) Unit := do
  let _ ← sweeping fun env r => r.retain env k v

/-- Notes that a value was just read. -/
def refresh (k : κ) (v : Value) : Op (Soft κ σ) Unit := do
  let _ ← sweeping fun env r => r.refresh env k v

/-- Stops following a key. -/
def forget (k : κ) : Op (Soft κ σ) Unit := tell fun _ r => ((), r.forget k)

/-- Takes the first posted key without a live value. -/
def next? : Op (Soft κ σ) (Option κ) := tell fun env r => r.next? env

variable [Store σ κ Handle]

/-- Takes the first posted key `k` off and, unless it has a live value, its entry out of the store
below; `removed` counts the entries taken out. -/
def drainKey (removed : Nat) (k : κ) : Op (Soft κ σ) Nat := do
  tell fun _ r => ((), { r with posted := r.posted.tail })
  if ← ask fun env r => r.hasLive env k then
    return removed
  else
    let _ ← onBelow (Store.erase k)
    return removed + 1

/-- Takes the entries of reclaimed values out of the store below. -/
def drain : Op (Soft κ σ) Unit := do
  let removed ← Op.foldl drainKey 0 (← ask fun _ r => r.posted)
  if 0 < removed then
    let name ← Op.read fun s => Store.id s.below
    Op.emit (.drained name removed)

instance : Store (Soft κ σ) κ Value where
  id s := Store.id s.below
  hasLock _ := false
  size := do
    drain
    onBelow Store.size
  write k v := Op.holding v do
    drain
    retain k v
    onBelow (Store.write k (.ofValue v))
  writeMiss k := do
    drain
    forget k
    onBelow (Store.write k .dead)
  read k := do
    match ← onBelow (Store.read k) with
    | none => return none
    | some h =>
      match h.upgrade (← ask fun env r => r.alive env) with
      | some v =>
        refresh k v
        Op.update (pin v)
        return some v
      | none =>
        forget k
        let _ ← onBelow (Store.erase k)
        return none
  erase k := do
    drain
    let previous ← onBelow (Store.erase k)
    let alive ← ask fun env r => r.alive env
    forget k
    return previous.bind (·.upgrade alive)
  clear := do
    Op.update fun s => { s with pinned := [] }
    drain
    tell fun _ r => ((), r.reset)
    onBelow Store.clear

end Soft

end SoftTier
