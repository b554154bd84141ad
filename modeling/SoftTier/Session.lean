import SoftTier.Assoc
import SoftTier.Store

/-!
# Sessions

A session stands between one client and a shared store. It buffers what the client writes until the
client commits, and reads through to the store, so it never shows its own unpublished writes. A
blocking store blocks a key when a lookup finds nothing; the session notes such keys as *missed* and
writes to each of them when it ends, which frees it.

- `Buffer`: what a session has gathered since its last end.
- `Session`: a buffer over a store, itself a store.
- `Session.commit`: publishes the buffer: the pending clear first, then the writes, then a miss for
  every missed key that has no write.
- `Session.rollback`: drops the buffer, after a miss for every missed key.
-/

namespace SoftTier

/-- What a session has gathered since it last ended. -/
structure Buffer (κ ν : Type) where
  /-- Whether the store is to be cleared before anything is written. -/
  clears : Bool := false
  /-- The last write to each key; `none` is a miss. -/
  pending : Assoc κ (Option ν) := []
  /-- The keys that a lookup found without a value. -/
  missed : List κ := []

namespace Buffer

variable {κ ν : Type}

/-- A buffer keeps the values that wait in it. -/
instance [Keeper ν] : Keeper (Buffer κ ν) := ⟨fun b => keeps b.pending⟩

/-- Whether ending the session would send the store anything. -/
def isDirty (b : Buffer κ ν) : Bool := b.clears || !b.pending.isEmpty || !b.missed.isEmpty

variable [DecidableEq κ]

/-- Notes a write. -/
def put (k : κ) (entry : Option ν) (b : Buffer κ ν) : Buffer κ ν :=
  { b with pending := b.pending.insert k entry }

/-- Notes that a key was found without a value. -/
def miss (k : κ) (b : Buffer κ ν) : Buffer κ ν := { b with missed := b.missed.insert k }

/-- Notes that everything is to go. Writes before it lose their meaning; missed keys stay blocked
and so stay noted. -/
def wipe (b : Buffer κ ν) : Buffer κ ν := { b with clears := true, pending := [] }

variable {σ : Type} [Store σ κ ν]

/-- Sends the store one write. -/
def send (e : κ × Option ν) : Op σ Unit :=
  match e.2 with
  | some v => Store.write e.1 v
  | none => Store.writeMiss e.1

/-- Sends the store the pending clear and the pending writes. -/
def flush (b : Buffer κ ν) : Op σ Unit := do
  if b.clears then
    Store.clear
  Op.each send (← Op.visiting b.pending)

/-- Sends the store a miss for every missed key that has no pending write. -/
def freeMissed (b : Buffer κ ν) : Op σ Unit := do
  Op.each Store.writeMiss ((← Op.visiting b.missed).filter fun k => !b.pending.has k)

/-- Sends the store a miss for every missed key. -/
def freeAll (b : Buffer κ ν) : Op σ Unit := do
  Op.each Store.writeMiss (← Op.visiting b.missed)

end Buffer

/-- A buffer over a store. -/
structure Session (κ ν σ : Type) where
  buffer : Buffer κ ν
  below : σ

namespace Session

variable {κ ν σ α : Type}

/-- Changes the buffer. -/
def note (f : Buffer κ ν → Buffer κ ν) : Op (Session κ ν σ) Unit :=
  Op.update fun s => { s with buffer := f s.buffer }

variable [Keeper ν]

/-- Runs an operation on the store below. What waits in the buffer stays alive meanwhile. -/
def onBelow (x : Op σ α) : Op (Session κ ν σ) α := fun env s =>
  match s with
  | ⟨buffer, below⟩ =>
    let o := x (env.also buffer) below
    ⟨o.result, ⟨buffer, o.state⟩, o.events⟩

instance [Keeper σ] : Keeper (Session κ ν σ) := ⟨fun s v => keeps s.buffer v || keeps s.below v⟩

variable [DecidableEq κ] [Store σ κ ν]

/-- Nothing is removed within a session, and its clear waits for the commit. -/
instance : Store (Session κ ν σ) κ ν where
  id s := Store.id s.below
  hasLock _ := false
  size := onBelow Store.size
  write k a := note (·.put k (some a))
  writeMiss k := note (·.put k none)
  read k := do
    let found ← onBelow (Store.read k)
    if found.isNone then
      note (·.miss k)
    let cleared ← Op.read fun s => s.buffer.clears
    return if cleared then none else found
  erase _ := return none
  clear := note (·.wipe)

/-- Publishes what the session has gathered and starts afresh. If that fails, the session keeps all
of it, and the missed keys without a write are released all the same. -/
def commit : Op (Session κ ν σ) Unit := do
  let b ← Op.read fun s => s.buffer
  let name ← Op.read fun s => Store.id s.below
  match ← Op.attempt (onBelow b.flush) with
  | .error e =>
    match ← Op.attempt (onBelow b.freeMissed) with
    | .error e' => Op.emit (.releaseFailed name e')
    | .ok () => pure ()
    Op.fail e
  | .ok () =>
    onBelow b.freeMissed
    Op.emit (.committed name b.pending.length b.missed.length b.clears)
    note fun _ => {}

/-- Drops what the session has gathered, releases the keys it missed, and starts afresh. If that
fails, the session keeps all of it. -/
def rollback : Op (Session κ ν σ) Unit := do
  let b ← Op.read fun s => s.buffer
  let name ← Op.read fun s => Store.id s.below
  onBelow b.freeAll
  Op.emit (.rolledBack name b.pending.length b.missed.length)
  note fun _ => {}

end Session

end SoftTier
