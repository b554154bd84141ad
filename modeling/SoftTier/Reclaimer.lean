import SoftTier.Assoc
import SoftTier.Op
import SoftTier.Recency

/-!
# Which values may be reclaimed

A reclaimer decides how long values that nobody else holds stay alive. It holds the values used most
recently, up to a bound (*soft retention*). A value that is pushed out of retention is *released*:
it lives on only while someone else holds it. A *sweep* looks through the released values, drops
those that nobody holds any more and *posts* their keys, for the owner of the entries to take them
out.

- `Reclaimer`: the retained and the released values, the posted keys, and the number reclaimed so
  far.
- `Reclaimer.alive`: a value is alive while the reclaimer retains it or something outside holds it.
- `retain`, `refresh`, `forget`: what the owner tells the reclaimer about its entries.
- `sweep`, `shrink`, `setCapacity`: when values are given up.
- `next?`: the keys posted, without those that have a live value again.
-/

namespace SoftTier

/-- Soft retention, the values released from it, and the keys of those that died. -/
structure Reclaimer (κ : Type) [Ord κ] where
  /-- The values kept alive, by the time they were last used. -/
  retained : Recency κ Value
  /-- Values no longer kept alive, one at most under each key. -/
  released : Assoc κ Value
  /-- The keys of reclaimed values, the one posted first in front. -/
  posted : List κ
  /-- The number of values reclaimed so far. -/
  reclaimed : UInt64

namespace Reclaimer

variable {κ : Type} [DecidableEq κ] [Ord κ] [Std.TransOrd κ]

/-- A reclaimer that retains up to `softCapacity` values. -/
def ofCapacity (softCapacity : Nat) : Except Fault (Reclaimer κ) :=
  if softCapacity = 0 then .error (.failure .softCapacityZero)
  else
    match Recency.ofCapacity softCapacity with
    | .ok retained => .ok ⟨retained, [], [], 0⟩
    | .error v => .error (.violation v)

/-- The number of values retained. -/
def retainedSize (r : Reclaimer κ) : Nat := r.retained.size

/-- The number of values released and not yet reclaimed. -/
def releasedSize (r : Reclaimer κ) : Nat := r.released.length

/-- The bound of soft retention. -/
def softCapacity (r : Reclaimer κ) : Nat := r.retained.capacity

/-- A reclaimer keeps the values that it retains. -/
instance : Keeper (Reclaimer κ) := ⟨fun r v => r.retained.any (· == v)⟩

/-- Whether a value is alive: something outside holds it or the reclaimer retains it. -/
def alive (env : Ambient) (r : Reclaimer κ) (v : Value) : Bool := env.held v || keeps r v

/-- Reclaims the released values that are dead and posts their keys; tells how many there were. -/
def sweep (env : Ambient) (r : Reclaimer κ) : Nat × Reclaimer κ :=
  let (live, dead) := (env.visit.arrange r.released).partition fun e => r.alive env e.2
  (dead.length, { r with
    released := live
    posted := r.posted ++ dead.map (·.1)
    reclaimed := r.reclaimed + dead.length.toUInt64 })

/-- Notes that entries were pushed out of retention. -/
def release (entries : List (κ × Value)) (r : Reclaimer κ) : Reclaimer κ :=
  { r with released := entries.foldl (fun l e => Assoc.insert e.1 e.2 l) r.released }

/-- Retains a value under a key, as the one used last. What was known about the key before is
forgotten. If that pushes a value out, a sweep follows; tells how many it reclaimed. -/
def retain (env : Ambient) (k : κ) (v : Value) (r : Reclaimer κ) : Nat × Reclaimer κ :=
  let (evicted, retained) := r.retained.insert k v
  let r := { r with retained, released := Assoc.erase k r.released }
  match evicted with
  | none => (0, r)
  | some e => (r.release [e]).sweep env

/-- Notes that a value was just read. One that had been released is retained again. -/
def refresh (env : Ambient) (k : κ) (v : Value) (r : Reclaimer κ) : Nat × Reclaimer κ :=
  let (found, retained) := r.retained.touch k
  let r := { r with retained }
  if found then (0, r) else r.retain env k v

/-- Stops following a key. Nothing will be posted for it. -/
def forget (k : κ) (r : Reclaimer κ) : Reclaimer κ :=
  { r with retained := (r.retained.erase k).2, released := Assoc.erase k r.released }

/-- Gives up retention, the values unused for longest first, until `target` values are left, and
sweeps; tells how many were reclaimed. -/
def shrink (env : Ambient) (target : Nat) (r : Reclaimer κ) : Nat × Reclaimer κ :=
  let (evicted, retained) := r.retained.trim target
  ({ r with retained }.release evicted).sweep env

/-- Changes the bound of soft retention. If values no longer fit, a sweep follows; tells how many it
reclaimed. -/
def setCapacity (env : Ambient) (softCapacity : Nat) (r : Reclaimer κ) :
    Except Fault (Nat × Reclaimer κ) :=
  if softCapacity = 0 then .error (.failure .softCapacityZero)
  else
    match r.retained.resize softCapacity with
    | .error v => .error (.violation v)
    | .ok ([], retained) => .ok (0, { r with retained })
    | .ok (evicted, retained) => .ok (({ r with retained }.release evicted).sweep env)

/-- Stops following every key. Keys already posted stay posted. -/
def reset (r : Reclaimer κ) : Reclaimer κ :=
  { r with retained := r.retained.clear, released := [] }

/-- Whether the key has a live value that the reclaimer follows. -/
def hasLive (env : Ambient) (k : κ) (r : Reclaimer κ) : Bool :=
  r.retained.contains k || (Assoc.get? k r.released).any (r.alive env)

/-- The first posted key without a live value. It and the keys before it are taken off. -/
def next? (env : Ambient) (r : Reclaimer κ) : Option κ × Reclaimer κ :=
  match r.posted.dropWhile (r.hasLive env) with
  | [] => (none, { r with posted := [] })
  | k :: posted => (some k, { r with posted })

end Reclaimer

end SoftTier
