import SoftTier.Reclaimer
import SoftTier.Scene.Held
import SoftTier.Text

/-!
# A reclaimer and its callers

A reclaimer at work without a cache around it: callers hold on to values and to handles by name, and
everything else about a value is up to the reclaimer.

- `Tracking`: the reclaimer, the values held and the handles kept.
- `Tracking.Step`, `Tracking.Reply`, `Tracking.step`: what callers can do, and what they are told.
-/

namespace SoftTier.Scene

/-- A reclaimer, the values that callers hold and the handles that they keep. -/
structure Tracking where
  reclaimer : Reclaimer String
  held : Held := {}
  handles : Assoc String Handle := []

namespace Tracking

/-- Something to do with a reclaimer. Values and handles go by their names. -/
inductive Step where
  | make (value : Source) (name : String)
  | drop (name : String)
  | same (a b : String)
  | register (key : String) (value : Source) (handle hold : Option String)
  | refresh (key : String) (value : Source) (hold : Option String)
  | forget (key : String)
  | miss (key : String) (handle : Option String)
  | sweep
  | shrink (target : Nat)
  | setCapacity (n : Nat)
  | reset
  | next
  | drain
  | copy (source target : String)
  | inspect (handle : String) (hold : Option String)

/-- What a caller is told. -/
inductive Reply where
  | done
  | flag (b : Bool)
  | count (n : Nat)
  | key (k : Option String)
  | keys (l : List String)
  /-- The text of the value behind a handle, and how the handle shows itself meanwhile. -/
  | handle (value : Option String) (reclaimed : Bool) (shown : String)
  | failed (fault : Fault)

/-- The surroundings of the reclaimer: the values held, and one that is passed in, if any. -/
def ambient (t : Tracking) (passed : Option Value) : Ambient :=
  (Ambient.alone.also t.held).also passed

/-- Keeps a handle, if a name for it is given. -/
def keep (name : Option String) (h : Handle) (t : Tracking) : Tracking :=
  match name with
  | some name => { t with handles := t.handles.insert name h }
  | none => t

/-- Changes the reclaimer. -/
def tell {α : Type} (t : Tracking) (passed : Option Value)
    (f : Ambient → Reclaimer String → α × Reclaimer String) : α × Tracking :=
  let (a, reclaimer) := f (t.ambient passed) t.reclaimer
  (a, { t with reclaimer })

/-- Takes posted keys without a live value until there are none; `fuel` bounds their number. -/
def nextAll (env : Ambient) : (fuel : Nat) → Reclaimer String → List String × Reclaimer String
  | 0, r => ([], r)
  | fuel + 1, r =>
    match r.next? env with
    | (none, r) => ([], r)
    | (some k, r) =>
      let (ks, r) := nextAll env fuel r
      (k :: ks, r)

/-- Does a step, unless it names something that is not there. -/
def step (t : Tracking) : Step → Option (Reply × Tracking)
  | .make value name => do
    let (v, held) ← t.held.take? value
    return (.done, { t with held := held.put name v })
  | .drop name =>
    let (found, held) := t.held.drop name
    some (.flag found, { t with held })
  | .same a b => do return (.flag ((← t.held.get? a) == (← t.held.get? b)), t)
  | .register key value handle hold => do
    let (v, held) ← t.held.take? value
    let (_, t) := { t with held }.tell v fun env r => r.retain env key v
    return (.done, { t with held := t.held.putIf hold v }.keep handle (.ofValue v))
  | .refresh key value hold => do
    let (v, held) ← t.held.take? value
    let (_, t) := { t with held }.tell v fun env r => r.refresh env key v
    return (.done, { t with held := t.held.putIf hold v })
  | .forget key => some (.done, { t with reclaimer := t.reclaimer.forget key })
  | .miss key handle =>
    some (.done, { t with reclaimer := t.reclaimer.forget key }.keep handle .dead)
  | .sweep =>
    let (reclaimed, t) := t.tell none Reclaimer.sweep
    some (.count reclaimed, t)
  | .shrink target =>
    let (reclaimed, t) := t.tell none fun env r => r.shrink env target
    some (.count reclaimed, t)
  | .setCapacity n =>
    match t.reclaimer.setCapacity (t.ambient none) n with
    | .ok (_, reclaimer) => some (.done, { t with reclaimer })
    | .error fault => some (.failed fault, t)
  | .reset => some (.done, { t with reclaimer := t.reclaimer.reset })
  | .next =>
    let (k, t) := t.tell none fun env r => r.next? env
    some (.key k, t)
  | .drain =>
    let (ks, t) := t.tell none fun env r => nextAll env r.posted.length r
    some (.keys (sortTexts ks), t)
  | .copy source target => do return (.done, t.keep target (← t.handles.get? source))
  | .inspect handle hold => do
    let h ← t.handles.get? handle
    let value := h.upgrade fun v => t.reclaimer.alive (t.ambient none) v
    let alive := fun v => t.reclaimer.alive (t.ambient value) v
    let held := match value with
      | some v => t.held.putIf hold v
      | none => t.held
    return (.handle (value.map (·.text)) (h.isReclaimed alive) (h.describe alive), { t with held })

end Tracking

end SoftTier.Scene
