import SoftTier.Settings
import SoftTier.Stack
import SoftTier.Store.Soft
import SoftTier.Store.Table
import SoftTier.UnitOfWork

/-!
# A cache under load

A service is the cache of an application: a base store, a soft layer over it, and perhaps a metered
layer on top. Traffic is sessions against it, one after the other. Each session looks keys up, loads
a row for every key it finds no value for, and commits or rolls back; between sessions the memory
may come under pressure, and then all soft retention is given up.

- `Service`: the layers, with the tag of the next value to be made.
- `Traffic`, `Summary`: how much load, and what came of it.
- `Service.runSession`, `Service.run`: the run of a session and of all of them.
-/

namespace SoftTier

/-- The soft layer of a service and what is below it. -/
abbrev Service.Core := Soft Nat (Table Nat Handle)

/-- A cache: a base store, a soft layer and the layers on top of it. -/
structure Service where
  layers : List Layer
  stack : Stack Nat Value Service.Core layers
  /-- The tag of the next value that is made. -/
  nextTag : Nat

/-- How much traffic a cache is put under. -/
structure Traffic where
  sessions : Nat := 1000
  /-- The number of keys that the sessions look up; none counts as one. -/
  keys : Nat := 500
  /-- The lookups in a session. -/
  reads : Nat := 20
  /-- Every so many sessions one rolls back; 0 for never. -/
  rollbackEvery : Nat := 10
  /-- Every so many sessions the memory comes under pressure; 0 for never. -/
  pressureEvery : Nat := 100

/-- What came of the traffic. -/
structure Summary where
  commits : Nat := 0
  rollbacks : Nat := 0
  loads : Nat := 0
  reclaimed : UInt64 := 0
  size : Nat := 0
  pinned : Nat := 0
  hitRatio : Option Float := none

namespace Traffic

/-- The key that a session looks up in one of its lookups. -/
def key (t : Traffic) (session read : Nat) : Nat := (session * 7 + read * 13) % max t.keys 1

/-- Whether a session rolls back. -/
def rollsBack (t : Traffic) (session : Nat) : Bool :=
  0 < t.rollbackEvery && session % t.rollbackEvery == 0

/-- Whether the memory comes under pressure after a session. -/
def pressesAfter (t : Traffic) (session : Nat) : Bool :=
  0 < t.pressureEvery && (session + 1) % t.pressureEvery == 0

end Traffic

namespace Service

/-- The layers on top of the soft layer. -/
def layersOf (settings : ServiceSettings) : List Layer :=
  if settings.metered then [.metered] else []

/-- A service with nothing in it. -/
def ofSettings (settings : ServiceSettings) : Except Fault Service :=
  match Soft.ofSettings settings.soft (Table.named settings.id) with
  | .error e => .error e
  | .ok core => .ok ⟨layersOf settings, .fresh core _, 0⟩

/-- The soft layer. -/
def soft (c : Service) : Core := c.stack.base

/-- The counters, if requests are counted. -/
def tally? (c : Service) : Option Tally := c.stack.tallies.head?

/-- Runs an operation on the layers. -/
def onStack {α : Type} (x : {layers : List Layer} → Op (Stack Nat Value Core layers) α) :
    Op Service α := fun env c =>
  match c with
  | ⟨layers, stack, nextTag⟩ =>
    let o := x env stack
    ⟨o.result, ⟨layers, o.state, nextTag⟩, o.events⟩

/-- What a session works on: a unit of work with one cache. -/
abbrev Desk (σ : Type) := UnitOfWork.Desk Nat Value σ 1

/-- The row that is loaded for a key, as a value with the given tag. -/
def row (tag key : Nat) : Value := ⟨tag, "row-" ++ toString key⟩

/-- One lookup of a session, and the load of the row if there is no value; `loads` counts the rows
that the session has loaded. -/
def lookUp {σ : Type} [Store σ Nat Value] (t : Traffic) (session tag loads read : Nat) :
    Op (Desk σ) Nat := do
  let key := t.key session read
  match ← UnitOfWork.Desk.read 0 key with
  | some _ => return loads
  | none =>
    UnitOfWork.Desk.write 0 key (row (tag + loads) key)
    return loads + 1

/-- The lookups of a session and its end; gives the number of rows loaded. -/
def session {σ : Type} [Store σ Nat Value] (t : Traffic) (session tag : Nat) :
    Op (Desk σ) Nat := do
  let loads ← Op.foldl (lookUp t session tag) 0 (List.range t.reads)
  if t.rollsBack session then
    UnitOfWork.Desk.rollback
  else
    UnitOfWork.Desk.commit
  return loads

/-- Runs a session; gives the number of rows loaded. -/
def runSession (t : Traffic) (i : Nat) : Op Service Nat := fun env c =>
  match c with
  | ⟨layers, stack, nextTag⟩ =>
    let o := session t i nextTag env ⟨[], #v[stack]⟩
    let loads := match o.result with
      | .ok loads => loads
      | .error _ => t.reads
    ⟨o.result, ⟨layers, o.state.shelf.nth 0, nextTag + loads⟩, o.events⟩

/-- Runs a session and what follows it, and counts them in the summary. -/
def runStep (t : Traffic) (summary : Summary) (i : Nat) : Op Service Summary := do
  let loads ← runSession t i
  if t.pressesAfter i then
    let _ ← onStack (Stack.onBase (Soft.shrink 0) _)
  let summary := { summary with loads := summary.loads + loads }
  return if t.rollsBack i then { summary with rollbacks := summary.rollbacks + 1 }
    else { summary with commits := summary.commits + 1 }

/-- Runs the traffic. -/
def run (t : Traffic) : Op Service Summary := do
  let summary ← Op.foldl (runStep t) {} (List.range t.sessions)
  let reclaimed ← Op.read fun c => c.soft.reclaimer.reclaimed
  let size ← onStack Store.size
  let c ← Op.read id
  return { summary with
    reclaimed
    size
    pinned := c.soft.pinned.length
    hitRatio := c.tally?.map Tally.hitRatio }

end Service

end SoftTier
