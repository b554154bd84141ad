import SoftTier.Scene.Step
import SoftTier.Text

/-!
# What can be seen of a scene

Between two steps an observer sees the sizes of everything, the entries under the keys of interest,
the counters, and the calls that base stores under observation received during the step.

The order of some calls means nothing, since it hangs on the order of visiting, so they are shown
sorted: after the end of a session, every stretch between calls without a key; after any other step,
every stretch of removals.

- `CacheView`, `SoftView`, `EntryView`: what is seen of a cache.
- `Scene.viewCache`, `Scene.sessionViews`, `Scene.workViews`: the views.
-/

namespace SoftTier.Scene

/-- What is seen of an entry. -/
inductive EntryView where
  /-- A value with this text. -/
  | text (s : String)
  | miss
  /-- The handle of a value that is gone. -/
  | dead

/-- What is seen of a soft layer. -/
structure SoftView where
  pinned : Nat
  pinCapacity : Nat
  retained : Nat
  released : Nat
  softCapacity : Nat
  reclaimed : UInt64

/-- What is seen of a cache. -/
structure CacheView where
  size : Nat
  /-- The keys of interest that have an entry, and what is seen of it. -/
  entries : List (String × EntryView)
  soft : Option SoftView
  tallies : List Tally
  /-- The keys that are blocked, if the base store blocks. -/
  blocked : Option (List String)
  /-- The calls that the base store received, if it is under observation. -/
  calls : Option (List (Call String))

/-! ## The order of calls -/

/-- The labels of some calls, where every longest stretch of calls that satisfy `p` is sorted. -/
def labelsSorting (p : Call String → Bool) (calls : List (Call String)) : List String :=
  let (out, stretch) := calls.foldl (fun (out, stretch) c =>
    if p c then (out, c.label :: stretch) else (out ++ sortTexts stretch ++ [c.label], [])) ([], [])
  out ++ sortTexts stretch

/-- Whether a step ends sessions. -/
def Step.endsSessions : Step → Bool
  | commit _ | rollback _ | workCommit _ | workRollback _ => true
  | _ => false

/-- The labels of the calls received during a step, where the order that means nothing is sorted
out. -/
def Step.labels (step : Step) (calls : List (Call String)) : List String :=
  if step.endsSessions then labelsSorting (fun c => c.key?.isSome) calls
  else labelsSorting (fun c => c.verb == "remove") calls

/-! ## Views -/

/-- What is seen of the entry under a key of a base store. -/
def viewEntry {ν : Type} (view : ν → EntryView) (key : String) (b : Base ν) :
    Option (String × EntryView) :=
  b.entries.entries[key]?.map fun
    | some a => (key, view a)
    | none => (key, .miss)

/-- What is seen of a value. -/
def viewValue (v : Value) : EntryView := .text v.text

/-- What is seen of a handle. -/
def viewHandle (alive : Value → Bool) (h : Handle) : EntryView :=
  match h.upgrade alive with
  | some v => .text v.text
  | none => .dead

/-- What is seen of a base store: the size, the entries under some keys, the blocked keys and the
calls. -/
def viewBase {ν : Type} (view : ν → EntryView) (keys : List String) (soft : Option SoftView)
    (tallies : List Tally) (b : Base ν) : CacheView where
  size := b.entries.entries.size
  entries := keys.filterMap fun key => viewEntry view key b
  soft
  tallies
  blocked := b.probe?.bind fun p =>
    if p.blocking then some (sortTexts p.blocked) else none
  calls := b.probe?.map fun p => p.received.reverse

/-- What is seen of a soft layer. -/
def viewSoft {σ : Type} (s : Soft String σ) : SoftView where
  pinned := s.pinned.length
  pinCapacity := s.pinCapacity
  retained := s.reclaimer.retainedSize
  released := s.reclaimer.releasedSize
  softCapacity := s.reclaimer.softCapacity
  reclaimed := s.reclaimer.reclaimed

variable {n : Nat}

/-- What is seen of a cache, with the entries under some keys. -/
def viewCache (s : Scene n) (keys : List String) (i : Fin n) : CacheView :=
  let tallies := (s.caches.nth i).tallies
  match s.caches.nth i with
  | ⟨.plain layers, chain⟩ => viewBase viewValue keys none tallies (Stack.base layers chain)
  | ⟨.soft upper lower, chain⟩ =>
    let soft := Stack.base upper chain
    viewBase (viewHandle (keeps s)) keys (some (viewSoft soft)) tallies
      (Stack.base lower soft.below)

/-- What is seen of the sessions: their names and buffers. -/
def sessionViews (s : Scene n) : List (String × Buffer String Value) :=
  s.sessionNames.map fun (name, j) => (name, s.bufferOf j)

/-- What is seen of the units of work: their names and the number of caches each has touched. -/
def workViews (s : Scene n) : List (String × Nat) :=
  s.works.map fun (name, work) => (name, work.length)

/-- Forgets the calls that the base stores received. -/
def forgetCalls (s : Scene n) : Scene n :=
  { s with caches := s.caches.map (Cache.updateProbe fun p => { p with received := [] }) }

end SoftTier.Scene
