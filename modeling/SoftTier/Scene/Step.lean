import SoftTier.Scene.Basic

/-!
# Steps of a scene

What a caller can do in a scene, one step at a time, and what the caller is told in reply.

- `Step`, `Reply`: a step and its reply.
- `Scene.step`: does a step. It can only be refused if the step names something that is not there,
  and then nothing is done.
-/

namespace SoftTier.Scene

/-! ## Steps and replies -/

/-- Something to do in a scene. Caches, sessions, units of work and held values go by names. -/
inductive Step where
  | make (value : Source) (name : String)
  | drop (name : String)
  | same (a b : String)
  -- on a cache or a session
  | write (on key : String) (value : Source) (hold : Option String)
  | writeMiss (on key : String)
  | read (on key : String) (hold : Option String)
  | erase (on key : String) (hold : Option String)
  | clear (on : String)
  | size (on : String)
  | id (on : String)
  | lock (on : String)
  | fill (on : String) (first last : Int)
  | scan (on : String) (first last : Int)
  | openSession (name on : String)
  -- on a session
  | closeSession (on : String)
  | commit (on : String)
  | rollback (on : String)
  | idBelowSession (on : String)
  -- on a unit of work
  | openWork (name : String)
  | dropWork (name : String)
  | workRead (work on key : String) (hold : Option String)
  | workWrite (work on key : String) (value : Source) (hold : Option String)
  | workClear (work on : String)
  | workCommit (work : String)
  | workRollback (work : String)
  -- on the soft layer of a cache
  | setPinCapacity (on : String) (n : Nat)
  | isPinned (on : String) (value : Source)
  | shrink (on : String) (target : Nat)
  | sweep (on : String)
  | setSoftCapacity (on : String) (n : Nat)
  | nextPosted (on : String)
  | forget (on key : String)
  | idBelowSoft (on : String)
  | register (on key : String) (value : Source) (hold : Option String)
  | missBelow (on key : String)
  | eraseBelow (on key : String)
  -- on the other layers of a cache
  | setFaults (on : String) (faults : Faults String)
  | resetTallies (on : String)
  | idsBelowMetered (on : String)

/-- What a caller is told. -/
inductive Reply where
  | done
  | flag (b : Bool)
  | count (n : Nat)
  | text (s : String)
  | texts (l : List String)
  | numbers (l : List Int)
  /-- The text of the value found, or that there is none. -/
  | found (text : Option String)
  | failed (fault : Fault)

/-- The reply to an operation that may have failed. -/
def Reply.ofResult {α : Type} (reply : α → Reply) : Except Failure α → Reply
  | .ok a => reply a
  | .error e => failed (.failure e)

/-- The reply that an operation was done. -/
def Reply.ofUnit : Except Failure Unit → Reply := ofResult fun _ => done

/-- The reply that counts. -/
def Reply.ofCount : Except Failure Nat → Reply := ofResult count

/-- What is not there though a step names it. -/
abbrev Unknown := String

/-- What a step leaves: the reply, the events reported and the scene. -/
structure Performed (n : Nat) where
  reply : Reply
  events : List Event := []
  scene : Scene n

variable {n : Nat} {α : Type}

/-- Something that must be there, or else what it was to be. -/
def require (what : Unknown) : Option α → Except Unknown α
  | some a => .ok a
  | none => .error what

/-! ## Parts of steps -/

/-- Does an operation, and replies with its result. -/
def perform (s : Scene n) (reply : Except Failure α → Reply) (x : Op (Scene n) α) : Performed n :=
  let o := x .alone s
  ⟨reply o.result, o.events, o.state⟩

/-- Does an operation that can find a value, keeps it if a name is given, and replies with it. -/
def performFinding (s : Scene n) (hold : Option String) (x : Op (Scene n) (Option Value)) :
    Performed n :=
  let o := x .alone s
  let held := match o.result with
    | .ok (some v) => o.state.held.putIf hold v
    | _ => o.state.held
  ⟨.ofResult (fun found => .found (found.map (·.text))) o.result, o.events, { o.state with held }⟩

/-- Takes a value from the caller, who may hold on to it from now on. -/
def take (s : Scene n) (source : Source) (hold : Option String) :
    Except Unknown (Value × Scene n) := do
  let (v, held) ← require "held" (s.held.take? source)
  return (v, { s with held := held.putIf hold v })

/-- Does an operation on the soft layer of a cache. -/
def performSoft (s : Scene n) (on : String) (reply : α → Reply)
    (x : {σ : Type} → [Store σ String Handle] → Op (Soft String σ) α) :
    Except Unknown (Performed n) := do
  let i ← require "on" (s.cache? on)
  let o := onCache i (Cache.onSoft x) .alone s
  match o.result with
  | .ok none => throw "on"
  | .ok (some a) => return ⟨reply a, o.events, o.state⟩
  | .error e => return ⟨.failed (.failure e), o.events, o.state⟩

/-- The key with a number. -/
def numberedKey (i : Int) : String := "k" ++ toString i

/-- The numbers from the first up to but without the last. -/
def numbersFrom (first last : Int) : List Int :=
  (List.range (last - first).toNat).map fun i => first + Int.ofNat i

/-- Writes a new value under every key with a number in a range. -/
def fillRange {σ : Type} [Store σ String Value] (tag : Nat) (first last : Int) : Op σ Unit :=
  Op.each (fun i =>
    let v : Value := ⟨tag + (i - first).toNat, "v" ++ toString i⟩
    Op.holding v (Store.write (numberedKey i) v)) (numbersFrom first last)

/-- Looks up every key with a number in a range; gives the numbers of those that have a value. -/
def scanRange {σ : Type} [Store σ String Value] (first last : Int) : Op σ (List Int) := do
  let found ← Op.foldl (fun found i => do
    let v ← Store.read (numberedKey i)
    return if v.isSome then i :: found else found) [] (numbersFrom first last)
  return found.reverse

/-! ## Doing a step -/

/-- Does a step. -/
def step (s : Scene n) : Step → Except Unknown (Performed n)
  | .make value name => do
    let (_, s) ← s.take value (some name)
    return ⟨.done, [], s⟩
  | .drop name =>
    let (found, held) := s.held.drop name
    return ⟨.flag found, [], { s with held }⟩
  | .same a b => do
    let v ← require "a" (s.held.get? a)
    let w ← require "b" (s.held.get? b)
    return ⟨.flag (v == w), [], s⟩
  | .write on key value hold => do
    let place ← require "on" (s.place? on)
    let (v, s) ← s.take value hold
    return s.perform .ofUnit (Op.holding v (onPlace place (Store.write key v)))
  | .writeMiss on key => do
    let place ← require "on" (s.place? on)
    return s.perform .ofUnit (onPlace place (Store.writeMiss key))
  | .read on key hold => do
    let place ← require "on" (s.place? on)
    return s.performFinding hold (onPlace place (Store.read key))
  | .erase on key hold => do
    let place ← require "on" (s.place? on)
    return s.performFinding hold (onPlace place (Store.erase key))
  | .clear on => do
    let place ← require "on" (s.place? on)
    return s.perform .ofUnit (onPlace place Store.clear)
  | .size on => do
    let place ← require "on" (s.place? on)
    return s.perform .ofCount (onPlace place Store.size)
  | .id on => do
    let place ← require "on" (s.place? on)
    return ⟨.text (s.idOf place), [], s⟩
  | .lock on => do
    let place ← require "on" (s.place? on)
    return s.perform (.ofResult .flag) (onPlace place (Op.read Store.hasLock))
  | .fill on first last => do
    let place ← require "on" (s.place? on)
    let (tag, held) := s.held.reserve (last - first).toNat
    return { s with held }.perform .ofUnit (onPlace place (fillRange tag first last))
  | .scan on first last => do
    let place ← require "on" (s.place? on)
    return s.perform (.ofResult .numbers) (onPlace place (scanRange first last))
  | .openSession name on => do
    let place ← require "on" (s.place? on)
    return ⟨.done, [], s.openSession name place⟩
  | .closeSession on =>
    return ⟨.flag (s.sessionNames.has on), [],
      { s with sessionNames := s.sessionNames.erase on }⟩
  | .commit on => do
    let (j, session) ← require "on" (s.session? on)
    return s.perform .ofUnit (onSession j session Session.commit)
  | .rollback on => do
    let (j, session) ← require "on" (s.session? on)
    return s.perform .ofUnit (onSession j session Session.rollback)
  | .idBelowSession on => do
    let (j, session) ← require "on" (s.session? on)
    return ⟨.text (s.idOf (.session j session)), [], s⟩
  | .openWork name => return ⟨.done, [], { s with works := s.works.insert name [] }⟩
  | .dropWork name =>
    return ⟨.flag (s.works.has name), [], { s with works := s.works.erase name }⟩
  | .workRead name on key hold => do
    let work ← require "manager" (s.works.get? name)
    let i ← require "on" (s.cache? on)
    return s.performFinding hold (onWork name work (UnitOfWork.Desk.read i key))
  | .workWrite name on key value hold => do
    let work ← require "manager" (s.works.get? name)
    let i ← require "on" (s.cache? on)
    let (v, s) ← s.take value hold
    return s.perform .ofUnit (Op.holding v (onWork name work (UnitOfWork.Desk.write i key v)))
  | .workClear name on => do
    let work ← require "manager" (s.works.get? name)
    let i ← require "on" (s.cache? on)
    return s.perform .ofUnit (onWork name work (UnitOfWork.Desk.clear i))
  | .workCommit name => do
    let work ← require "manager" (s.works.get? name)
    return s.perform .ofUnit (onWork name work UnitOfWork.Desk.commit)
  | .workRollback name => do
    let work ← require "manager" (s.works.get? name)
    return s.perform .ofUnit (onWork name work UnitOfWork.Desk.rollback)
  | .setPinCapacity on n => s.performSoft on (fun _ => .done) (Op.update (Soft.setPinCapacity n))
  | .isPinned on value => do
    let (v, s) ← s.take value none
    s.performSoft on .flag (Op.read (Soft.isPinned v))
  | .shrink on target => s.performSoft on .count (Soft.shrink target)
  | .sweep on => s.performSoft on .count Soft.sweep
  | .setSoftCapacity on n =>
    s.performSoft on
      (fun
        | .ok () => .done
        | .error fault => .failed fault)
      (Soft.setCapacity n)
  | .nextPosted on => s.performSoft on (fun
      | some key => .text key
      | none => .done) Soft.next?
  | .forget on key => s.performSoft on (fun _ => .done) (Soft.forget key)
  | .idBelowSoft on => s.performSoft on .text (Op.read fun soft => Store.id soft.below)
  | .register on key value hold => do
    let (v, s) ← s.take value hold
    s.performSoft on (fun _ => .done) (Op.holding v do
      Soft.retain key v
      Soft.onBelow (Store.write key (.ofValue v)))
  | .missBelow on key => s.performSoft on (fun _ => .done) (Soft.onBelow (Store.writeMiss key))
  | .eraseBelow on key =>
    s.performSoft on
      (fun
        | some alive => .flag alive
        | none => .done)
      (do
        let previous ← Soft.onBelow (Store.erase key)
        let alive ← Soft.ask fun env r => r.alive env
        return previous.map fun h => !h.isReclaimed alive)
  | .setFaults on faults => do
    let i ← require "on" (s.cache? on)
    let update := Op.update (Cache.updateProbe fun p => { p with faults })
    return s.perform .ofUnit (onCache i update)
  | .resetTallies on => do
    let i ← require "on" (s.cache? on)
    return s.perform .ofUnit (onCache i (Op.update Cache.resetTallies))
  | .idsBelowMetered on => do
    let i ← require "on" (s.cache? on)
    return ⟨.texts ((s.caches.nth i).tallies.map fun _ => Store.id (s.caches.nth i)), [], s⟩

end SoftTier.Scene
