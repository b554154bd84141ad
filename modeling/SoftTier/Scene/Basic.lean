import SoftTier.Scene.Cache
import SoftTier.Scene.Held
import SoftTier.UnitOfWork

/-!
# Scenes

A scene is everything that goes on around some shared caches: sessions over them and over other
sessions, units of work, and values that a caller holds on to. All of them are known by name. What
is kept alive by any of these is alive for all of them.

- `Scene`: the caches and what goes on around them.
- `Scene.onCache`, `Scene.onPlace`, `Scene.onSession`, `Scene.onWork`: an operation on one of them,
  to which everything else in the scene is the surroundings.
-/

namespace SoftTier

/-- A session that was opened over a cache, with no or some sessions between them. -/
structure Scene.OpenSession (n : Nat) where
  /-- The numbers of the sessions between, the nearest first. -/
  between : List Nat
  cache : Fin n
  buffer : Buffer String Value

/-- Caches and what goes on around them. -/
structure Scene (n : Nat) where
  names : Vector String n
  caches : Shelf Scene.Cache n
  /-- Every session ever opened, under its number. -/
  sessions : Array (Scene.OpenSession n) := #[]
  /-- The numbers of the sessions that have a name now. -/
  sessionNames : Assoc String Nat := []
  works : Assoc String (UnitOfWork String Value n) := []
  held : Scene.Held := {}

namespace Scene

variable {n : Nat} {α : Type}

/-- What an operation can be done on: a cache, or a session with its number. -/
inductive Place (n : Nat) where
  | cache (i : Fin n)
  | session (j : Nat) (s : OpenSession n)

/-- The cache with a name. -/
def cache? (name : String) (s : Scene n) : Option (Fin n) :=
  (List.finRange n).find? fun i => s.names.get i == name

/-- The session with a name, and its number. -/
def session? (name : String) (s : Scene n) : Option (Nat × OpenSession n) := do
  let j ← s.sessionNames.get? name
  return (j, ← s.sessions[j]?)

/-- The cache or session with a name. -/
def place? (name : String) (s : Scene n) : Option (Place n) :=
  match s.cache? name with
  | some i => some (.cache i)
  | none => (s.session? name).map fun (j, session) => .session j session

/-- The buffer of the session with a number. -/
def bufferOf (s : Scene n) (j : Nat) : Buffer String Value :=
  (s.sessions[j]?.map (·.buffer)).getD {}

/-- The sessions that can still be reached: those with a name, and those between them and their
caches. -/
def liveSessions (s : Scene n) : List Nat :=
  s.sessionNames.flatMap fun (_, j) => j :: (s.sessions[j]?.map (·.between)).getD []

/-- Whether a value is kept alive by something other than a cache. -/
def keepsOutside (s : Scene n) (v : Value) : Bool :=
  keeps s.held v || keeps s.works v || s.liveSessions.any fun j => keeps (s.bufferOf j) v

/-- A scene keeps what anything in it keeps. -/
instance : Keeper (Scene n) := ⟨fun s v => s.keepsOutside v || keeps s.caches v⟩

/-- The surroundings of an operation on a cache: everything outside the caches. -/
def outside (s : Scene n) (env : Ambient) : Ambient :=
  { env with held := fun v => env.held v || s.keepsOutside v }

/-- Runs an operation on a cache. -/
def onCache (i : Fin n) (x : Op Cache α) : Op (Scene n) α := fun env s =>
  let o := Shelf.onStore i x (s.outside env) s.caches
  ⟨o.result, { s with caches := o.state }, o.events⟩

/-- Puts buffers back in their sessions. -/
def putBuffers (sessions : Array (OpenSession n)) :
    List (Nat × Buffer String Value) → Array (OpenSession n)
  | [] => sessions
  | (j, buffer) :: rest => putBuffers (sessions.modify j fun s => { s with buffer }) rest

/-- Runs an operation on a session, given with its number. -/
def onSession (j : Nat) (session : OpenSession n)
    (x : {σ : Type} → [Store σ String Value] → Op (Session String Value σ) α) :
    Op (Scene n) α := fun env s =>
  let base := s.caches.nth session.cache
  let below := Stack.ofBuffers base (session.between.map s.bufferOf)
  let o := x (s.caches.beside session.cache (s.outside env)) ⟨session.buffer, below⟩
  let (buffers, base) := Stack.toBuffers _ o.state.below
  let buffers := (j :: session.between).zip (o.state.buffer :: buffers)
  ⟨o.result, { s with
    caches := s.caches.put session.cache base
    sessions := putBuffers s.sessions buffers }, o.events⟩

/-- Runs an operation that any store has on a cache or a session. -/
def onPlace (place : Place n) (x : {σ : Type} → [Store σ String Value] → Op σ α) :
    Op (Scene n) α :=
  match place with
  | .cache i => onCache i x
  | .session j session => onSession j session x

/-- Runs an operation on the unit of work with a name; what it holds itself is not surroundings. -/
def onWork (name : String) (work : UnitOfWork String Value n)
    (x : Op (UnitOfWork.Desk String Value Cache n) α) : Op (Scene n) α := fun env s =>
  let others := { s with works := s.works.erase name }
  let o := x (others.outside env) ⟨work, s.caches⟩
  let works := s.works.insert name o.state.work
  ⟨o.result, { s with caches := o.state.shelf, works }, o.events⟩

/-- The name that the caches at a place go by. -/
def idOf (s : Scene n) : Place n → String
  | .cache i => Store.id (s.caches.nth i)
  | .session _ session => Store.id (s.caches.nth session.cache)

/-- Opens a session over a cache or session, under a name that may have had one before. -/
def openSession (name : String) (place : Place n) (s : Scene n) : Scene n :=
  let session : OpenSession n := match place with
    | .cache i => ⟨[], i, {}⟩
    | .session j session => ⟨j :: session.between, session.cache, {}⟩
  { s with
    sessions := s.sessions.push session
    sessionNames := s.sessionNames.insert name s.sessions.size }

end Scene

end SoftTier
