import SoftTier.Chain
import SoftTier.Store.Probe

/-!
# Caches of a scene

A cache is put together from a description: a base store, plain or under observation, and a chain of
layers over it.

- `Base`: a base store of either kind.
- `Cache`: chains of layers over such base stores.
- `Cache.Plan`, `Cache.ofPlan`: the description, and the cache put together from it.
-/

namespace SoftTier.Scene

/-! ## Base stores -/

/-- A base store, plain or under observation. -/
inductive Base (ν : Type) where
  | table (t : Table String ν)
  | probe (p : Probe String ν)

namespace Base

variable {ν α : Type}

/-- The table of entries. -/
def entries : Base ν → Table String ν
  | table t => t
  | probe p => p.table

/-- The probe, if the store is under observation. -/
def probe? : Base ν → Option (Probe String ν)
  | table _ => none
  | probe p => some p

/-- Changes the probe, if there is one. -/
def updateProbe (f : Probe String ν → Probe String ν) : Base ν → Base ν
  | table t => table t
  | probe p => probe (f p)

instance [Keeper ν] : Keeper (Base ν) := ⟨fun b => keeps b.entries⟩

/-- Runs an operation that any store has. -/
def run [Keeper ν] (x : {σ : Type} → [Store σ String ν] → Op σ α) : Op (Base ν) α := fun env b =>
  match b with
  | table t =>
    let o := x env t
    ⟨o.result, table o.state, o.events⟩
  | probe p =>
    let o := x env p
    ⟨o.result, probe o.state, o.events⟩

instance [Keeper ν] : Store (Base ν) String ν where
  id b := b.entries.name
  hasLock b := b.probe?.any (·.lockable)
  size := run Store.size
  write k a := run (Store.write k a)
  writeMiss k := run (Store.writeMiss k)
  read k := run (Store.read k)
  erase k := run (Store.erase k)
  clear := run Store.clear

end Base

/-! ## Caches -/

/-- A cache: a chain of layers, its keys being texts. -/
structure Cache where
  shape : Chain.Shape
  chain : Chain String Base shape

namespace Cache

variable {α : Type}

instance : Keeper Cache := ⟨fun c => keeps c.chain⟩

/-- Runs an operation on the chain. -/
def onChain (x : (shape : Chain.Shape) → Op (Chain String Base shape) α) : Op Cache α :=
  fun env c => match c with
  | ⟨shape, chain⟩ =>
    let o := x shape env chain
    ⟨o.result, ⟨shape, o.state⟩, o.events⟩

instance : Store Cache String Value where
  id c := Store.id c.chain
  hasLock c := Store.hasLock c.chain
  size := onChain fun _ => Store.size
  write k a := onChain fun _ => Store.write k a
  writeMiss k := onChain fun _ => Store.writeMiss k
  read k := onChain fun _ => Store.read k
  erase k := onChain fun _ => Store.erase k
  clear := onChain fun _ => Store.clear

/-- Runs an operation on the soft layer, if there is one. -/
def onSoft (x : {σ : Type} → [Store σ String Handle] → Op (Soft String σ) α) :
    Op Cache (Option α) := onChain (Chain.onSoft x)

/-- The counters of the metered layers, the lowest first. -/
def tallies (c : Cache) : List Tally := Chain.tallies c.shape c.chain

/-- Sets every counter back to zero. -/
def resetTallies (c : Cache) : Cache := ⟨c.shape, Chain.resetTallies c.shape c.chain⟩

/-- Changes the probe under everything, if there is one. -/
def updateProbe (f : {ν : Type} → Probe String ν → Probe String ν) : Cache → Cache
  | ⟨.plain layers, chain⟩ =>
    ⟨.plain layers, (Stack.onBase (Op.update (Base.updateProbe f)) layers .alone chain).state⟩
  | ⟨.soft upper lower, chain⟩ =>
    let base := Stack.onBase (Op.update (Base.updateProbe f)) lower
    ⟨.soft upper lower, (Stack.onBase (Soft.onBelow base) upper .alone chain).state⟩

/-! ## Putting a cache together -/

/-- A layer to be put on top of those there are. -/
inductive Plan.Layer where
  | soft
  | forwarding (layer : SoftTier.Layer)
  deriving DecidableEq

/-- How a base store under observation behaves. -/
structure Plan.Observation where
  blocking : Bool
  lockable : Bool
  faults : Faults String

/-- The description of a cache. -/
structure Plan where
  id : String
  /-- The layers, the lowest first. -/
  layers : List Plan.Layer
  settings : SoftSettings
  observation : Option Plan.Observation

/-- The base store of a cache. -/
def Plan.base {ν : Type} (plan : Plan) : Base ν :=
  match plan.observation with
  | none => .table (.named plan.id)
  | some o => .probe (.named plan.id o.blocking o.lockable o.faults)

/-- The forwarding layers among some layers. -/
def Plan.forwarding (layers : List Plan.Layer) : List SoftTier.Layer :=
  layers.filterMap fun
    | .soft => none
    | .forwarding layer => some layer

/-- The cache put together from a description. -/
def ofPlan (plan : Plan) : Except Fault Cache :=
  let lower := (Plan.forwarding (plan.layers.takeWhile (· != .soft))).reverse
  match plan.layers.dropWhile (· != .soft) with
  | [] => .ok ⟨.plain lower, Stack.fresh plan.base lower⟩
  | _ :: rest =>
    let upper := (Plan.forwarding rest).reverse
    match Soft.ofSettings plan.settings (Stack.fresh plan.base lower) with
    | .error e => .error e
    | .ok core => .ok ⟨.soft upper lower, Stack.fresh core upper⟩

end Cache

end SoftTier.Scene
