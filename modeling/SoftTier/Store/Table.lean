import Std.Data.ExtTreeMap
import SoftTier.Store

/-!
# The base store

`Table` keeps its entries until they are removed or cleared. Every stack of layers ends in one.
-/

namespace SoftTier

/-- A store in memory: `none` under a key is a miss. -/
structure Table (κ ν : Type) [Ord κ] where
  name : String
  entries : Std.ExtTreeMap κ (Option ν)

namespace Table

variable {κ ν : Type} [Ord κ] [Std.TransOrd κ]

/-- A table with no entries. -/
def named (name : String) : Table κ ν := ⟨name, ∅⟩

/-- Whether the key has an entry, be it a miss. -/
def contains (k : κ) (t : Table κ ν) : Bool := t.entries.contains k

/-- The value that a key reads as. -/
def value? (k : κ) (t : Table κ ν) : Option ν := t.entries[k]?.join

/-- Puts an entry under a key. -/
def put (k : κ) (entry : Option ν) (t : Table κ ν) : Table κ ν :=
  { t with entries := t.entries.insert k entry }

/-- Takes the entry under a key out. -/
def remove (k : κ) (t : Table κ ν) : Table κ ν := { t with entries := t.entries.erase k }

/-- A table keeps the values in it. -/
instance [Keeper ν] : Keeper (Table κ ν) :=
  ⟨fun t => keeps t.entries.toList⟩

instance [Keeper ν] : Store (Table κ ν) κ ν where
  id := name
  hasLock _ := false
  size := Op.read fun t => t.entries.size
  write k a := Op.update (put k (some a))
  writeMiss k := Op.update (put k none)
  read k := Op.read (value? k)
  erase k := do
    let previous ← Op.read (value? k)
    Op.update (remove k)
    return previous
  clear := Op.update fun t => { t with entries := ∅ }

end Table

end SoftTier
