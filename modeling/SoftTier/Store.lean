import SoftTier.Op

/-!
# The contract of a store

What the base store and every layer on top of it offer: entries under keys, each a value or a
*miss*, which records that the key is known to have no value. Reading an absent key and reading a
miss both give no value; a failure is never used to say so.

- `Store σ κ ν`: states of type `σ` serve as stores of values `ν` under keys `κ`.
- `Call`: a call on a store as it can be recorded, without the value it carries.
-/

namespace SoftTier

/-- The states of type `σ` serve as stores of values `ν` under keys `κ`. A layer is a store whose
state contains that of the store below it. -/
class Store (σ : Type) (κ ν : outParam Type) extends Keeper σ where
  /-- The name of the cache. -/
  id : σ → String
  /-- Whether the store offers a lock to its callers. -/
  hasLock : σ → Bool
  /-- The number of entries, misses included. -/
  size : Op σ Nat
  /-- Stores a value under a key. -/
  write : κ → ν → Op σ Unit
  /-- Stores a miss under a key. A store that blocks a key when a lookup finds nothing frees it
  again on this write. -/
  writeMiss : κ → Op σ Unit
  /-- Looks a key up. -/
  read : κ → Op σ (Option ν)
  /-- Removes the entry under a key and gives the value that was there. -/
  erase : κ → Op σ (Option ν)
  /-- Removes every entry. -/
  clear : Op σ Unit

/-- A call that a store received. -/
inductive Call (κ : Type) where
  | size
  | write (k : κ)
  | writeMiss (k : κ)
  | read (k : κ)
  | erase (k : κ)
  | clear
  deriving DecidableEq

namespace Call

variable {κ : Type}

/-- The name of the operation. -/
def verb : Call κ → String
  | size => "size"
  | write _ => "put"
  | writeMiss _ => "put_miss"
  | read _ => "get"
  | erase _ => "remove"
  | clear => "clear"

/-- The key it is about. -/
def key? : Call κ → Option κ
  | size | clear => none
  | write k | writeMiss k | read k | erase k => some k

/-- The operation and its key, as shown to a reader. -/
def label (c : Call String) : String :=
  match c.key? with
  | some k => c.verb ++ " " ++ k
  | none => c.verb

end Call

end SoftTier
