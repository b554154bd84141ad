import Std.Data.ExtTreeMap
import SoftTier.Failure

/-!
# Recency lists

A bounded collection of entries under keys, ordered by when each was last used. A new key that does
not fit pushes out the entry unused for longest, which is handed back to the caller.

No operation on a key looks through the entries: they sit in numbered slots, linked both ways from
the newest to the oldest, an index finds a key's slot, and slots that fall empty are used again.

- `Recency`: the slots, the links, the index and the bound.
- `Recency.toList`: the entries, the newest first. What an operation does to this list is what it
  does.
- `touch`, `insert`, `erase`, `popOldest`, `trim`, `resize`, `clear`: the operations.
-/

namespace SoftTier

/-- An entry in its slot, with the slots of its neighbours in the order of use. -/
structure Recency.Node (κ ν : Type) where
  key : κ
  value : ν
  /-- The slot of the entry used next after this one. -/
  newer : Option Nat
  /-- The slot of the entry used last before this one. -/
  older : Option Nat

/-- Entries under keys, ordered by their last use and bounded in number. -/
structure Recency (κ ν : Type) [Ord κ] where
  /-- The slot of each key. -/
  index : Std.ExtTreeMap κ Nat
  /-- The slots; an empty one holds `none`. -/
  slots : Array (Option (Recency.Node κ ν))
  newest : Option Nat
  oldest : Option Nat
  /-- The empty slots, the one that fell empty last first. -/
  free : List Nat
  /-- How many entries may be held. -/
  capacity : Nat

namespace Recency

variable {κ ν : Type} [Ord κ] [Std.TransOrd κ]

/-- A list with no entries and the given bound, which may not be zero. -/
def ofCapacity (capacity : Nat) : Except Violation (Recency κ ν) :=
  if capacity = 0 then .error .zeroCapacity
  else .ok ⟨∅, #[], none, none, [], capacity⟩

/-- The number of entries. -/
def size (t : Recency κ ν) : Nat := t.index.size

/-- Whether the key has an entry. Asking is no use of the entry. -/
def contains (k : κ) (t : Recency κ ν) : Bool := t.index.contains k

/-- The entry in a slot. -/
def node? (i : Nat) (t : Recency κ ν) : Option (Node κ ν) := t.slots[i]?.join

/-- Whether some entry's value satisfies `p`. -/
def any (p : ν → Bool) (t : Recency κ ν) : Bool :=
  t.slots.toList.any fun
    | some n => p n.value
    | none => false

/-! ## Views -/

/-- Up to `fuel` entries met on the way from slot `i` along the links `next`. -/
def walk (t : Recency κ ν) (next : Node κ ν → Option Nat) : Nat → Option Nat → List (κ × ν)
  | 0, _ | _ + 1, none => []
  | fuel + 1, some i =>
    match t.node? i with
    | none => []
    | some n => (n.key, n.value) :: walk t next fuel (next n)

/-- The entries, the newest first. -/
def toList (t : Recency κ ν) : List (κ × ν) := t.walk Node.older t.slots.size t.newest

/-- The entries, the oldest first, as the links from the other end show them. -/
def toListFromOldest (t : Recency κ ν) : List (κ × ν) := t.walk Node.newer t.slots.size t.oldest

/-! ## Links -/

/-- Changes the entry in a slot. -/
def adjust (i : Nat) (f : Node κ ν → Node κ ν) (t : Recency κ ν) : Recency κ ν :=
  { t with slots := t.slots.modify i (Option.map f) }

/-- Takes slot `i` out of the order: its neighbours become each other's. -/
def unlink (i : Nat) (t : Recency κ ν) : Recency κ ν :=
  match t.node? i with
  | none => t
  | some n =>
    let t := match n.newer with
      | some j => t.adjust j fun m => { m with older := n.older }
      | none => { t with newest := n.older }
    match n.older with
    | some j => t.adjust j fun m => { m with newer := n.newer }
    | none => { t with oldest := n.newer }

/-- Puts slot `i`, which is out of the order, at its new end. -/
def linkNewest (i : Nat) (t : Recency κ ν) : Recency κ ν :=
  let t := t.adjust i fun m => { m with newer := none, older := t.newest }
  let t := match t.newest with
    | some j => t.adjust j fun m => { m with newer := some i }
    | none => { t with oldest := some i }
  { t with newest := some i }

/-- Makes the entry in slot `i` the newest. -/
def promote (i : Nat) (t : Recency κ ν) : Recency κ ν :=
  if t.newest = some i then t else (t.unlink i).linkNewest i

/-- Puts a new entry into an empty slot, the one that fell empty last or else a fresh one, and tells
which. -/
def occupy (k : κ) (v : ν) (t : Recency κ ν) : Nat × Recency κ ν :=
  let n : Node κ ν := ⟨k, v, none, none⟩
  match t.free with
  | i :: free =>
    (i, { t with
      index := t.index.insert k i
      slots := t.slots.setIfInBounds i (some n)
      free })
  | [] =>
    (t.slots.size, { t with
      index := t.index.insert k t.slots.size
      slots := t.slots.push (some n) })

/-- Empties slot `i` and hands out the entry it held. -/
def vacate (i : Nat) (t : Recency κ ν) : Option (κ × ν) × Recency κ ν :=
  match t.node? i with
  | none => (none, t)
  | some n =>
    let t := t.unlink i
    (some (n.key, n.value), { t with
      index := t.index.erase n.key
      slots := t.slots.setIfInBounds i none
      free := i :: t.free })

/-! ## Operations -/

/-- Uses the entry under a key; tells whether there is one. -/
def touch (k : κ) (t : Recency κ ν) : Bool × Recency κ ν :=
  match t.index[k]? with
  | some i => (true, t.promote i)
  | none => (false, t)

/-- Takes out the entry unused for longest. -/
def popOldest (t : Recency κ ν) : Option (κ × ν) × Recency κ ν :=
  match t.oldest with
  | some i => t.vacate i
  | none => (none, t)

/-- Takes out the entry under a key. -/
def erase (k : κ) (t : Recency κ ν) : Option ν × Recency κ ν :=
  match t.index[k]? with
  | some i =>
    let (e, t) := t.vacate i
    (e.map (·.2), t)
  | none => (none, t)

/-- Stores a value under a key, as the newest entry, and hands back the entry that it pushed out.
A value for a key that has one replaces it and pushes nothing out. -/
def insert (k : κ) (v : ν) (t : Recency κ ν) : Option (κ × ν) × Recency κ ν :=
  match t.index[k]? with
  | some i => (none, (t.adjust i fun m => { m with value := v }).promote i)
  | none =>
    let (evicted, t) := if t.capacity ≤ t.size then t.popOldest else (none, t)
    let (i, t) := t.occupy k v
    (evicted, t.linkNewest i)

/-- Takes out up to `n` entries, the oldest first. -/
def popMany : Nat → Recency κ ν → List (κ × ν) × Recency κ ν
  | 0, t => ([], t)
  | n + 1, t =>
    match t.popOldest with
    | (none, t) => ([], t)
    | (some e, t) =>
      let (es, t) := popMany n t
      (e :: es, t)

/-- Takes out the oldest entries until no more than `n` are left. -/
def trim (n : Nat) (t : Recency κ ν) : List (κ × ν) × Recency κ ν := popMany (t.size - n) t

/-- Changes the bound, which may not become zero, and hands back the entries that no longer fit, the
oldest first. -/
def resize (capacity : Nat) (t : Recency κ ν) :
    Except Violation (List (κ × ν) × Recency κ ν) :=
  if capacity = 0 then .error .zeroCapacity
  else .ok ({ t with capacity }.trim capacity)

/-- Drops every entry and every slot. The bound stays. -/
def clear (t : Recency κ ν) : Recency κ ν := ⟨∅, #[], none, none, [], t.capacity⟩

end Recency

end SoftTier
