import Mathlib.Logic.Function.Basic
import SoftTier.Store.Soft
import SoftTier.Store.Table

/-!
# A soft layer and those who hold its values

A soft layer lives together with callers who make values, hold references to them and let go of
them. What a caller can do in this setting is an *act*; what was done and what was answered is on
record.

- `Custody`: the layer, the references held outside of it, and the record.
- `Custody.step`, `Custody.run`: one act, and any number of them.
- `Custody.alive`: whether anything holds a value.
- `Custody.written`, `Custody.unread`: what the record says about a key.
-/

namespace SoftTier

namespace Custody

/-- Something that a caller does: with a value, with the layer as a store, or with the bounds and
sweeps of the layer. -/
inductive Act (κ : Type) where
  | make (text : String)
  | keep (v : Value)
  | drop (v : Value)
  | write (k : κ) (v : Value)
  | writeMiss (k : κ)
  /-- Looks a key up, and holds on to what is found if `hold` says so. -/
  | read (k : κ) (hold : Bool)
  /-- Removes a key, and holds on to what was there if `hold` says so. -/
  | erase (k : κ) (hold : Bool)
  | clear
  | size
  | setPinCapacity (n : Nat)
  | sweep
  | shrink (target : Nat)
  | setCapacity (n : Nat)
  deriving DecidableEq

/-- What is answered. -/
inductive Answer where
  | done
  | found (v : Option Value)
  | count (n : Nat)
  | failed (fault : Fault)
  deriving DecidableEq

/-- What was done and answered, the latest first. -/
abbrev Record (κ : Type) := List (Act κ × Answer)

/-! ## What the record says -/

section Record

variable {κ : Type} [DecidableEq κ]

/-- The value last written under a key, unless a miss was written there, the key was removed or
everything was cleared after that. -/
def written (k : κ) : Record κ → Option Value
  | [] => none
  | (.write k' v, .done) :: past => if k = k' then some v else written k past
  | (.writeMiss k', .done) :: past => if k = k' then none else written k past
  | (.erase k' _, .found _) :: past => if k = k' then none else written k past
  | (.clear, .done) :: _ => none
  | _ :: past => written k past

/-- The keys under which a miss was written last and has not been read, nor removed or cleared. -/
def unread : Record κ → List κ
  | [] => []
  | (.writeMiss k, .done) :: past => k :: (unread past).filter (· ≠ k)
  | (.write k _, .done) :: past => (unread past).filter (· ≠ k)
  | (.read k _, .found _) :: past => (unread past).filter (· ≠ k)
  | (.erase k _, .found _) :: past => (unread past).filter (· ≠ k)
  | (.clear, .done) :: _ => []
  | _ :: past => unread past

theorem written_write (k : κ) (v : Value) (past : Record κ) :
    (written · ((.write k v, .done) :: past)) = Function.update (written · past) k (some v) := by
  funext k'
  rw [Function.update_apply]
  rfl

theorem written_writeMiss (k : κ) (past : Record κ) :
    (written · ((.writeMiss k, .done) :: past)) = Function.update (written · past) k none := by
  funext k'
  rw [Function.update_apply]
  rfl

theorem written_erase (k : κ) (hold : Bool) (v : Option Value) (past : Record κ) :
    (written · ((.erase k hold, .found v) :: past)) = Function.update (written · past) k none := by
  funext k'
  rw [Function.update_apply]
  rfl

end Record

end Custody

/-- A soft layer among those who hold its values. -/
structure Custody (κ σ : Type) [Ord κ] where
  layer : Soft κ σ
  /-- The references held outside of the layer, by callers or in the buffers of sessions; a value is
  listed once for each. -/
  held : List Value
  /-- How many values have been made, and the tag of the next one. -/
  made : Nat
  past : Custody.Record κ

namespace Custody

variable {κ σ α : Type} [Ord κ]

/-- Whether a reference to the value is left: outside, among the pins or in soft retention. -/
def alive (c : Custody κ σ) (v : Value) : Bool :=
  keeps c.held v || keeps c.layer.pinned v || keeps c.layer.reclaimer v

/-- What surrounds an operation on the layer. -/
def around (visit : Visit) (c : Custody κ σ) : Ambient := ⟨keeps c.held, visit⟩

/-- Puts an act and its answer on record. -/
def note (act : Act κ) (answer : Answer) (c : Custody κ σ) : Custody κ σ :=
  { c with past := (act, answer) :: c.past }

/-- Does an operation on the layer and puts the answer on record. -/
def perform (visit : Visit) (act : Act κ) (reply : α → Answer) (x : Op (Soft κ σ) α)
    (c : Custody κ σ) : Custody κ σ :=
  let o := x (c.around visit) c.layer
  let answer := match o.result with
    | .ok a => reply a
    | .error e => .failed (.failure e)
  { c with layer := o.state }.note act answer

/-- Does an operation that can find a value, holds on to the value if `hold` says so, and puts the
answer on record. -/
def performFinding (visit : Visit) (act : Act κ) (hold : Bool) (x : Op (Soft κ σ) (Option Value))
    (c : Custody κ σ) : Custody κ σ :=
  let o := x (c.around visit) c.layer
  match o.result with
  | .ok found =>
    { c with
      layer := o.state
      held := if hold then found.toList ++ c.held else c.held }.note act (.found found)
  | .error e => { c with layer := o.state }.note act (.failed (.failure e))

/-- A custody in which nothing has been done yet. -/
def start (settings : SoftSettings) (below : σ) [DecidableEq κ] [Std.TransOrd κ] :
    Except Fault (Custody κ σ) :=
  match Soft.ofSettings settings below with
  | .ok layer => .ok ⟨layer, [], 0, []⟩
  | .error e => .error e

variable [DecidableEq κ] [Std.TransOrd κ] [Store σ κ Handle]

/-- Does an act. Values are kept and written by those only who hold them; nothing is done where that
is not so. -/
def step (visit : Visit) (c : Custody κ σ) : Act κ → Custody κ σ
  | .make text =>
    { c with held := ⟨c.made, text⟩ :: c.held, made := c.made + 1 }.note (.make text) .done
  | .keep v => if keeps c.held v then { c with held := v :: c.held }.note (.keep v) .done else c
  | .drop v => { c with held := c.held.erase v }.note (.drop v) .done
  | .write k v =>
    if keeps c.held v then c.perform visit (.write k v) (fun _ => .done) (Store.write k v) else c
  | .writeMiss k => c.perform visit (.writeMiss k) (fun _ => .done) (Store.writeMiss k)
  | .read k hold => c.performFinding visit (.read k hold) hold (Store.read k)
  | .erase k hold => c.performFinding visit (.erase k hold) hold (Store.erase k)
  | .clear => c.perform visit .clear (fun _ => .done) Store.clear
  | .size => c.perform visit .size .count Store.size
  | .setPinCapacity n =>
    c.perform visit (.setPinCapacity n) (fun _ => .done) (Op.update (Soft.setPinCapacity n))
  | .sweep => c.perform visit .sweep .count Soft.sweep
  | .shrink n => c.perform visit (.shrink n) .count (Soft.shrink n)
  | .setCapacity n =>
    c.perform visit (.setCapacity n)
      (fun
        | .ok () => .done
        | .error fault => .failed fault)
      (Soft.setCapacity n)

/-- Does acts in turn, each with an order of visiting of its own. -/
def run (c : Custody κ σ) (acts : List (Visit × Act κ)) : Custody κ σ :=
  acts.foldl (fun c (visit, act) => c.step visit act) c

end Custody

end SoftTier
