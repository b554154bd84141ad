import Mathlib.Logic.Function.Basic
import SoftTier.Session
import SoftTier.Store.Table

/-!
# Sessions that share a store

Any number of sessions stand over one store, and each of them acts when it likes. What was done, by
which session, with which answer and on which store is on record.

- `Sharing`: the store, the buffer of each session and the record.
- `Sharing.step`, `Sharing.run`: one act of one session, and any number of them.
- `Sharing.own`, `Sharing.cleared`, `Sharing.buffered`, `Sharing.missed`: what a session did itself,
  and what it has gathered by that since it last ended.
- `Sharing.contents`: the store as the ends of sessions on record have made it.
-/

namespace SoftTier

namespace Sharing

/-- Something that a session does. -/
inductive Act (κ ν : Type) where
  | write (k : κ) (a : ν)
  | writeMiss (k : κ)
  | read (k : κ)
  | erase (k : κ)
  | clear
  | size
  | commit
  | rollback

/-- What is answered. -/
inductive Answer (ν : Type) where
  | done
  | found (a : Option ν)
  | count (n : Nat)
  | failed (failure : Failure)

/-- What goes on record for a result. -/
def Answer.of {ν : Type} : Except Failure (Answer ν) → Answer ν
  | .ok answer => answer
  | .error e => .failed e

/-- An act of a session, its answer, and the store as it was before. -/
structure Entry (ι κ ν σ : Type) where
  session : ι
  act : Act κ ν
  answer : Answer ν
  before : σ

/-- What was done, the latest first. -/
abbrev Record (ι κ ν σ : Type) := List (Entry ι κ ν σ)

/-- Does an act. -/
def Act.perform {κ ν σ : Type} [Keeper ν] [DecidableEq κ] [Store σ κ ν] :
    Act κ ν → Op (Session κ ν σ) (Answer ν)
  | .write k a => do
    Store.write k a
    return .done
  | .writeMiss k => do
    Store.writeMiss k
    return .done
  | .read k => do return .found (← Store.read k)
  | .erase k => do return .found (← Store.erase k)
  | .clear => do
    Store.clear
    return .done
  | .size => do return .count (← Store.size)
  | .commit => do
    Session.commit
    return .done
  | .rollback => do
    Session.rollback
    return .done

end Sharing

/-- Sessions over one store. -/
structure Sharing (ι κ ν σ : Type) where
  store : σ
  buffers : ι → Buffer κ ν
  past : Sharing.Record ι κ ν σ

namespace Sharing

variable {ι κ ν σ : Type}

/-- Sessions that have not done anything yet. -/
def start (store : σ) : Sharing ι κ ν σ := ⟨store, fun _ => {}, []⟩

section Run

variable [DecidableEq ι] [Keeper ν] [DecidableEq κ] [Store σ κ ν]

/-- Has a session do something. What it gathers is its own; the store is that of all. -/
def step (env : Ambient) (w : Sharing ι κ ν σ) (i : ι) (act : Act κ ν) : Sharing ι κ ν σ :=
  let o := act.perform env ⟨w.buffers i, w.store⟩
  let answer := match o.result with
    | .ok answer => answer
    | .error e => .failed e
  ⟨o.state.below, Function.update w.buffers i o.state.buffer, ⟨i, act, answer, w.store⟩ :: w.past⟩

/-- Has sessions do things in turn, each time in surroundings of their own. -/
def run (w : Sharing ι κ ν σ) (acts : List (Ambient × ι × Act κ ν)) : Sharing ι κ ν σ :=
  acts.foldl (fun w (env, i, act) => w.step env i act) w

end Run

/-! ## What the record says -/

/-- Whether there was a clear since the last end. -/
def cleared : Record ι κ ν σ → Bool
  | [] => false
  | ⟨_, .clear, .done, _⟩ :: _ => true
  | ⟨_, .commit, .done, _⟩ :: _ => false
  | ⟨_, .rollback, .done, _⟩ :: _ => false
  | _ :: past => cleared past

/-- What was written last under a key since the last clear or end; `none` inside is a miss. -/
def buffered [DecidableEq κ] (k : κ) : Record ι κ ν σ → Option (Option ν)
  | [] => none
  | ⟨_, .write k' a, .done, _⟩ :: past => if k' = k then some (some a) else buffered k past
  | ⟨_, .writeMiss k', .done, _⟩ :: past => if k' = k then some none else buffered k past
  | ⟨_, .clear, .done, _⟩ :: _ => none
  | ⟨_, .commit, .done, _⟩ :: _ => none
  | ⟨_, .rollback, .done, _⟩ :: _ => none
  | _ :: past => buffered k past

section Missed

variable [DecidableEq κ] [Ord κ] [Std.TransOrd κ]

/-- Whether a key was looked up since the last end when the store had no value there. -/
def missed (k : κ) : Record ι κ ν (Table κ ν) → Bool
  | [] => false
  | ⟨_, .read k', .found _, before⟩ :: past =>
    (decide (k' = k) && (before.value? k').isNone) || missed k past
  | ⟨_, .commit, .done, _⟩ :: _ => false
  | ⟨_, .rollback, .done, _⟩ :: _ => false
  | _ :: past => missed k past

variable [DecidableEq ι]

/-- What a session did itself. -/
def own (i : ι) (past : Record ι κ ν σ) : Record ι κ ν σ := past.filter fun e => e.session = i

/-- What a commit leaves under a key, by what its session did and what was there before. -/
def committed (k : κ) (past : Record ι κ ν (Table κ ν)) (entry : Option (Option ν)) :
    Option (Option ν) :=
  match buffered k past with
  | some written => some written
  | none => if missed k past then some none else if cleared past then none else entry

/-- What a rollback leaves under a key, by what its session did and what was there before. -/
def rolledBack (k : κ) (past : Record ι κ ν (Table κ ν)) (entry : Option (Option ν)) :
    Option (Option ν) :=
  if missed k past then some none else entry

/-- What the ends on record have made of a store with the entry `initial` under a key. -/
def contents (k : κ) (initial : Option (Option ν)) :
    Record ι κ ν (Table κ ν) → Option (Option ν)
  | [] => initial
  | ⟨i, .commit, .done, _⟩ :: past => committed k (own i past) (contents k initial past)
  | ⟨i, .rollback, .done, _⟩ :: past => rolledBack k (own i past) (contents k initial past)
  | _ :: past => contents k initial past

end Missed

section Own

variable [DecidableEq ι]

theorem own_cons_self (e : Entry ι κ ν σ) (past : Record ι κ ν σ) :
    own e.session (e :: past) = e :: own e.session past := List.filter_cons_of_pos (by simp)

theorem own_cons_of_ne {e : Entry ι κ ν σ} {i : ι} (h : e.session ≠ i) (past : Record ι κ ν σ) :
    own i (e :: past) = own i past := List.filter_cons_of_neg (by simp [h])

end Own

end Sharing

end SoftTier
