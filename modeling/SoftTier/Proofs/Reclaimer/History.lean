import SoftTier.Proofs.Reclaimer.Operations

/-!
# What was asked of a reclaimer

A reclaimer serves requests one after the other. Between any two of them callers take hold of values
and let go of them, so each request comes with surroundings of its own. Everything that happened is
on record, and the record tells what was *admitted*, what was *dropped*, what was pushed out of
retention, and which keys were posted and taken off.

- `Reclaimer.Request`, `Reclaimer.Reply`, `Reclaimer.serve`: what can be asked, and the answers.
- `Reclaimer.Episode`: one request as it was served.
- `Reclaimer.Watched`: a reclaimer and its record.
- `Episode.admits`, `Episode.drops`, `Episode.pushed`, `Episode.sweeps`, `Episode.posts`,
  `Episode.skipped`, `Episode.handed`: what the record says about one request.
-/

namespace SoftTier

namespace Reclaimer

/-- Something asked of a reclaimer. -/
inductive Request (κ : Type) where
  /-- Retains a value under a key and asks for the handle to store for it. -/
  | retain (k : κ) (v : Value)
  | refresh (k : κ) (v : Value)
  | forget (k : κ)
  /-- Forgets a key and asks for a handle to store in place of a value. -/
  | miss (k : κ)
  | sweep
  | shrink (target : Nat)
  | setCapacity (n : Nat)
  | reset
  | next
  deriving DecidableEq

/-- What is answered. -/
inductive Reply (κ : Type) where
  | done
  | handle (h : Handle)
  | reclaimed (n : Nat)
  | key (k : Option κ)
  | refused (fault : Fault)
  deriving DecidableEq

/-- A request as it was served, with its surroundings and the reclaimer before and after it. -/
structure Episode (κ : Type) [Ord κ] where
  request : Request κ
  env : Ambient
  before : Reclaimer κ
  reply : Reply κ
  after : Reclaimer κ

/-- A reclaimer and the requests that it has served, the latest first. -/
structure Watched (κ : Type) [Ord κ] where
  now : Reclaimer κ
  past : List (Episode κ)

variable {κ : Type} [DecidableEq κ] [Ord κ]

section Serving

variable [Std.TransOrd κ]

/-- Serves a request. A bound that is refused changes nothing. -/
def serve (env : Ambient) (r : Reclaimer κ) : Request κ → Reply κ × Reclaimer κ
  | .retain k v => (.handle (.ofValue v), (r.retain env k v).2)
  | .refresh k v => (.done, (r.refresh env k v).2)
  | .forget k => (.done, r.forget k)
  | .miss k => (.handle .dead, r.forget k)
  | .sweep => (.reclaimed (r.sweep env).1, (r.sweep env).2)
  | .shrink n => (.reclaimed (r.shrink env n).1, (r.shrink env n).2)
  | .setCapacity n =>
    match r.setCapacity env n with
    | .ok (_, r) => (.done, r)
    | .error fault => (.refused fault, r)
  | .reset => (.done, r.reset)
  | .next => (.key (r.next? env).1, (r.next? env).2)

/-- The record of one request. -/
def episode (r : Reclaimer κ) (env : Ambient) (request : Request κ) : Episode κ :=
  ⟨request, env, r, (r.serve env request).1, (r.serve env request).2⟩

/-- A reclaimer that has served nothing yet. -/
def Watched.start (r : Reclaimer κ) : Watched κ := ⟨r, []⟩

/-- Serves a request and puts it on record. -/
def Watched.step (w : Watched κ) (env : Ambient) (request : Request κ) : Watched κ :=
  ⟨(w.now.serve env request).2, w.now.episode env request :: w.past⟩

/-- Serves requests in turn, each in surroundings of its own. -/
def Watched.run (w : Watched κ) (requests : List (Ambient × Request κ)) : Watched κ :=
  requests.foldl (fun w (env, request) => w.step env request) w

end Serving

/-! ## What the record says -/

namespace Episode

/-- Whether the reclaimer was told to stop following a key. -/
def drops (k : κ) (e : Episode κ) : Bool :=
  match e.request with
  | .forget k' | .miss k' => k' = k
  | .reset => true
  | _ => false

/-- The entries that were pushed out of retention. -/
def pushed (e : Episode κ) : Assoc κ Value :=
  -- a key that is dropped leaves retention as well, but was not pushed out
  e.before.kept.filter fun x => !Assoc.has x.1 e.after.kept && !e.drops x.1

/-- Whether a sweep was made: for its own sake, or because something was pushed out. -/
def sweeps (e : Episode κ) : Bool :=
  match e.request with
  | .sweep | .shrink _ => true
  | _ => !e.pushed.isEmpty

/-- The keys that were posted, in this order. -/
def posts (e : Episode κ) : List κ :=
  match e.request with
  -- a request for a posted key only takes keys off
  | .next => []
  | _ => e.after.posted.drop e.before.posted.length

/-- The key that was handed out, if any. -/
def handed (e : Episode κ) : List κ :=
  match e.reply with
  | .key k => k.toList
  | _ => []

theorem mem_pushed {e : Episode κ} {k : κ} {v : Value} :
    (k, v) ∈ e.pushed ↔
      (k, v) ∈ e.before.kept ∧ k ∉ e.after.kept.keys ∧ e.drops k = false := by
  rw [pushed, List.mem_filter, Bool.and_eq_true, Bool.not_eq_true', Bool.not_eq_true',
    Assoc.has_eq_false_iff]

/-- What is pushed out is swept. -/
theorem sweeps_of_mem_pushed {e : Episode κ} {x : κ × Value} (hx : x ∈ e.pushed) :
    e.sweeps = true := by
  have hpushed : (!e.pushed.isEmpty) = true := by
    rw [Bool.not_eq_true', List.isEmpty_eq_false_iff]
    exact List.ne_nil_of_mem hx
  rw [sweeps]
  split
  · rfl
  · rfl
  · exact hpushed

variable [Std.TransOrd κ]

/-- The value admitted for a key: one that was retained, or that was read and not retained yet. -/
def admits (k : κ) (e : Episode κ) : Option Value :=
  match e.request with
  | .retain k' v => if k' = k then some v else none
  | .refresh k' v => if k' = k ∧ e.before.retained.contains k' = false then some v else none
  | _ => none

/-- The keys that were taken off because they had a live value again. -/
def skipped (e : Episode κ) : List κ :=
  match e.request with
  | .next => e.before.posted.takeWhile (e.before.hasLive e.env)
  | _ => []

/-- The keys that were taken off, in this order. -/
def takes (e : Episode κ) : List κ := e.skipped ++ e.handed

/-- The value to be followed under a key when the request is served, if no sweep finds it dead. -/
def wanted (k : κ) (e : Episode κ) : Option Value :=
  (e.admits k).or (if e.drops k then none else e.before.tracked k)

end Episode

end Reclaimer

end SoftTier
