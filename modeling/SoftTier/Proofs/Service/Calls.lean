import SoftTier.Proofs.Recorded
import SoftTier.Proofs.Service.Sessions

/-!
# What a session asks its cache for

The layers of a service can be put on record for a session. The record goes unnoticed, and tells
what the layers are asked for in the session: its lookups, one after the other, and then what its
end sends. As a session loads what it misses and writes nothing else, that is one write for each
key it has missed, or one miss for each if the session rolls back.

- `Progress.sends_perm`: what the end of a session sends, told from the keys it has missed.
- `Service.onRecord`: a session of a service whose layers are on record.
- `Service.lookUps_heard`, `Service.onRecord_eq`: what the layers hear of its lookups, and of all of
  it.
- `Service.Asks`, `Service.session_asks`: the session is the one that the service runs, and asks for
  nothing else.
-/

namespace SoftTier

namespace Service

variable {layers : List Layer}

/-- A commit sends the row of every missed key, a rollback a miss for it. -/
theorem Progress.sends_perm {p : Progress layers} (h : p.buffer.Loaded) (env : Ambient) :
    ∃ rowOf : Nat → Value,
      (∀ k ∈ p.buffer.missed, p.buffer.pending.get? k = some (some (rowOf k))) ∧
      ∀ rollsBack, (p.sends env rollsBack).Perm
        (p.buffer.missed.map fun k => (k, if rollsBack then none else some (rowOf k))) := by
  have hrow : ∀ k, ∃ v, k ∈ p.buffer.missed → p.buffer.pending.get? k = some (some v) := by
    intro k
    by_cases hk : k ∈ p.buffer.missed
    · exact (h.exists_value hk).imp fun _ hv _ => hv
    · exact ⟨row 0 k, fun hmem => absurd hmem hk⟩
  choose rowOf hrowOf using hrow
  refine ⟨rowOf, hrowOf, fun rollsBack => ?_⟩
  cases rollsBack with
  | true => exact (env.visit.arrange_perm p.buffer.missed).map _
  | false =>
    refine (sends_commit h env).1.trans ?_
    rw [h.pending_eq hrowOf]
    exact h.keys_perm.map _

/-- A session of a service whose layers are on record. -/
def onRecord (env : Ambient) (t : Traffic) (i : Nat) (c : Service) :
    Outcome (Desk (Recorded Nat Value (Stack Nat Value Core c.layers))) Nat :=
  session t i c.nextTag env ⟨[], #v[⟨c.stack, []⟩]⟩

/-- The lookups of a session with their answers, as the layers hear of them. -/
def answers (env : Ambient) (t : Traffic) (i tag : Nat) (stack : Stack Nat Value Core layers)
    (n : Nat) : List (Heard Nat Value) :=
  (List.range n).map fun r =>
    .read (t.key i r) (.ok ((progress env t i tag stack r).found env (t.key i r)))

section Heard

variable (env : Ambient) (t : Traffic) (i tag : Nat) (stack : Stack Nat Value Core layers)

theorem reverse_answers_succ (n : Nat) :
    (answers env t i tag stack (n + 1)).reverse =
      .read (t.key i n) (.ok ((progress env t i tag stack n).found env (t.key i n))) ::
        (answers env t i tag stack n).reverse := by
  rw [answers, List.range_succ, List.map_append, List.reverse_append]
  rfl

/-- The layers hear of the lookups of a session, and of nothing else until it ends. -/
theorem lookUps_heard (hl : .session ∉ layers) (n : Nat) :
    ∃ d, (Op.foldl (lookUp t i tag) 0 (List.range n)).Yields env ⟨[], #v[⟨stack, []⟩]⟩
        (progress env t i tag stack n).loads d ∧
      (progress env t i tag stack n).Shows (⟨(progress env t i tag stack n).stack,
        (answers env t i tag stack n).reverse⟩ : Recorded Nat Value _) d := by
  obtain ⟨_, d, hyields, rfl, hshows⟩ := Op.exists_yields_range env (f := lookUp t i tag)
    (I := fun n loads d => loads = (progress env t i tag stack n).loads ∧
      (progress env t i tag stack n).Shows (⟨(progress env t i tag stack n).stack,
        (answers env t i tag stack n).reverse⟩ : Recorded Nat Value _) d)
    ⟨rfl, Progress.shows_start stack (⟨stack, []⟩ : Recorded Nat Value _)⟩
    (fun r _ d ⟨hloads, h⟩ => by
      have hread := Recorded.hear_yields
        (s := ⟨(progress env t i tag stack r).stack, (answers env t i tag stack r).reverse⟩)
        (Progress.read_yields env hl (t.key i r) _) (.read (t.key i r))
      rw [← reverse_answers_succ] at hread
      obtain ⟨d', hyields, h'⟩ := lookUp_yields_of h r hread Progress.id_looked
      rw [← Progress.stack_lookUp] at h'
      exact ⟨_, d', hloads ▸ hyields, rfl, h'⟩) n
  exact ⟨d, hyields, hshows⟩

end Heard

/-- On record the layers come to what they come to off it. What they hear is the lookups, and then
what the end of the session sends. -/
theorem onRecord_eq (env : Ambient) {c : Service} (hl : .session ∉ c.layers) (t : Traffic)
    (i : Nat) :
    let p := progress env t i c.nextTag c.stack t.reads
    (onRecord env t i c).result = .ok p.loads ∧
      (onRecord env t i c).state.shelf.nth 0 = ⟨p.ended env (t.rollsBack i),
        ((p.sends env (t.rollsBack i)).map fun e => .change (.put e.1 e.2)).reverse ++
          (answers env t i c.nextTag c.stack t.reads).reverse⟩ := by
  intro p
  obtain ⟨d, hlookUps, h⟩ := lookUps_heard env t i c.nextTag c.stack hl t.reads
  obtain ⟨d', hend, hbelow⟩ := end_yields_of h
    (Recorded.send_yields (send_yields (env.also p.buffer) hl))
    (fun s e => s.below.id_sent (env.also p.buffer) e) (t.rollsBack i)
  have hyields := session_yields_of hlookUps hend
  refine ⟨hyields.result_eq, ?_⟩
  rw [onRecord, hyields.state_eq, hbelow, Recorded.foldl_sent]
  rfl

/-- What the layers of a service are asked for in a session that has gathered `b` when its lookups
are over. -/
structure Asks (env : Ambient) (t : Traffic) (i : Nat) (c : Service) (b : Buffer Nat Value) :
    Prop where
  /-- With its layers on record the session is the one that the service runs. -/
  unnoticed : ∃ loads, (runSession t i env c).result = .ok loads ∧
    (onRecord env t i c).result = .ok loads ∧
    (runSession t i env c).state =
      ⟨c.layers, ((onRecord env t i c).state.shelf.nth 0).below, c.nextTag + loads⟩
  /-- Heard are its lookups in turn, and then one write for each missed key, or one miss for each if
  it rolls back. -/
  heard : ∃ (found : Nat → Option Value) (rowOf : Nat → Value) (ended : List (Heard Nat Value)),
    ((onRecord env t i c).state.shelf.nth 0).heard.reverse =
      ((List.range t.reads).map fun r => .read (t.key i r) (.ok (found r))) ++ ended ∧
    (∀ k ∈ b.missed, b.pending.get? k = some (some (rowOf k))) ∧
    ended.Perm (b.missed.map fun k =>
      .change (.put k (if t.rollsBack i then none else some (rowOf k))))

/-- A session asks for what it looks up, and then for one write or one miss for each key missed. -/
theorem session_asks (env : Ambient) {c : Service} (hl : .session ∉ c.layers) (t : Traffic)
    (i : Nat) : Asks env t i c ((lookUps env t i t.reads c).state.session 0).buffer := by
  have hrun := runSession_yields env hl t i
  obtain ⟨hresult, hstate⟩ := onRecord_eq env hl t i
  have hloaded := progress_loaded env t i c.nextTag c.stack t.reads
  obtain ⟨rowOf, hrows, hperm⟩ := Progress.sends_perm hloaded env
  rw [(lookUps_shows env hl t i t.reads).session_eq]
  constructor
  · refine ⟨_, hrun.result_eq, hresult, ?_⟩
    rw [hrun.state_eq, hstate]
    rfl
  · have hended := (hperm (t.rollsBack i)).map fun e => Heard.change (.put e.1 e.2)
    rw [List.map_map] at hended
    refine ⟨fun r => (progress env t i c.nextTag c.stack r).found env (t.key i r), rowOf, _, ?_,
      hrows, hended⟩
    rw [hstate, List.reverse_append, List.reverse_reverse, List.reverse_reverse]
    rfl

end Service

end SoftTier
