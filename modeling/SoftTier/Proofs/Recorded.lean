import SoftTier.Proofs.Layers.Projections
import SoftTier.Proofs.Session.Retry

/-!
# A store on record

`Recorded` is a store of any kind together with what it has heard: every call, with what it carries,
and every lookup with what it was answered. Nothing else is changed by it, so a session over a store
on record does what it does over the store itself, and the record says what it has asked for.

- `Recorded`: the layer that records.
- `Recorded.projection_below`: the record goes unnoticed.
- `Recorded.hear_yields`, `Recorded.foldl_sent`: what is heard of requests that succeed.
- `Recorded.Hears`: an operation asks for these changes, up to the first that fails.
- `Session.commit_hears`, `Session.rollback_hears`: what an end asks for.
-/

namespace SoftTier

/-- A call that a store has heard. -/
inductive Heard (κ ν : Type) where
  | size
  /-- A lookup, and its answer. -/
  | read (k : κ) (found : Except Failure (Option ν))
  | erase (k : κ)
  | change (c : Change κ ν)

/-- Whether the call is a lookup of this key that has found nothing. -/
def Heard.misses {κ ν : Type} [DecidableEq κ] (k : κ) : Heard κ ν → Bool
  | .read k' (.ok none) => decide (k' = k)
  | _ => false

/-- A store, and the calls that it has heard, the latest first. -/
structure Recorded (κ ν σ : Type) where
  below : σ
  heard : List (Heard κ ν) := []

namespace Recorded

variable {κ ν σ α : Type}

/-- Runs an operation on the store, and puts on record what `note` makes of its result. -/
def hear (note : Except Failure α → Heard κ ν) (x : Op σ α) : Op (Recorded κ ν σ) α := fun env s =>
  let o := x env s.below
  ⟨o.result, ⟨o.state, note o.result :: s.heard⟩, o.events⟩

instance [Keeper σ] : Keeper (Recorded κ ν σ) := ⟨fun s => keeps s.below⟩

instance [Store σ κ ν] : Store (Recorded κ ν σ) κ ν where
  id s := Store.id s.below
  hasLock s := Store.hasLock s.below
  size := hear (fun _ => .size) Store.size
  write k a := hear (fun _ => .change (.put k (some a))) (Store.write k a)
  writeMiss k := hear (fun _ => .change (.put k none)) (Store.writeMiss k)
  read k := hear (.read k) (Store.read k)
  erase k := hear (fun _ => .erase k) (Store.erase k)
  clear := hear (fun _ => .change .clear) Store.clear

/-- The record goes unnoticed. -/
theorem projection_below [Store σ κ ν] {heed : Event → Bool} :
    Projection heed (below : Recorded κ ν σ → σ) where
  id_eq _ := rfl
  hasLock_eq _ := rfl
  size _ _ := ⟨rfl, rfl, rfl⟩
  write _ _ _ _ := ⟨rfl, rfl, rfl⟩
  writeMiss _ _ _ := ⟨rfl, rfl, rfl⟩
  read _ _ _ := ⟨rfl, rfl, rfl⟩
  erase _ _ _ := ⟨rfl, rfl, rfl⟩
  clear _ _ := ⟨rfl, rfl, rfl⟩

end Recorded

variable {κ ν σ α : Type}

namespace Session

/-- A session whose store is put on record. -/
def onRecord (s : Session κ ν σ) : Session κ ν (Recorded κ ν σ) := ⟨s.buffer, ⟨s.below, []⟩⟩

/-- A session over a store, off the record. -/
def offRecord (s : Session κ ν (Recorded κ ν σ)) : Session κ ν σ := ⟨s.buffer, s.below.below⟩

end Session

/-! ## What goes on record -/

namespace Recorded

variable {env : Ambient}

/-- What succeeds on the store does on record, and is heard with its answer. -/
theorem hear_yields {x : Op σ α} {a : α} {s : Recorded κ ν σ} {t : σ}
    (hx : x.Yields env s.below a t) (note : Except Failure α → Heard κ ν) :
    (hear note x).Yields env s a ⟨t, note (.ok a) :: s.heard⟩ := by
  refine ⟨hx.result_eq, ?_⟩
  rw [← hx.state_eq, ← hx.result_eq]
  rfl

/-- A store on record that has been sent a write or a miss. -/
def sent (next : σ → κ × Option ν → σ) (s : Recorded κ ν σ) (e : κ × Option ν) :
    Recorded κ ν σ := ⟨next s.below e, .change (.put e.1 e.2) :: s.heard⟩

theorem send_yields [Store σ κ ν] {next : σ → κ × Option ν → σ}
    (hsend : ∀ e t, (Buffer.send e : Op σ Unit).Yields env t () (next t e)) (e : κ × Option ν)
    (s : Recorded κ ν σ) :
    (Buffer.send e : Op (Recorded κ ν σ) Unit).Yields env s () (s.sent next e) := by
  obtain ⟨k, entry⟩ := e
  cases entry with
  | none => exact hear_yields (hsend (k, none) s.below) fun _ => .change (.put k none)
  | some a => exact hear_yields (hsend (k, some a) s.below) fun _ => .change (.put k (some a))

/-- What has been sent is on record, the latest first. -/
theorem foldl_sent (next : σ → κ × Option ν → σ) (es : Assoc κ (Option ν))
    (s : Recorded κ ν σ) :
    es.foldl (sent next) s =
      ⟨es.foldl next s.below, (es.map fun e => .change (.put e.1 e.2)).reverse ++ s.heard⟩ := by
  induction es generalizing s with
  | nil => rfl
  | cons e es ih =>
    rw [List.foldl_cons, ih, sent, List.map_cons, List.reverse_cons, List.append_assoc]
    rfl

/-- From the first record to the second these changes were asked for one after the other, up to the
first that failed, and nothing else was; `r` is what came of it. -/
def Asked (cs : List (Change κ ν)) (s : Recorded κ ν σ) (r : Except Failure Unit)
    (s' : Recorded κ ν σ) : Prop :=
  ∃ asked, asked <+: cs ∧ (r = .ok () → asked = cs) ∧ (asked = [] → r = .ok ()) ∧
    s'.heard = (asked.map Heard.change).reverse ++ s.heard

/-- The operation asks for these changes. -/
def Hears (x : Op (Recorded κ ν σ) Unit) (env : Ambient) (cs : List (Change κ ν)) : Prop :=
  ∀ s, x.Leaves env s (Asked cs s)

theorem hears_pure : Hears (pure () : Op (Recorded κ ν σ) Unit) env [] := fun _ =>
  ⟨[], List.prefix_rfl, fun _ => rfl, fun _ => rfl, rfl⟩

theorem hears_one (c : Change κ ν) (x : Op σ Unit) : Hears (hear (fun _ => .change c) x) env [c] :=
  fun _ => ⟨[c], List.prefix_rfl, fun _ => rfl, fun hnil => absurd hnil (by simp), rfl⟩

theorem Hears.bind {x y : Op (Recorded κ ν σ) Unit} {cs cs' : List (Change κ ν)}
    (hx : Hears x env cs) (hy : Hears y env cs') : Hears (x >>= fun _ => y) env (cs ++ cs') := by
  intro s
  refine (hx s).bind ?_ ?_
  · rintro u s₁ ⟨asked, -, hall, -, hheard⟩
    obtain rfl := hall rfl
    refine (hy s₁).imp ?_
    rintro r s₂ ⟨asked', hsome, hall', hnone, hheard'⟩
    refine ⟨asked ++ asked', (List.prefix_append_right_inj asked).mpr hsome,
      fun hok => congrArg (asked ++ ·) (hall' hok),
      fun hnil => hnone (List.append_eq_nil_iff.mp hnil).2, ?_⟩
    rw [hheard', hheard, List.map_append, List.reverse_append, List.append_assoc]
  · rintro e s₁ ⟨asked, hsome, -, hnone, hheard⟩
    exact ⟨asked, hsome.trans (List.prefix_append cs cs'), nofun,
      fun hnil => absurd (hnone hnil) nofun, hheard⟩

/-- A step that only looks around asks for nothing. -/
theorem Hears.of_yields {x : Op (Recorded κ ν σ) α} {f : α → Op (Recorded κ ν σ) Unit} {a : α}
    {cs : List (Change κ ν)} (hx : ∀ s, x.Yields env s a s) (hf : Hears (f a) env cs) :
    Hears (x >>= f) env cs := fun s => (hx s).bind_leaves (hf s)

theorem hears_each {f : α → Op (Recorded κ ν σ) Unit} {g : α → Change κ ν}
    (hf : ∀ a, Hears (f a) env [g a]) (l : List α) : Hears (Op.each f l) env (l.map g) := by
  induction l with
  | nil => exact hears_pure
  | cons a l ih =>
    rw [Op.each_cons]
    exact (hf a).bind ih

end Recorded

namespace Buffer

open Recorded (Hears)

variable [Store σ κ ν] {env : Ambient}

theorem send_hears (e : κ × Option ν) :
    Hears (send e : Op (Recorded κ ν σ) Unit) env [.put e.1 e.2] := by
  obtain ⟨k, entry⟩ := e
  cases entry <;> exact Recorded.hears_one _ _

theorem flush_hears (b : Buffer κ ν) :
    Hears (b.flush : Op (Recorded κ ν σ) Unit) env (b.publishing env.visit) := by
  have hsend : Hears (do Op.each send (← Op.visiting b.pending) : Op (Recorded κ ν σ) Unit) env
      ((env.visit.arrange b.pending).map fun e => .put e.1 e.2) :=
    .of_yields (fun _ => Op.yields_visiting _) (Recorded.hears_each send_hears _)
  rw [flush, publishing]
  cases b.clears with
  | true => exact Hears.bind (Recorded.hears_one _ _) hsend
  | false => exact hsend

theorem freeAll_hears (b : Buffer κ ν) :
    Hears (b.freeAll : Op (Recorded κ ν σ) Unit) env (b.freeingAll env.visit) :=
  .of_yields (fun _ => Op.yields_visiting _)
    (Recorded.hears_each (fun _ => Recorded.hears_one _ _) _)

theorem freeMissed_hears [DecidableEq κ] (b : Buffer κ ν) :
    Hears (b.freeMissed : Op (Recorded κ ν σ) Unit) env (b.freeing env.visit) :=
  .of_yields (fun _ => Op.yields_visiting _)
    (Recorded.hears_each (fun _ => Recorded.hears_one _ _) _)

end Buffer

theorem Recorded.Asked.exists_asked {cs : List (Change κ ν)} {s s' : Recorded κ ν σ}
    {r : Except Failure Unit} (h : Recorded.Asked cs s r s') :
    ∃ asked, (r = .ok () → asked = cs) ∧ (asked = [] ↔ cs = []) ∧
      s'.heard = (asked.map Heard.change).reverse ++ s.heard := by
  obtain ⟨asked, hsome, hall, hnone, hheard⟩ := h
  refine ⟨asked, hall, ⟨?_, ?_⟩, hheard⟩
  · rintro rfl
    exact (hall (hnone rfl)).symm
  · rintro rfl
    exact List.prefix_nil.mp hsome

namespace Session

/-- What an end leaves that has these changes to ask for. It asks for all of them if it succeeds,
and for some if there are any; the buffer is kept if it fails. -/
structure Ended (cs : List (Change κ ν)) (b : Buffer κ ν) (s : Recorded κ ν σ)
    (r : Except Failure Unit) (s' : Session κ ν (Recorded κ ν σ)) : Prop where
  asked : ∃ asked, (r = .ok () → asked = cs) ∧ (asked = [] ↔ cs = []) ∧
    s'.below.heard = (asked.map Heard.change).reverse ++ s.heard
  buffer_eq : s'.buffer = if r = .ok () then {} else b

variable [Keeper ν] [Store σ κ ν]

theorem rollback_hears (env : Ambient) (b : Buffer κ ν) (s : Recorded κ ν σ) :
    (rollback : Op (Session κ ν (Recorded κ ν σ)) Unit).Leaves env ⟨b, s⟩
      (Ended (b.freeingAll env.visit) b s) := by
  refine (rollback_leaves_of (s := ⟨b, s⟩) (b.freeAll_hears s)).imp ?_
  rintro r s' ⟨hfreed, hbuffer⟩
  exact ⟨hfreed.exists_asked, hbuffer⟩

variable [DecidableEq κ]

theorem commit_hears (env : Ambient) (b : Buffer κ ν) (s : Recorded κ ν σ) :
    (commit : Op (Session κ ν (Recorded κ ν σ)) Unit).Leaves env ⟨b, s⟩
      (Ended (b.publishing env.visit ++ b.freeing env.visit) b s) := by
  have hfree : ∀ published t, Recorded.Asked (b.publishing env.visit) s published t →
      Op.Leaves b.freeMissed (env.also b) t fun freed t' =>
        ∃ t, Recorded.Asked (b.publishing env.visit) s published t ∧
          Recorded.Asked (b.freeing env.visit) t freed t' := fun published t hpublished =>
    (b.freeMissed_hears t).imp fun freed t' hfreed => ⟨t, hpublished, hfreed⟩
  refine (commit_leaves_of (s := ⟨b, s⟩) (b.flush_hears s) hfree).imp ?_
  rintro r s' ⟨published, freed, ⟨t, hpublished, hfreed⟩, rfl, hbuffer⟩
  obtain ⟨asked, hall, hnil, hheard⟩ := hpublished.exists_asked
  obtain ⟨asked', hall', hnil', hheard'⟩ := hfreed.exists_asked
  refine ⟨⟨asked ++ asked', fun hok => ?_, ?_, ?_⟩, hbuffer⟩
  · -- neither part has failed
    cases published with
    | error e => exact absurd hok nofun
    | ok u => rw [hall rfl, hall' hok]
  · rw [List.append_eq_nil_iff, List.append_eq_nil_iff, hnil, hnil']
  · rw [hheard', hheard, List.map_append, List.reverse_append, List.append_assoc]

end Session

end SoftTier
