import SoftTier.Proofs.Layers.Courses
import SoftTier.Proofs.Probe

/-!
# Which keys a chain of layers blocks

A blocking store blocks a key when a lookup finds nothing there. The caller can free the key again,
but only if it knows of it. So a store is *candid* if it never blocks a key but one that it was just
asked for, and then answers that nothing was found. The base store is candid and every layer lifts
this, so that a whole chain is candid, whatever calls on the base store fail.

- `Op.Frees`, `Op.FreesAll`: an operation blocks no key, and frees some if it succeeds.
- `Candid`: what is asked of a store.
- `Probe.candid`: a base store under observation is candid.
- `Metered.candid`, `Wrapped.candid`, `Soft.candid`: the layers lift it.
- `Stack.candid`, `Chain.candid`: any number of layers.
-/

namespace SoftTier

/-! ## Operations that block nothing -/

namespace Op

variable {σ α β κ : Type} {blocked : σ → List κ} {k : κ} {keys : List κ}

/-- Whether or not it fails, the operation blocks no key; it keeps to the course
`.narrowing blocked`. -/
def Frees (blocked : σ → List κ) (x : Op σ α) : Prop :=
  ∀ env s, x.Leaves env s fun _ s' => blocked s' ⊆ blocked s

/-- Whether or not it fails, the operation blocks no key, and if it succeeds it leaves these keys
free. -/
def FreesAll (blocked : σ → List κ) (keys : List κ) (x : Op σ α) : Prop :=
  ∀ env s, x.Leaves env s fun r s' =>
    blocked s' ⊆ blocked s ∧ ∀ a, r = .ok a → keys.Disjoint (blocked s')

/-- Whether or not it fails, the operation blocks no key but this one, and that only when it answers
that nothing was found. -/
def Looks (blocked : σ → List κ) (k : κ) (x : Op σ (Option α)) : Prop :=
  ∀ env s, x.Leaves env s fun r s' => ∀ k' ∈ blocked s', k' ∈ blocked s ∨ k' = k ∧ r = .ok none

variable {x : Op σ α} {f : α → Op σ β}

/-- A block frees keys if its last step does. -/
theorem Follows.bind_freesAll (hx : x.Follows (.narrowing blocked))
    (hf : ∀ a, (f a).FreesAll blocked keys) :
    (x >>= f).FreesAll blocked keys := by
  intro env s
  refine (hx env s).bind ?_ ?_
  · intro a s' hs'
    exact (hf a env s').imp fun _ _ hs'' => ⟨List.Subset.trans hs''.1 hs', hs''.2⟩
  · exact fun _ _ hs' => ⟨hs', fun a ha => absurd ha (by simp)⟩

/-- A block that starts with a lookup blocks the key only if its answer is that of the lookup. -/
theorem Looks.bind {x : Op σ (Option α)} {f : Option α → Op σ (Option β)}
    (hx : x.Looks blocked k)
    (hnone : ∀ env s, (f none).Leaves env s fun r s' => r = .ok none ∧ blocked s' ⊆ blocked s)
    (hsome : ∀ a, (f (some a)).Follows (.narrowing blocked)) : (x >>= f).Looks blocked k := by
  intro env s
  refine (hx env s).bind ?_ ?_
  · intro found s' hs'
    cases found with
    | none =>
      refine (hnone env s').imp ?_
      rintro r s'' ⟨hr, hs''⟩ k' hk'
      exact (hs' k' (hs'' hk')).imp_right fun hand => ⟨hand.1, hr⟩
    | some a =>
      refine (hsome a env s').imp fun r s'' hs'' k' hk' => .inl ?_
      exact (hs' k' (hs'' hk')).resolve_right fun hand => absurd hand.2 (by simp)
  · intro e s' hs' k' hk'
    exact .inl ((hs' k' hk').resolve_right fun hand => absurd hand.2 (by simp))

theorem FreesAll.mono {keys' : List κ} (hx : x.FreesAll blocked keys) (h : keys' ⊆ keys) :
    x.FreesAll blocked keys' := fun env s =>
  (hx env s).imp fun _ _ hs' => ⟨hs'.1, fun a ha => List.disjoint_of_subset_left h (hs'.2 a ha)⟩

/-- Two steps free what either of them frees. -/
theorem FreesAll.bind {keys' : List κ} (hx : x.FreesAll blocked keys)
    (hf : ∀ a, (f a).FreesAll blocked keys') : (x >>= f).FreesAll blocked (keys ++ keys') := by
  intro env s
  refine (hx env s).bind ?_ ?_
  · rintro a s' ⟨hsub, hfree⟩
    refine (hf a env s').imp ?_
    rintro r s'' ⟨hsub', hfree'⟩
    refine ⟨List.Subset.trans hsub' hsub, fun b hb => ?_⟩
    -- the second step blocks none of what the first has freed
    have hkeep : keys.Disjoint (blocked s'') := List.disjoint_of_subset_right hsub' (hfree a rfl)
    exact List.disjoint_append_left.mpr ⟨hkeep, hfree' b hb⟩
  · rintro e s' ⟨hsub, -⟩
    exact ⟨hsub, fun b hb => absurd hb (by simp)⟩

/-- A run over a list frees a key for each member. -/
theorem freesAll_each {g : α → Op σ Unit} {key : α → κ} (hg : ∀ a, (g a).FreesAll blocked [key a])
    (l : List α) : (each g l).FreesAll blocked (l.map key) := by
  induction l with
  | nil => exact fun env s => ⟨List.Subset.refl _, fun _ _ => List.disjoint_nil_left _⟩
  | cons a l ih =>
    rw [each_cons]
    exact (hg a).bind fun _ => ih

/-- The order of a visit plays no part in what is freed. -/
theorem freesAll_visiting {l : List α} {g : List α → Op σ β}
    (hg : ∀ l', l'.Perm l → (g l').FreesAll blocked keys) :
    (visiting l >>= g).FreesAll blocked keys := fun env s =>
  (yields_visiting l).bind_leaves (hg _ (env.visit.arrange_perm l) env s)

theorem FreesAll.holding (h : x.FreesAll blocked keys) (v : Value) :
    (holding v x).FreesAll blocked keys := fun env s => (h (env.also v) s).holding

/-! ## Operations of the store below -/

variable {τ : Type} {below : τ → σ} {lift : {α : Type} → Op σ α → Op τ α}

theorem Lifts.freesAll (h : Lifts below lift) (hx : x.FreesAll blocked keys) :
    (lift x).FreesAll (fun t => blocked (below t)) keys := fun env t =>
  h.leaves (Q := fun s r s' => blocked s' ⊆ blocked s ∧ ∀ a, r = .ok a → keys.Disjoint (blocked s'))
    hx env t

theorem Lifts.looks (h : Lifts below lift) {x : Op σ (Option α)} (hx : x.Looks blocked k) :
    (lift x).Looks (fun t => blocked (below t)) k := fun env t =>
  h.leaves (Q := fun s r s' => ∀ k' ∈ blocked s', k' ∈ blocked s ∨ k' = k ∧ r = .ok none) hx env t

end Op

/-! ## Candid stores -/

/-- A store that blocks no key but one for which it answers that nothing was found, and that frees a
key on a write. -/
structure Candid {σ κ ν : Type} [Store σ κ ν] (blocked : σ → List κ) : Prop where
  size : (Store.size : Op σ Nat).Frees blocked
  write : ∀ k a, (Store.write k a : Op σ Unit).FreesAll blocked [k]
  writeMiss : ∀ k, (Store.writeMiss k : Op σ Unit).FreesAll blocked [k]
  read : ∀ k, (Store.read k : Op σ (Option ν)).Looks blocked k
  erase : ∀ k, (Store.erase k : Op σ (Option ν)).Frees blocked
  clear : (Store.clear : Op σ Unit).Frees blocked

namespace Probe

variable {κ ν : Type} [DecidableEq κ] [Ord κ]

theorem unblock_subset (k : κ) (p : Probe κ ν) : (p.unblock k).blocked ⊆ p.blocked :=
  List.filter_subset_self _

theorem notin_unblock (k : κ) (p : Probe κ ν) : k ∉ (p.unblock k).blocked := by
  simp [unblock]

variable [Std.TransOrd κ] [Keeper ν]

/-- A base store under observation blocks a key only when it answers that nothing was found. -/
theorem candid : Candid (blocked : Probe κ ν → List κ) where
  size env p := size_answers.leaves (fun _ _ => List.Subset.refl _) fun _ => List.Subset.refl _
  write k a env p := by
    refine (write_answers k a).leaves (fun e _ => ⟨List.Subset.refl _, ?_⟩) fun _ => ?_
    · exact fun a ha => absurd ha (by simp)
    · exact ⟨unblock_subset k _, fun _ _ => List.singleton_disjoint.mpr (notin_unblock k _)⟩
  writeMiss k env p := by
    refine (writeMiss_answers k).leaves (fun e _ => ⟨List.Subset.refl _, ?_⟩) fun _ => ?_
    · exact fun a ha => absurd ha (by simp)
    · exact ⟨unblock_subset k _, fun _ _ => List.singleton_disjoint.mpr (notin_unblock k _)⟩
  read k env p := by
    refine (read_answers k).leaves (fun e _ k' hk' => .inl hk') fun _ k' hk' => ?_
    -- the list of blocked keys grows only in a blocking store without a value under the key
    rw [searched] at hk'
    split at hk'
    · rename_i hnone
      have hval : p.table.value? k = none := Option.isNone_iff_eq_none.mp hnone
      rw [block] at hk'
      split at hk'
      · rcases List.mem_insert_iff.mp hk' with rfl | hk'
        · exact .inr ⟨rfl, by rw [hval]⟩
        · exact .inl hk'
      · exact .inl hk'
    · exact .inl hk'
  erase k env p := (erase_answers k).leaves (fun _ _ => List.Subset.refl _) fun _ =>
    unblock_subset k _
  clear env p := clear_answers.leaves (fun _ _ => List.Subset.refl _) fun _ => List.Subset.refl _

end Probe

/-! ## Layers -/

section Layers

variable {σ κ ν : Type} [Store σ κ ν] {blocked : σ → List κ}

theorem Metered.candid (h : Candid blocked) : Candid fun s : Metered σ => blocked s.below where
  size := Metered.lifts.follows (T := .narrowing blocked) h.size
  write k a := (Metered.count_follows (T := .narrowing blocked) _).bind_freesAll fun _ =>
    Metered.lifts.freesAll (h.write k a)
  writeMiss k := (Metered.count_follows (T := .narrowing blocked) _).bind_freesAll fun _ =>
    Metered.lifts.freesAll (h.writeMiss k)
  read k := by
    refine (Metered.lifts.looks (h.read k)).bind (fun env s => ?_) fun a => ?_
    · exact ⟨rfl, List.Subset.refl _⟩
    · -- a value was found; what follows counts and reports it
      refine (Metered.count_follows (T := .narrowing blocked) _).bind fun _ => ?_
      exact (Op.follows_read _).bind fun _ => (Op.follows_emit _).bind fun _ => Op.follows_pure _
  erase k := (Metered.count_follows (T := .narrowing blocked) _).bind fun _ =>
    Metered.lifts.follows (h.erase k)
  clear := Metered.lifts.follows (T := .narrowing blocked) h.clear

theorem Wrapped.candid (h : Candid blocked) : Candid fun s : Wrapped σ => blocked s.below where
  size := Wrapped.lifts.follows (T := .narrowing blocked) h.size
  write k a := Wrapped.lifts.freesAll (h.write k a)
  writeMiss k := Wrapped.lifts.freesAll (h.writeMiss k)
  read k := Wrapped.lifts.looks (h.read k)
  erase k := Wrapped.lifts.follows (T := .narrowing blocked) (h.erase k)
  clear := Wrapped.lifts.follows (T := .narrowing blocked) h.clear

end Layers

/-- A soft layer looks a key up below it, and says that it found nothing where the store below did
not. What it takes out of that store is free. -/
theorem Soft.candid {κ σ : Type} [DecidableEq κ] [Ord κ] [Std.TransOrd κ] [Store σ κ Handle]
    {blocked : σ → List κ} (h : Candid blocked) :
    Candid fun s : Soft κ σ => blocked s.below where
  size := size_follows (T := .narrowing blocked) h.erase h.size
  write k v := by
    refine Op.FreesAll.holding ?_ v
    -- the write below comes last, after a drain that only removes
    refine (drain_follows (T := .narrowing blocked) h.erase).bind_freesAll fun _ => ?_
    refine (retain_follows (T := .narrowing blocked) k v).bind_freesAll fun _ => ?_
    exact lifts.freesAll (h.write k _)
  writeMiss k := by
    refine (drain_follows (T := .narrowing blocked) h.erase).bind_freesAll fun _ => ?_
    refine (forget_follows (T := .narrowing blocked) k).bind_freesAll fun _ => ?_
    exact lifts.freesAll (h.write k _)
  read k := by
    refine (lifts.looks (h.read k)).bind (fun env s => ⟨rfl, List.Subset.refl _⟩) fun handle => ?_
    -- a handle was found, so the key is not blocked, be the value dead or alive
    exact found_follows (T := .narrowing blocked) h.erase k handle
  erase := erase_follows (T := .narrowing blocked) h.erase
  clear := clear_follows (T := .narrowing blocked) h.erase h.clear

/-! ## Stacks and chains -/

namespace Stack

variable {κ ν β α : Type} [Keeper ν] {blocked : β → List κ}

/-- What is blocked under a stack is what its base store blocks. -/
theorem candid [DecidableEq κ] [Store β κ ν] (h : Candid blocked) {layers : List Layer}
    (hlayers : .session ∉ layers) :
    Candid fun s : Stack κ ν β layers => blocked (base layers s) := by
  induction layers with
  | nil => exact h
  | cons layer layers ih =>
    have hbelow := ih fun hmem => hlayers (List.mem_cons_of_mem layer hmem)
    cases layer with
    | metered => exact Metered.candid hbelow
    | wrapped => exact Wrapped.candid hbelow
    | session => exact absurd List.mem_cons_self hlayers

end Stack

namespace Chain

variable {κ : Type} [Ord κ]

/-- No layer of the chain is a session. -/
def Shape.Forwarding : Shape → Prop
  | .plain layers => .session ∉ layers
  | .soft upper lower => .session ∉ upper ∧ .session ∉ lower

instance : (shape : Shape) → Decidable shape.Forwarding
  | .plain layers => inferInstanceAs (Decidable (.session ∉ layers))
  | .soft upper lower => inferInstanceAs (Decidable (.session ∉ upper ∧ .session ∉ lower))

/-- The keys that the base store of a chain blocks at present. -/
def blocked : (shape : Shape) → Chain κ (fun ν => Probe κ ν) shape → List κ
  | .plain layers, c => (Stack.base layers c).blocked
  | .soft upper lower, c => (Stack.base lower (Stack.base upper c).below).blocked

variable [DecidableEq κ] [Std.TransOrd κ]

theorem candid {shape : Shape} (h : shape.Forwarding) :
    Candid (blocked shape : Chain κ (fun ν => Probe κ ν) shape → List κ) := by
  cases shape with
  | plain layers => exact Stack.candid Probe.candid h
  | soft upper lower => exact Stack.candid (Soft.candid (Stack.candid Probe.candid h.2)) h.1

end Chain

end SoftTier
