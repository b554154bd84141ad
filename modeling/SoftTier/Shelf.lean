import SoftTier.Store

/-!
# Several stores side by side

A shelf holds stores that share nothing. An operation on one of them leaves the others as they are,
and what they hold stays alive meanwhile.
-/

namespace SoftTier

/-- Stores side by side, each with a number. -/
abbrev Shelf (σ : Type) (n : Nat) := Vector σ n

namespace Shelf

variable {σ α : Type} {n : Nat}

/-- The `i`-th store. -/
def nth (s : Shelf σ n) (i : Fin n) : σ := s.get i

/-- Puts a store in the place of the `i`-th. -/
def put (s : Shelf σ n) (i : Fin n) (a : σ) : Shelf σ n := s.set i.val a i.isLt

@[simp] theorem nth_put_self (s : Shelf σ n) (i : Fin n) (a : σ) : (s.put i a).nth i = a := by
  show (s.set i.val a i.isLt)[i.val] = a
  simp

theorem nth_put_of_ne (s : Shelf σ n) {i j : Fin n} (a : σ) (h : j ≠ i) :
    (s.put i a).nth j = s.nth j := by
  have hne : i.val ≠ j.val := fun hv => h (Fin.ext hv.symm)
  show (s.set i.val a i.isLt)[j.val] = s[j.val]
  exact Vector.getElem_set_ne i.isLt j.isLt hne

/-- A shelf keeps what its stores keep. -/
instance [Keeper σ] : Keeper (Shelf σ n) := ⟨fun s => keeps s.toList⟩

/-- Whether a store other than the `i`-th keeps the value. -/
def keepsBeside [Keeper σ] (s : Shelf σ n) (i : Fin n) (v : Value) : Bool :=
  (List.finRange n).any fun j => j != i && keeps (s.nth j) v

/-- The surroundings of an operation on the `i`-th store: what the other stores keep is kept. -/
def beside [Keeper σ] (s : Shelf σ n) (i : Fin n) (env : Ambient) : Ambient :=
  { env with held := fun v => env.held v || s.keepsBeside i v }

/-- Runs an operation on the `i`-th store. -/
def onStore [Keeper σ] (i : Fin n) (x : Op σ α) : Op (Shelf σ n) α := fun env s =>
  let o := x (s.beside i env) (s.nth i)
  ⟨o.result, s.put i o.state, o.events⟩

end Shelf

end SoftTier
