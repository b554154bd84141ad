import SoftTier.Proofs.Assoc
import SoftTier.Proofs.Op
import SoftTier.Store.Table

/-!
# What the base store holds

No operation of the base store fails, and what it holds under a key after a change is told by one
equation for each change.

- `Table.write_yields` and so on: what the operations yield.
- `Table.getElem?_put`, `Table.getElem?_remove`: the entry under a key after a change.
- `Table.putAll`, `Table.putMisses`, `Table.removeWhere`: many changes one after the other.
-/

namespace SoftTier

namespace Table

section Yields

variable {κ ν : Type} [Ord κ] [Std.TransOrd κ] [Keeper ν] {env : Ambient} {t : Table κ ν}

theorem size_yields : Op.Yields (Store.size : Op (Table κ ν) Nat) env t t.entries.size t :=
  Op.yields_read _

theorem write_yields (k : κ) (a : ν) :
    Op.Yields (Store.write k a : Op (Table κ ν) Unit) env t () (t.put k (some a)) :=
  Op.yields_update _

theorem writeMiss_yields (k : κ) :
    Op.Yields (Store.writeMiss k : Op (Table κ ν) Unit) env t () (t.put k none) :=
  Op.yields_update _

theorem read_yields (k : κ) :
    Op.Yields (Store.read k : Op (Table κ ν) (Option ν)) env t (t.value? k) t :=
  Op.yields_read _

theorem erase_yields (k : κ) :
    Op.Yields (Store.erase k : Op (Table κ ν) (Option ν)) env t (t.value? k) (t.remove k) :=
  (Op.yields_read _).bind ((Op.yields_update _).bind (Op.yields_pure _))

theorem clear_yields :
    Op.Yields (Store.clear : Op (Table κ ν) Unit) env t () { t with entries := ∅ } :=
  Op.yields_update _

end Yields

/-! ## Entries -/

variable {κ ν : Type} [Ord κ] [Std.TransOrd κ]

/-- Puts entries in one after the other. -/
def putAll (es : Assoc κ (Option ν)) (t : Table κ ν) : Table κ ν :=
  es.foldl (fun t e => t.put e.1 e.2) t

/-- Puts misses in one after the other. -/
def putMisses (l : List κ) (t : Table κ ν) : Table κ ν := l.foldl (fun t k => t.put k none) t

/-- Takes out the entries under keys that satisfy `dead`. -/
def removeWhere (dead : κ → Bool) (l : List κ) (t : Table κ ν) : Table κ ν :=
  l.foldl (fun t k => if dead k then t.remove k else t) t

theorem name_removeWhere (dead : κ → Bool) (l : List κ) (t : Table κ ν) :
    (t.removeWhere dead l).name = t.name := by
  induction l generalizing t with
  | nil => rfl
  | cons k l ih =>
    refine (ih _).trans ?_
    dsimp only
    split <;> rfl

/-- What a key reads as, by its entry. -/
theorem value?_eq {k : κ} {t : Table κ ν} {entry : Option (Option ν)}
    (h : t.entries[k]? = entry) : t.value? k = entry.join := by
  rw [value?, h]

/-- Two tables are the same if they have one name and the same under every key. -/
theorem ext_getElem? [Std.LawfulEqOrd κ] {t t' : Table κ ν} (hname : t.name = t'.name)
    (hentries : ∀ k : κ, t.entries[k]? = t'.entries[k]?) : t = t' := by
  obtain ⟨name, entries⟩ := t
  obtain ⟨name', entries'⟩ := t'
  cases hname
  exact congrArg (Table.mk name) (Std.ExtTreeMap.ext_getElem? hentries)

variable [DecidableEq κ] [Std.LawfulEqOrd κ]

theorem getElem?_put (k k' : κ) (entry : Option ν) (t : Table κ ν) :
    (t.put k entry).entries[k']? = if k = k' then some entry else t.entries[k']? := by
  rw [put, Std.ExtTreeMap.getElem?_insert]
  simp only [Std.compare_eq_iff_eq]

theorem getElem?_remove (k k' : κ) (t : Table κ ν) :
    (t.remove k).entries[k']? = if k = k' then none else t.entries[k']? := by
  rw [remove, Std.ExtTreeMap.getElem?_erase]
  simp only [Std.compare_eq_iff_eq]

theorem getElem?_removeWhere (dead : κ → Bool) (l : List κ) (k : κ) (t : Table κ ν) :
    (t.removeWhere dead l).entries[k]? =
      if k ∈ l ∧ dead k = true then none else t.entries[k]? := by
  induction l generalizing t with
  | nil => simp [removeWhere]
  | cons k' l ih =>
    have hcons : t.removeWhere dead (k' :: l) =
        (if dead k' then t.remove k' else t).removeWhere dead l := rfl
    rw [hcons, ih]
    by_cases hk : k' = k
    · subst hk
      by_cases hdead : dead k' = true
      · simp [hdead, getElem?_remove]
      · simp [hdead]
    · have hget : (if dead k' then t.remove k' else t).entries[k]? = t.entries[k]? := by
        split
        · rw [getElem?_remove, if_neg hk]
        · rfl
      rw [hget]
      simp only [List.mem_cons, Ne.symm hk, false_or]

/-- Of entries put in one after the other, the last one under a key counts. -/
theorem getElem?_putAll_reverse (es : Assoc κ (Option ν)) (k : κ) (t : Table κ ν) :
    (t.putAll es).entries[k]? = (Assoc.get? k es.reverse).or t.entries[k]? := by
  induction es generalizing t with
  | nil => rfl
  | cons e es ih =>
    obtain ⟨k', entry⟩ := e
    have hcons : t.putAll ((k', entry) :: es) = (t.put k' entry).putAll es := rfl
    have hput : (t.put k' entry).entries[k]? =
        (Assoc.get? k [(k', entry)]).or t.entries[k]? := by
      rw [getElem?_put, Assoc.get?]
      split <;> rfl
    rw [hcons, ih, List.reverse_cons, Assoc.get?_append, hput, Option.or_assoc]

/-- Without repeated keys the order plays no part. -/
theorem getElem?_putAll {es es' : Assoc κ (Option ν)} (hes : es.keys.Nodup) (hperm : es'.Perm es)
    (k : κ) (t : Table κ ν) :
    (t.putAll es').entries[k]? = (Assoc.get? k es).or t.entries[k]? := by
  rw [getElem?_putAll_reverse, Assoc.get?_perm hes (es'.reverse_perm.trans hperm)]

theorem getElem?_putMisses (l : List κ) (k : κ) (t : Table κ ν) :
    (t.putMisses l).entries[k]? = if k ∈ l then some none else t.entries[k]? := by
  induction l generalizing t with
  | nil => rfl
  | cons k' l ih =>
    have hcons : t.putMisses (k' :: l) = (t.put k' none).putMisses l := rfl
    rw [hcons, ih, getElem?_put]
    by_cases hk : k' = k
    · simp [hk]
    · simp [hk, Ne.symm hk]

end Table

end SoftTier
