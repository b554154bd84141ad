import Mathlib.Data.List.Nodup
import SoftTier.Assoc

/-!
# Association lists with unrepeated keys

While no key is repeated, what `get?` finds under a key is what is listed with it, and both ways of
changing a list keep its keys unrepeated.

- `Assoc.get?_eq_some_iff`, `Assoc.get?_eq_none_iff`: looking up and membership.
- `Assoc.nodup_keys_insert`, `Assoc.nodup_keys_erase`: keys stay unrepeated.
-/

namespace SoftTier

/-- Of a list without repeated keys, the members whose keys come up in a part are that part. -/
theorem filter_mem_map_of_sublist {α β : Type} [DecidableEq β] (key : α → β) {l₁ l₂ : List α}
    (h : l₁.Sublist l₂) (hl : (l₂.map key).Nodup) :
    l₂.filter (fun a => key a ∈ l₁.map key) = l₁ := by
  induction h with
  | slnil => rfl
  | cons a h ih =>
    obtain ⟨hnot, hl⟩ := List.nodup_cons.mp hl
    have ha : key a ∉ List.map key _ := fun hmem => hnot ((h.map key).subset hmem)
    rw [List.filter_cons_of_neg (by simpa using ha), ih hl]
  | cons_cons a h ih =>
    obtain ⟨hnot, hl⟩ := List.nodup_cons.mp hl
    rw [List.filter_cons_of_pos (by simp)]
    refine congrArg (a :: ·) ((List.filter_congr fun b hb => ?_).trans (ih hl))
    -- the key of `a` stands nowhere else, so it decides nothing for the others
    have hne : key b ≠ key a := fun heq => hnot (List.mem_map.mpr ⟨b, hb, heq⟩)
    simp [hne]

namespace Assoc

variable {κ α : Type}

theorem mem_keys {k : κ} {l : Assoc κ α} : k ∈ l.keys ↔ ∃ a, (k, a) ∈ l := by
  simp [keys]

theorem mem_keys_of_mem {k : κ} {a : α} {l : Assoc κ α} (h : (k, a) ∈ l) : k ∈ l.keys :=
  mem_keys.mpr ⟨a, h⟩

theorem notin_keys_of_nodup {k : κ} {a : α} {l₁ l₂ : Assoc κ α}
    (h : (keys (l₁ ++ (k, a) :: l₂)).Nodup) : k ∉ l₁.keys ∧ k ∉ l₂.keys := by
  have hp : (keys (l₁ ++ (k, a) :: l₂)).Perm (k :: keys (l₁ ++ l₂)) :=
    List.perm_middle.map Prod.fst
  have hk := (List.nodup_cons.mp (hp.nodup_iff.mp h)).1
  rwa [keys, List.map_append, List.mem_append, not_or] at hk

/-- Where a list without repeated keys is cut, no key stands on either side. -/
theorem notin_keys_take_of_mem_drop {l : Assoc κ α} (h : l.keys.Nodup) {n : Nat} {e : κ × α}
    (he : e ∈ l.drop n) : e.1 ∉ keys (l.take n) := by
  have hcut : keys (l.take n) ++ keys (l.drop n) = l.keys := by
    rw [keys, keys, ← List.map_append, List.take_append_drop, keys]
  intro hmem
  exact List.disjoint_of_nodup_append (hcut ▸ h) hmem (List.mem_map_of_mem he)

variable [DecidableEq κ]

theorem get?_append (k : κ) (l₁ l₂ : Assoc κ α) :
    get? k (l₁ ++ l₂) = (get? k l₁).or (get? k l₂) := by
  induction l₁ with
  | nil => rfl
  | cons e l₁ ih =>
    obtain ⟨k', a⟩ := e
    by_cases h : k' = k
    · simp [get?, h]
    · simp only [List.cons_append, get?, if_neg h, ih]

theorem get?_map_const (k : κ) (a : α) (l : List κ) :
    get? k (l.map (·, a)) = if k ∈ l then some a else none := by
  induction l with
  | nil => rfl
  | cons k' l ih =>
    rw [List.map_cons, get?, ih]
    by_cases h : k' = k
    · simp [h]
    · simp [h, Ne.symm h]

theorem get?_eq_none_iff {k : κ} {l : Assoc κ α} : get? k l = none ↔ k ∉ l.keys := by
  induction l with
  | nil => simp [keys]
  | cons e l ih =>
    obtain ⟨k', a⟩ := e
    by_cases h : k' = k
    · simp [get?, keys, h]
    · rw [get?, if_neg h, ih]
      simp [keys, Ne.symm h]

theorem mem_of_get?_eq_some {k : κ} {a : α} {l : Assoc κ α} (h : get? k l = some a) :
    (k, a) ∈ l := by
  induction l with
  | nil => exact absurd h (by simp)
  | cons e l ih =>
    obtain ⟨k', b⟩ := e
    rw [get?] at h
    split at h
    · rename_i hk
      cases h
      exact hk ▸ List.mem_cons_self
    · exact List.mem_cons_of_mem _ (ih h)

/-- Without repeated keys, an entry is found exactly where it is listed. -/
theorem get?_eq_some_iff {k : κ} {a : α} {l : Assoc κ α} (hl : l.keys.Nodup) :
    get? k l = some a ↔ (k, a) ∈ l := by
  refine ⟨mem_of_get?_eq_some, fun h => ?_⟩
  cases hget : get? k l with
  | none => exact absurd (mem_keys_of_mem h) (get?_eq_none_iff.mp hget)
  | some b =>
    have heq := List.inj_on_of_nodup_map hl h (mem_of_get?_eq_some hget) rfl
    rw [(Prod.mk.inj heq).2]

theorem get?_perm {l₁ l₂ : Assoc κ α} (hl : l₁.keys.Nodup) (hp : l₂.Perm l₁) (k : κ) :
    get? k l₂ = get? k l₁ := by
  have hl₂ : l₂.keys.Nodup := (hp.map Prod.fst).nodup_iff.mpr hl
  refine Option.ext fun a => ?_
  rw [get?_eq_some_iff hl, get?_eq_some_iff hl₂, hp.mem_iff]

theorem has_iff {k : κ} {l : Assoc κ α} : l.has k = true ↔ k ∈ l.keys := by
  rw [has, ← Option.ne_none_iff_isSome, ne_eq, get?_eq_none_iff, not_not]

theorem has_eq_false_iff {k : κ} {l : Assoc κ α} : l.has k = false ↔ k ∉ l.keys := by
  rw [← has_iff, Bool.not_eq_true]

/-! ## Taking out -/

theorem mem_erase {k : κ} {e : κ × α} {l : Assoc κ α} : e ∈ l.erase k ↔ e ∈ l ∧ e.1 ≠ k := by
  simp [erase]

theorem keys_erase (k : κ) (l : Assoc κ α) : (l.erase k).keys = l.keys.filter (· ≠ k) := by
  rw [keys, keys, List.filter_map]
  rfl

theorem mem_keys_erase {k k' : κ} {l : Assoc κ α} :
    k' ∈ (l.erase k).keys ↔ k' ∈ l.keys ∧ k' ≠ k := by
  simp [keys_erase]

theorem nodup_keys_erase {l : Assoc κ α} (h : l.keys.Nodup) (k : κ) :
    (l.erase k).keys.Nodup := by
  rw [keys_erase]
  exact h.filter _

theorem erase_append (k : κ) (l₁ l₂ : Assoc κ α) :
    erase k (l₁ ++ l₂) = erase k l₁ ++ erase k l₂ := List.filter_append ..

theorem erase_eq_self {k : κ} {l : Assoc κ α} (h : k ∉ l.keys) : l.erase k = l := by
  refine List.filter_eq_self.mpr fun e he => ?_
  exact decide_eq_true fun hk => h (hk ▸ List.mem_map_of_mem he)

theorem length_erase_lt {k : κ} {l : Assoc κ α} (h : k ∈ l.keys) :
    (l.erase k).length < l.length := by
  obtain ⟨a, ha⟩ := mem_keys.mp h
  exact List.length_filter_lt_length_iff_exists.mpr ⟨(k, a), ha, by simp⟩

theorem get?_middle {k : κ} {a : α} {l₁ l₂ : Assoc κ α}
    (h : (keys (l₁ ++ (k, a) :: l₂)).Nodup) : get? k (l₁ ++ (k, a) :: l₂) = some a :=
  (get?_eq_some_iff h).mpr (by simp)

theorem erase_middle {k : κ} {a : α} {l₁ l₂ : Assoc κ α}
    (h : (keys (l₁ ++ (k, a) :: l₂)).Nodup) : erase k (l₁ ++ (k, a) :: l₂) = l₁ ++ l₂ := by
  obtain ⟨h₁, h₂⟩ := notin_keys_of_nodup h
  have hcons : erase k ((k, a) :: l₂) = erase k l₂ := by simp [erase]
  rw [erase_append, hcons, erase_eq_self h₁, erase_eq_self h₂]

/-- Entries that stand in a list in the same order are found there by their keys. -/
theorem filter_has_of_sublist {l₁ l₂ : Assoc κ α} (h : l₁.Sublist l₂) (hl : l₂.keys.Nodup) :
    l₂.filter (fun e => l₁.has e.1) = l₁ := by
  refine (List.filter_congr fun e _ => ?_).trans (filter_mem_map_of_sublist Prod.fst h hl)
  exact Bool.eq_iff_iff.mpr (has_iff.trans (decide_eq_true_iff (p := e.1 ∈ l₁.map Prod.fst)).symm)

/-- Of a list whose first part is cut at `n`, an entry in front leaves the same as of that part, and
then some of the rest. -/
theorem take_cons_erase {k : κ} {l₁ : Assoc κ α} (hk : k ∉ l₁.keys) (a : α) (l₂ : Assoc κ α)
    (n : Nat) : ∃ rest, (∀ e ∈ rest, e ∈ l₂) ∧
      ((k, a) :: erase k (l₁.take n ++ l₂)).take n = ((k, a) :: l₁).take n ++ rest := by
  have hcut : k ∉ keys (l₁.take n) := fun hmem =>
    hk (List.Sublist.subset ((List.take_sublist ..).map _) hmem)
  rw [erase_append, erase_eq_self hcut]
  cases n with
  | zero => exact ⟨[], fun e he => absurd he List.not_mem_nil, rfl⟩
  | succ n =>
    refine ⟨(erase k l₂).take (n - (l₁.take (n + 1)).length), fun e he => ?_, ?_⟩
    · exact (mem_erase.mp (List.mem_of_mem_take he)).1
    · rw [List.take_succ_cons, List.take_succ_cons, List.take_append, List.take_take,
        Nat.min_eq_left (Nat.le_succ n), List.cons_append]

/-! ## Putting in -/

theorem keys_insert_of_mem {k : κ} (a : α) {l : Assoc κ α} (h : k ∈ l.keys) :
    (l.insert k a).keys = l.keys := by
  induction l with
  | nil => exact absurd h List.not_mem_nil
  | cons e l ih =>
    obtain ⟨k', b⟩ := e
    rw [insert]
    split
    · rfl
    · rename_i hk
      exact congrArg (k' :: ·) (ih ((List.mem_cons.mp h).resolve_left (Ne.symm hk)))

/-- A new key comes last. -/
theorem insert_of_notin {k : κ} (a : α) {l : Assoc κ α} (h : k ∉ l.keys) :
    l.insert k a = l ++ [(k, a)] := by
  induction l with
  | nil => rfl
  | cons e l ih =>
    obtain ⟨k', b⟩ := e
    rw [keys, List.map_cons, List.mem_cons, not_or] at h
    rw [insert, if_neg (Ne.symm h.1), ih h.2]
    rfl

theorem nodup_keys_insert {l : Assoc κ α} (h : l.keys.Nodup) (k : κ) (a : α) :
    (l.insert k a).keys.Nodup := by
  by_cases hk : k ∈ l.keys
  · rwa [keys_insert_of_mem a hk]
  · rw [insert_of_notin a hk, keys, List.map_append]
    exact List.Nodup.append h (List.nodup_singleton k) (List.disjoint_singleton.mpr hk)

theorem mem_keys_insert {k k' : κ} {a : α} {l : Assoc κ α} :
    k' ∈ (l.insert k a).keys ↔ k' = k ∨ k' ∈ l.keys := by
  rw [← has_iff, has, get?_insert, ← has_iff, has]
  by_cases hk : k = k'
  · simp [hk]
  · simp [hk, Ne.symm hk]

theorem mem_of_mem_insert {k : κ} {a : α} {e : κ × α} {l : Assoc κ α} (he : e ∈ l.insert k a) :
    e = (k, a) ∨ e ∈ l := by
  induction l with
  | nil => exact .inl (List.mem_singleton.mp he)
  | cons e' l ih =>
    obtain ⟨k', b⟩ := e'
    rw [insert] at he
    split at he
    · rename_i hk
      rw [hk] at he
      exact (List.mem_cons.mp he).imp_right (List.mem_cons_of_mem _)
    · rcases List.mem_cons.mp he with rfl | he
      · exact .inr List.mem_cons_self
      · exact (ih he).imp_right (List.mem_cons_of_mem _)

/-- Of entries put in one after the other, the last one under a key counts. -/
theorem get?_foldl_insert (k : κ) (es l : Assoc κ α) :
    get? k (es.foldl (fun l e => insert e.1 e.2 l) l) = (get? k es.reverse).or (get? k l) := by
  induction es generalizing l with
  | nil => rfl
  | cons e es ih =>
    obtain ⟨k', a⟩ := e
    have hget : get? k (insert k' a l) = (get? k [(k', a)]).or (get? k l) := by
      rw [get?_insert, get?]
      split <;> rfl
    rw [List.foldl_cons, ih, List.reverse_cons, get?_append, hget, Option.or_assoc]

theorem nodup_keys_foldl_insert (es : Assoc κ α) {l : Assoc κ α} (h : l.keys.Nodup) :
    (keys (es.foldl (fun l e => insert e.1 e.2 l) l)).Nodup := by
  induction es generalizing l with
  | nil => exact h
  | cons e es ih => exact ih (nodup_keys_insert h e.1 e.2)

end Assoc

/-! ## Entries that have a value -/

namespace Assoc

variable {κ α : Type}

/-- The entries that have a value. -/
def valued (l : Assoc κ (Option α)) : Assoc κ α := l.filterMap fun e => e.2.map (e.1, ·)

theorem mem_valued {k : κ} {a : α} {l : Assoc κ (Option α)} :
    (k, a) ∈ l.valued ↔ (k, some a) ∈ l := by
  simp [valued]

theorem valued_append (l₁ l₂ : Assoc κ (Option α)) :
    valued (l₁ ++ l₂) = l₁.valued ++ l₂.valued := List.filterMap_append ..

theorem keys_valued_sublist (l : Assoc κ (Option α)) : l.valued.keys.Sublist l.keys := by
  induction l with
  | nil => exact .slnil
  | cons e l ih =>
    obtain ⟨k, entry⟩ := e
    cases entry with
    | none => exact ih.cons k
    | some a => exact ih.cons_cons k

/-- If every key has a value, none is lost. -/
theorem keys_valued {l : Assoc κ (Option α)} (h : ∀ e ∈ l, e.2.isSome) :
    l.valued.keys = l.keys := by
  refine (keys_valued_sublist l).eq_of_length ?_
  rw [keys, keys, List.length_map, List.length_map, valued, List.length_filterMap_eq_countP,
    List.countP_eq_length]
  intro e he
  rw [Option.isSome_map]
  exact h e he

theorem notin_keys_valued_reverse {k : κ} {l : Assoc κ (Option α)} (hk : k ∉ l.keys) :
    k ∉ (valued l.reverse).keys := by
  intro hmem
  have hrev := (keys_valued_sublist l.reverse).subset hmem
  rw [keys, List.map_reverse, List.mem_reverse] at hrev
  exact hk hrev

end Assoc

end SoftTier
