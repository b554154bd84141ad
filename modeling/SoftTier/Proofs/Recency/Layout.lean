import Mathlib.Data.List.Nodup
import Mathlib.Data.List.Perm.Subperm
import SoftTier.Proofs.Recency.Links

/-!
# The layout of a recency list

The links, the index, the slots and the free slots of a recency list all tell of the same entries.
`Layout t l` states it for the cells `l`, the newest first, and every operation is told by what it
does to these cells.

- `Recency.Indexed`, `Recency.Stocked`: what the index and the free slots have to do with the cells.
- `Recency.Layout`: the representation invariant.
- `Layout.toList_eq`, `Layout.toListFromOldest_eq`: what is seen from either end.
- `Layout.promote`, `Layout.setValue`, `Layout.vacate`, `Layout.occupy`: the four things that
  operations are made of.
-/

namespace SoftTier

namespace Recency

variable {κ ν : Type} [Ord κ] [Std.TransOrd κ]

/-! ## The index -/

/-- The index leads the key of every cell to its slot, and no other key anywhere. -/
structure Indexed (m : Std.ExtTreeMap κ Nat) (l : List (Cell κ ν)) : Prop where
  keys_nodup : (l.map Cell.key).Nodup
  lookup : ∀ k i, m[k]? = some i ↔ ∃ c ∈ l, c.key = k ∧ c.slot = i
  size_eq : m.size = l.length

namespace Indexed

variable {m : Std.ExtTreeMap κ Nat} {l l' : List (Cell κ ν)} {c : Cell κ ν}

theorem perm (h : Indexed m l) (hp : l'.Perm l) : Indexed m l' where
  keys_nodup := (hp.map Cell.key).nodup_iff.mpr h.keys_nodup
  lookup k i := (h.lookup k i).trans (exists_congr fun _ => and_congr_left' hp.symm.mem_iff)
  size_eq := h.size_eq.trans hp.length_eq.symm

theorem getElem?_of_mem (h : Indexed m l) (hc : c ∈ l) : m[c.key]? = some c.slot :=
  (h.lookup _ _).mpr ⟨c, hc, rfl, rfl⟩

/-- The index knows a key exactly if a cell has it. -/
theorem contains_iff (h : Indexed m l) (k : κ) : m.contains k = true ↔ k ∈ l.map Cell.key := by
  rw [Std.ExtTreeMap.contains_eq_isSome_getElem?, Option.isSome_iff_exists]
  constructor
  · rintro ⟨i, hi⟩
    obtain ⟨c, hc, hk, -⟩ := (h.lookup k i).mp hi
    exact List.mem_map.mpr ⟨c, hc, hk⟩
  · intro hk
    obtain ⟨c, hc, rfl⟩ := List.mem_map.mp hk
    exact ⟨c.slot, h.getElem?_of_mem hc⟩

theorem setValue {l₁ l₂ : List (Cell κ ν)} (h : Indexed m (l₁ ++ c :: l₂)) (v : ν) :
    Indexed m (l₁ ++ { c with value := v } :: l₂) where
  keys_nodup := by simpa using h.keys_nodup
  lookup k i := (h.lookup k i).trans (by simp [or_and_right, exists_or])
  size_eq := h.size_eq.trans (by simp)

variable [Std.LawfulEqOrd κ]

theorem insert (h : Indexed m l) (hc : c.key ∉ l.map Cell.key) :
    Indexed (m.insert c.key c.slot) (c :: l) where
  keys_nodup := List.nodup_cons.mpr ⟨hc, h.keys_nodup⟩
  lookup k i := by
    rw [Std.ExtTreeMap.getElem?_insert]
    by_cases hk : c.key = k
    · subst hk
      rw [if_pos Std.ReflCmp.compare_self]
      constructor
      · rintro ⟨⟩
        exact ⟨c, List.mem_cons_self, rfl, rfl⟩
      · rintro ⟨d, hd, hdk, rfl⟩
        rcases List.mem_cons.mp hd with rfl | hd
        · rfl
        · exact absurd (List.mem_map.mpr ⟨d, hd, hdk⟩) hc
    · rw [if_neg (mt Std.compare_eq_iff_eq.mp hk), h.lookup]
      simp [hk]
  size_eq := by
    rw [Std.ExtTreeMap.size_insert, if_neg (mt (h.contains_iff _).mp hc), h.size_eq]
    rfl

theorem erase (h : Indexed m (c :: l)) : Indexed (m.erase c.key) l where
  keys_nodup := (List.nodup_cons.mp h.keys_nodup).2
  lookup k i := by
    have hc : c.key ∉ l.map Cell.key := (List.nodup_cons.mp h.keys_nodup).1
    rw [Std.ExtTreeMap.getElem?_erase]
    by_cases hk : c.key = k
    · subst hk
      rw [if_pos Std.ReflCmp.compare_self]
      refine ⟨fun hn => absurd hn (by simp), fun ⟨d, hd, hdk, _⟩ => ?_⟩
      exact absurd (List.mem_map.mpr ⟨d, hd, hdk⟩) hc
    · rw [if_neg (mt Std.compare_eq_iff_eq.mp hk), h.lookup]
      simp [hk]
  size_eq := by
    have hc := (h.contains_iff c.key).mpr List.mem_cons_self
    rw [Std.ExtTreeMap.size_erase, if_pos hc, h.size_eq]
    rfl

end Indexed

/-! ## The slots -/

/-- The slots that hold an entry are those of the cells, and the others are free. -/
structure Stocked (t : Recency κ ν) (l : List (Cell κ ν)) : Prop where
  covers : ∀ i e, t.content? i = some e → i ∈ slotsOf l
  free_nodup : t.free.Nodup
  mem_free : ∀ i, i ∈ t.free ↔ i < t.slots.size ∧ t.content? i = none

/-- The recency list represents these cells, the newest first. -/
structure Layout (t : Recency κ ν) (l : List (Cell κ ν)) : Prop extends
  Linked t l, Stocked t l where
  indexed : Indexed t.index l

/-- A list without slots has no cells. -/
theorem layout_empty (capacity : Nat) :
    Layout (⟨∅, #[], none, none, [], capacity⟩ : Recency κ ν) [] where
  slots_nodup := List.nodup_nil
  segment := trivial
  newest := rfl
  oldest := rfl
  covers i e he := by simp [content?, node?] at he
  free_nodup := List.nodup_nil
  mem_free i := by simp
  indexed := ⟨List.nodup_nil, by simp, by simp⟩

namespace Layout

variable {t t' : Recency κ ν} {l l' l₁ l₂ : List (Cell κ ν)} {c : Cell κ ν}

theorem content?_eq (h : t.Layout l) (hc : c ∈ l) : t.content? c.slot = some c.entry :=
  h.segment.content?_eq hc

/-- No cell has a free slot. -/
theorem slot_not_mem_free (h : t.Layout l) (hc : c ∈ l) : c.slot ∉ t.free := by
  intro hfree
  have hnone := ((h.mem_free c.slot).mp hfree).2
  rw [h.content?_eq hc] at hnone
  exact absurd hnone (by simp)

theorem slot_lt (h : t.Layout l) (hc : c ∈ l) : c.slot < t.slots.size := by
  obtain ⟨newer, older, hn⟩ := h.segment.node?_eq hc
  rw [node?, Option.join_eq_some_iff, Array.getElem?_eq_some_iff] at hn
  exact hn.1

/-- There is a slot for every cell. -/
theorem length_le (h : t.Layout l) : l.length ≤ t.slots.size := by
  have hsub : slotsOf l ⊆ List.range t.slots.size := by
    intro i hi
    obtain ⟨c, hc, rfl⟩ := List.mem_map.mp hi
    exact List.mem_range.mpr (h.slot_lt hc)
  simpa using (h.slots_nodup.subperm hsub).length_le

/-! ## What is seen -/

theorem toList_eq (h : t.Layout l) : t.toList = l.map Cell.entry := by
  rw [toList, h.newest]
  exact h.segment.walk_older h.length_le

theorem toListFromOldest_eq (h : t.Layout l) : t.toListFromOldest = (l.map Cell.entry).reverse := by
  rw [toListFromOldest, h.oldest]
  exact h.segment.walk_newer h.length_le

/-- The values in the slots are those of the cells. -/
theorem any_eq (h : t.Layout l) (p : ν → Bool) : t.any p = l.any fun c => p c.value := by
  rw [Bool.eq_iff_iff, any, List.any_eq_true, List.any_eq_true]
  constructor
  · rintro ⟨n?, hmem, hp⟩
    cases n? with
    | none => exact absurd hp (by simp)
    | some n =>
      -- a slot with an entry is some cell's, as the cells cover the slots
      obtain ⟨i, hi⟩ := List.mem_iff_getElem?.mp hmem
      have hi : t.content? i = some (n.key, n.value) := by
        rw [Array.getElem?_toList] at hi
        rw [content?, node?, hi]
        rfl
      obtain ⟨c, hc, rfl⟩ := List.mem_map.mp (h.covers i _ hi)
      rw [h.content?_eq hc] at hi
      obtain ⟨-, hv⟩ := Prod.mk.inj (Option.some.inj hi)
      exact ⟨c, hc, hv ▸ hp⟩
  · rintro ⟨c, hc, hp⟩
    obtain ⟨newer, older, hn⟩ := h.segment.node?_eq hc
    rw [node?, Option.join_eq_some_iff] at hn
    refine ⟨some ⟨c.key, c.value, newer, older⟩, ?_, hp⟩
    exact List.mem_of_getElem? ((Array.getElem?_toList ..).trans hn)

/-! ## What operations are made of -/

/-- A change of links keeps the layout, up to the order of the cells. -/
theorem relink (h : t.Layout l) (ho : LinksOnly t t') (hl : t'.Linked l') (hp : l'.Perm l) :
    t'.Layout l' where
  toLinked := hl
  indexed := ho.index ▸ h.indexed.perm hp
  covers i e he := (hp.map Cell.slot).mem_iff.mpr (h.covers i e (ho.content? i ▸ he))
  free_nodup := ho.free ▸ h.free_nodup
  mem_free i := by rw [ho.free, ho.slots_size, ho.content?, h.mem_free]

/-- The bound has no part in the layout. -/
theorem setCapacity (h : t.Layout l) (n : Nat) : { t with capacity := n }.Layout l where
  slots_nodup := h.slots_nodup
  segment := h.segment.frame fun _ _ => rfl
  newest := h.newest
  oldest := h.oldest
  covers := h.covers
  free_nodup := h.free_nodup
  mem_free := h.mem_free
  indexed := h.indexed

/-- Making a cell's entry the newest moves the cell to the front. -/
theorem promote (h : t.Layout (l₁ ++ c :: l₂)) : (t.promote c.slot).Layout (c :: (l₁ ++ l₂)) :=
  h.relink (linksOnly_promote t c.slot) h.toLinked.promote List.perm_middle.symm

/-- Overwriting the value in a cell's slot changes the cell where it stands. -/
theorem setValue (h : t.Layout (l₁ ++ c :: l₂)) (v : ν) :
    (t.adjust c.slot fun m => { m with value := v }).Layout
      (l₁ ++ { c with value := v } :: l₂) := by
  have hslots : slotsOf (l₁ ++ { c with value := v } :: l₂) = slotsOf (l₁ ++ c :: l₂) := by
    simp [slotsOf]
  have hc₁ : c.slot ∉ slotsOf l₁ := h.toLinked.slot_notin_before
  have hc₂ : c.slot ∉ slotsOf l₂ := h.toLinked.slot_notin_after
  obtain ⟨h₁, hc, h₂⟩ := segment_append.mp h.segment
  generalize ht' : t.adjust c.slot (fun m => { m with value := v }) = t'
  have hnode : ∀ i, c.slot ≠ i → t'.node? i = t.node? i := fun i hi =>
    ht' ▸ node?_adjust_of_ne hi t _
  have hnone : ∀ i, t'.content? i = none ↔ t.content? i = none := fun i => by
    rw [← ht', content?, node?_adjust]
    split <;> simp [content?]
  refine { slots_nodup := hslots ▸ h.slots_nodup, segment := segment_append.mpr ⟨?_, ?_, ?_⟩,
           newest := ?_, oldest := ?_, indexed := ht' ▸ h.indexed.setValue v,
           covers := fun i e he => ?_, free_nodup := ht' ▸ h.free_nodup,
           mem_free := fun i => ?_ }
  · exact h₁.frame fun i hi => hnode i fun hci => hc₁ (hci ▸ hi)
  · rw [← ht', node?_adjust, if_pos rfl, hc]
    rfl
  · exact h₂.frame fun i hi => hnode i fun hci => hc₂ (hci ▸ hi)
  · rw [← ht', headSlot_append]
    exact h.newest.trans (headSlot_append ..)
  · rw [← ht', lastSlot_append]
    exact h.oldest.trans (lastSlot_append ..)
  · rw [hslots]
    cases hti : t.content? i with
    | none => simp [(hnone i).mpr hti] at he
    | some e' => exact h.covers i e' hti
  · rw [hnone, ← ht']
    simpa [adjust] using h.mem_free i

/-- Emptying a cell's slot hands out its entry and takes the cell away. -/
theorem vacate [Std.LawfulEqOrd κ] (h : t.Layout (l₁ ++ c :: l₂)) :
    (t.vacate c.slot).1 = some c.entry ∧ (t.vacate c.slot).2.Layout (l₁ ++ l₂) := by
  have hmem : c ∈ l₁ ++ c :: l₂ := by simp
  have hc : c.slot ∉ slotsOf (l₁ ++ l₂) := h.toLinked.slot_notin
  have ho := linksOnly_unlink t c.slot
  have hl := h.toLinked.unlink
  obtain ⟨newer, older, hn⟩ := h.segment.node?_eq hmem
  rw [Recency.vacate, hn]
  refine ⟨rfl, ?_⟩
  dsimp only
  generalize ht' : ({ t.unlink c.slot with
    index := (t.unlink c.slot).index.erase c.key
    slots := (t.unlink c.slot).slots.setIfInBounds c.slot none
    free := c.slot :: (t.unlink c.slot).free } : Recency κ ν) = t'
  have hindex : t'.index = t.index.erase c.key := by rw [← ht', ← ho.index]
  have hfree : t'.free = c.slot :: t.free := by rw [← ht', ← ho.free]
  have hsize : t'.slots.size = t.slots.size := by
    rw [← ht', ← ho.slots_size]
    exact Array.size_setIfInBounds
  have hnode : ∀ i, c.slot ≠ i → t'.node? i = (t.unlink c.slot).node? i := fun i hi => by
    rw [← ht', node?, Array.getElem?_setIfInBounds_ne hi]
    rfl
  have hentry : ∀ i, c.slot ≠ i → t'.content? i = t.content? i := fun i hi =>
    (congrArg _ (hnode i hi)).trans (ho.content? i)
  have hself : t'.content? c.slot = none := by
    rw [← ht', content?, node?, Array.getElem?_setIfInBounds_self]
    split <;> rfl
  refine { slots_nodup := hl.slots_nodup, segment := hl.segment.frame fun i hi => ?_,
           newest := ht' ▸ hl.newest, oldest := ht' ▸ hl.oldest,
           indexed := hindex ▸ (h.indexed.perm List.perm_middle.symm).erase,
           covers := fun i e he => ?_, free_nodup := ?_, mem_free := fun i => ?_ }
  · exact hnode i fun hci => hc (hci ▸ hi)
  · have hi : c.slot ≠ i := by
      rintro rfl
      rw [hself] at he
      exact absurd he (by simp)
    rw [hentry i hi] at he
    have hi' := (List.perm_middle.map Cell.slot).mem_iff.mp (h.covers i e he)
    exact (List.mem_cons.mp hi').resolve_left (Ne.symm hi)
  · rw [hfree]
    exact List.nodup_cons.mpr ⟨h.slot_not_mem_free hmem, h.free_nodup⟩
  · -- the slot given up joins the free ones, and no other slot changes its entry
    rw [hfree, hsize, List.mem_cons, h.mem_free]
    by_cases hi : c.slot = i
    · subst hi
      simpa [hself] using h.slot_lt hmem
    · rw [hentry i hi]
      simp [Ne.symm hi]

/-- A slot without an entry is no cell's. -/
theorem notin_of_content?_eq_none (h : t.Layout l) {i : Nat} (hi : t.content? i = none) :
    i ∉ slotsOf l := by
  intro hmem
  obtain ⟨c, hc, rfl⟩ := List.mem_map.mp hmem
  rw [h.content?_eq hc] at hi
  exact absurd hi (by simp)

/-- The slot taken for a new entry held none before. -/
theorem content?_occupy_fst (h : t.Layout l) (k : κ) (v : ν) :
    t.content? (t.occupy k v).1 = none := by
  rw [Recency.occupy]
  split
  · rename_i i free hfree
    exact ((h.mem_free i).mp (hfree ▸ List.mem_cons_self)).2
  · simp [content?, node?]

theorem node?_occupy (h : t.Layout l) (k : κ) (v : ν) (j : Nat) :
    (t.occupy k v).2.node? j =
      if (t.occupy k v).1 = j then some ⟨k, v, none, none⟩ else t.node? j := by
  rw [Recency.occupy]
  split
  · rename_i i free hfree
    have hi := ((h.mem_free i).mp (hfree ▸ List.mem_cons_self)).1
    rw [node?, Array.getElem?_setIfInBounds, if_pos hi]
    split <;> rfl
  · rw [node?, Array.getElem?_push]
    simp only [eq_comm (a := j)]
    split <;> rfl

theorem occupy_fields (t : Recency κ ν) (k : κ) (v : ν) :
    (t.occupy k v).2.index = t.index.insert k (t.occupy k v).1 ∧
      (t.occupy k v).2.newest = t.newest ∧ (t.occupy k v).2.oldest = t.oldest ∧
      (t.occupy k v).2.capacity = t.capacity := by
  rw [Recency.occupy]
  split <;> exact ⟨rfl, rfl, rfl, rfl⟩

/-- The free slots are still those without an entry. -/
theorem free_occupy (h : t.Layout l) (k : κ) (v : ν) :
    (t.occupy k v).2.free.Nodup ∧
      ∀ j, j ∈ (t.occupy k v).2.free ↔
        j < (t.occupy k v).2.slots.size ∧ (t.occupy k v).2.content? j = none := by
  have hcontent : ∀ j, (t.occupy k v).2.content? j =
      if (t.occupy k v).1 = j then some (k, v) else t.content? j := fun j => by
    rw [content?, h.node?_occupy]
    split <;> rfl
  simp only [hcontent]
  rw [Recency.occupy]
  split
  · -- a free slot is used again
    rename_i i free hfree
    have hnodup := hfree ▸ h.free_nodup
    obtain ⟨hi, hnodup⟩ := List.nodup_cons.mp hnodup
    refine ⟨hnodup, fun j => ?_⟩
    have hj := h.mem_free j
    rw [hfree, List.mem_cons] at hj
    by_cases hij : i = j
    · subst hij
      simpa using hi
    · simpa [hij, Ne.symm hij] using hj
  · -- no slot was free, so every slot below the new one has an entry
    rename_i hfree
    refine ⟨hfree ▸ List.nodup_nil, fun j => ?_⟩
    have hj := h.mem_free j
    rw [hfree] at hj
    by_cases hij : t.slots.size = j
    · subst hij
      simp [hfree]
    · simp only [List.not_mem_nil, false_iff, not_and, hfree, Array.size_push, hij,
        if_false] at hj ⊢
      intro hlt
      exact hj (by omega)

/-- A new entry in an empty slot, made the newest, is a new first cell. -/
theorem occupy [Std.LawfulEqOrd κ] (h : t.Layout l) {k : κ} (hk : k ∉ l.map Cell.key) (v : ν) :
    ((t.occupy k v).2.linkNewest (t.occupy k v).1).Layout (⟨(t.occupy k v).1, k, v⟩ :: l) := by
  obtain ⟨hindex, hnewest, holdest, -⟩ := occupy_fields t k v
  obtain ⟨hnodup, hfree⟩ := h.free_occupy k v
  have hi := h.notin_of_content?_eq_none (h.content?_occupy_fst k v)
  have hnode := h.node?_occupy k v
  generalize hocc : t.occupy k v = occ at *
  obtain ⟨i, t'⟩ := occ
  dsimp only at *
  have hcontent : t'.content? i = some (k, v) := by rw [content?, hnode, if_pos rfl]; rfl
  have ho := linksOnly_linkNewest t' i
  have hlinked : t'.Linked l := by
    refine { h.toLinked with segment := h.segment.frame fun j hj => ?_,
                             newest := hnewest.trans h.newest, oldest := holdest.trans h.oldest }
    rw [hnode, if_neg fun hij : i = j => hi (hij ▸ hj)]
  refine { toLinked := hlinked.linkNewest (c := ⟨i, k, v⟩) hi hcontent,
           indexed := ?_, covers := fun j e he => ?_, free_nodup := ho.free ▸ hnodup,
           mem_free := fun j => ?_ }
  · rw [ho.content?, content?, hnode] at he
    split at he
    · rename_i hij
      exact hij ▸ List.mem_cons_self
    · exact List.mem_cons_of_mem _ (h.covers j e he)
  · rw [ho.free, ho.slots_size, ho.content?, hfree]
  · rw [ho.index, hindex]
    exact h.indexed.insert (c := ⟨i, k, v⟩) hk

end Layout

end Recency

end SoftTier
