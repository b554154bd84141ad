import SoftTier.Proofs.Recency.Ranking

/-!
# Recency lists that look before they reach

The operations of a recency list once more, with every access to a slot checked: where a slot is
reached for that is not there, the operation stops. On a list whose layout is in order none of them
ever stops, and each does what its unchecked twin does. So no operation uses the number of a slot
that is not there, in the middle of its work included.

- `Recency.Guarded`: the operations with checks; `none` is a stop.
- `Recency.Guarded.answer_eq`: a list that represents a ranking answers every request without one.
-/

namespace SoftTier

namespace Recency

variable {κ ν : Type}

/-! ## The operations with checks -/

namespace Guarded

variable [Ord κ] [Std.TransOrd κ]

/-- Changes the entry in slot `i`, which has to be there. -/
def adjust (i : Nat) (f : Node κ ν → Node κ ν) (t : Recency κ ν) : Option (Recency κ ν) :=
  if i < t.slots.size then some (t.adjust i f) else none

/-- Puts something into slot `i`, which has to be there. -/
def store (i : Nat) (n? : Option (Node κ ν)) (t : Recency κ ν) : Option (Recency κ ν) :=
  if i < t.slots.size then some { t with slots := t.slots.setIfInBounds i n? } else none

/-- Takes slot `i` out of the order. -/
def unlink (i : Nat) (t : Recency κ ν) : Option (Recency κ ν) := do
  match ← t.slots[i]? with
  | none => return t
  | some n =>
    let t ← match n.newer with
      | some j => adjust j (fun m => { m with older := n.older }) t
      | none => some { t with newest := n.older }
    match n.older with
    | some j => adjust j (fun m => { m with newer := n.newer }) t
    | none => some { t with oldest := n.newer }

/-- Puts slot `i`, which is out of the order, at its new end. -/
def linkNewest (i : Nat) (t : Recency κ ν) : Option (Recency κ ν) := do
  let t ← adjust i (fun m => { m with newer := none, older := t.newest }) t
  let t ← match t.newest with
    | some j => adjust j (fun m => { m with newer := some i }) t
    | none => some { t with oldest := some i }
  return { t with newest := some i }

/-- Makes the entry in slot `i` the newest. -/
def promote (i : Nat) (t : Recency κ ν) : Option (Recency κ ν) :=
  if t.newest = some i then some t else do linkNewest i (← unlink i t)

/-- Puts a new entry into an empty slot and tells which. A fresh slot is there once it is pushed. -/
def occupy (k : κ) (v : ν) (t : Recency κ ν) : Option (Nat × Recency κ ν) :=
  match t.free with
  | i :: free => do
    let t ← store i (some ⟨k, v, none, none⟩) t
    return (i, { t with index := t.index.insert k i, free })
  | [] => some (t.occupy k v)

/-- Puts a new entry in, as the newest. -/
def place (k : κ) (v : ν) (t : Recency κ ν) : Option (Recency κ ν) := do
  let (i, t) ← occupy k v t
  linkNewest i t

/-- Empties slot `i` and hands out the entry it held. -/
def vacate (i : Nat) (t : Recency κ ν) : Option (Option (κ × ν) × Recency κ ν) := do
  match ← t.slots[i]? with
  | none => return (none, t)
  | some n =>
    let t ← store i none (← unlink i t)
    return (some (n.key, n.value),
      { t with index := t.index.erase n.key, free := i :: t.free })

/-- Uses the entry under a key. -/
def touch (k : κ) (t : Recency κ ν) : Option (Bool × Recency κ ν) :=
  match t.index[k]? with
  | some i => do return (true, ← promote i t)
  | none => some (false, t)

/-- Takes out the entry unused for longest. -/
def popOldest (t : Recency κ ν) : Option (Option (κ × ν) × Recency κ ν) :=
  match t.oldest with
  | some i => vacate i t
  | none => some (none, t)

/-- Takes out the entry under a key. -/
def erase (k : κ) (t : Recency κ ν) : Option (Option ν × Recency κ ν) :=
  match t.index[k]? with
  | some i => do
    let (e, t) ← vacate i t
    return (e.map (·.2), t)
  | none => some (none, t)

/-- Stores a value under a key, as the newest entry. -/
def insert (k : κ) (v : ν) (t : Recency κ ν) : Option (Option (κ × ν) × Recency κ ν) :=
  match t.index[k]? with
  | some i => do return (none, ← promote i (← adjust i (fun m => { m with value := v }) t))
  | none => do
    let (evicted, t) ← if t.capacity ≤ t.size then popOldest t else some (none, t)
    return (evicted, ← place k v t)

/-- Takes out up to `n` entries, the oldest first. -/
def popMany : Nat → Recency κ ν → Option (List (κ × ν) × Recency κ ν)
  | 0, t => some ([], t)
  | n + 1, t => do
    match ← popOldest t with
    | (none, t) => return ([], t)
    | (some e, t) =>
      let (es, t) ← popMany n t
      return (e :: es, t)

/-- Answers a request. -/
def answer (t : Recency κ ν) :
    Request κ ν → Option (Except Violation (Reply κ ν × Recency κ ν))
  | .contains k => some (.ok (.flag (t.contains k), t))
  | .touch k => do
    let (b, t) ← touch k t
    return .ok (.flag b, t)
  | .insert k v => do
    let (e, t) ← insert k v t
    return .ok (.entry e, t)
  | .erase k => do
    let (v, t) ← erase k t
    return .ok (.value v, t)
  | .popOldest => do
    let (e, t) ← popOldest t
    return .ok (.entry e, t)
  | .resize n =>
    if n = 0 then some (.error .zeroCapacity)
    else do
      let (es, t) ← popMany (t.size - n) { t with capacity := n }
      return .ok (.entries es, t)
  | .clear => some (.ok (.done, t.clear))

end Guarded

/-! ## A list in order never stops -/

section Slots

variable {l : List (Cell κ ν)}

/-- What precedes and what follows some cells in the order are slots of theirs. -/
theorem mem_slotsOf_headSlot {i : Nat} (h : headSlot l none = some i) : i ∈ slotsOf l :=
  Classical.byContradiction fun hi => headSlot_ne hi h

theorem mem_slotsOf_lastSlot {i : Nat} (h : lastSlot l none = some i) : i ∈ slotsOf l :=
  Classical.byContradiction fun hi => lastSlot_ne hi h

variable [Ord κ] {t : Recency κ ν}

/-- A slot that is there holds what it is seen to hold. -/
theorem getElem?_slots {i : Nat} (h : i < t.slots.size) : t.slots[i]? = some (t.node? i) := by
  rw [node?, Array.getElem?_eq_getElem h]
  rfl

namespace Guarded

theorem adjust_eq {i : Nat} (h : i < t.slots.size) (f : Node κ ν → Node κ ν) :
    adjust i f t = some (t.adjust i f) := if_pos h

theorem store_eq {i : Nat} (h : i < t.slots.size) (n? : Option (Node κ ν)) :
    store i n? t = some { t with slots := t.slots.setIfInBounds i n? } := if_pos h

/-- A slot can become the newest where it is there and so is the newest so far. -/
theorem linkNewest_eq {i : Nat} (hi : i < t.slots.size)
    (hnew : ∀ j, t.newest = some j → j < t.slots.size) :
    linkNewest i t = some (t.linkNewest i) := by
  rw [linkNewest, adjust_eq hi, Recency.linkNewest]
  dsimp only [Option.bind_eq_bind, Option.bind_some, Recency.adjust]
  cases hn : t.newest with
  | none => rfl
  | some j =>
    dsimp only
    rw [adjust_eq (by simpa using hnew j hn)]
    rfl

end Guarded

end Slots

variable [Ord κ] [Std.TransOrd κ] {t : Recency κ ν} {l l₁ l₂ : List (Cell κ ν)} {c : Cell κ ν}

theorem Layout.lt_of_mem_slotsOf (h : t.Layout l) {i : Nat} (hi : i ∈ slotsOf l) :
    i < t.slots.size := by
  obtain ⟨c, hc, rfl⟩ := List.mem_map.mp hi
  exact h.slot_lt hc

namespace Guarded

/-- The neighbours of a cell are there, so it can be taken out of the order. -/
theorem unlink_eq (h : t.Layout (l₁ ++ c :: l₂)) : unlink c.slot t = some (t.unlink c.slot) := by
  obtain ⟨-, hn, -⟩ := segment_append.mp h.segment
  have hnewer : ∀ j, lastSlot l₁ none = some j → j < t.slots.size := fun j hj =>
    h.lt_of_mem_slotsOf (by simpa [slotsOf] using Or.inl (mem_slotsOf_lastSlot hj))
  have holder : ∀ j, headSlot l₂ none = some j → j < t.slots.size := fun j hj =>
    h.lt_of_mem_slotsOf (by simpa [slotsOf] using Or.inr (Or.inr (mem_slotsOf_headSlot hj)))
  rw [unlink, getElem?_slots (h.slot_lt (by simp)), hn, Recency.unlink, hn]
  dsimp only [Option.bind_eq_bind, Option.bind_some]
  -- turning the newer neighbour to the older one leaves as many slots as there were
  cases hnew : lastSlot l₁ none with
  | none =>
    cases hold : headSlot l₂ none with
    | none => rfl
    | some j => exact adjust_eq (t := { t with newest := some j }) (holder j hold) _
  | some i =>
    dsimp only
    rw [adjust_eq (hnewer i hnew)]
    cases hold : headSlot l₂ none with
    | none => rfl
    | some j =>
      refine adjust_eq ?_ _
      simpa [Recency.adjust] using holder j hold

theorem promote_eq (h : t.Layout (l₁ ++ c :: l₂)) :
    promote c.slot t = some (t.promote c.slot) := by
  rw [promote, Recency.promote]
  split
  · rfl
  · have hsize := (linksOnly_unlink t c.slot).slots_size
    rw [unlink_eq h]
    refine linkNewest_eq (hsize ▸ h.slot_lt (by simp)) fun j hj => hsize ▸ ?_
    rw [h.toLinked.unlink.newest] at hj
    have hmem : j ∈ slotsOf (l₁ ++ l₂) := mem_slotsOf_headSlot hj
    refine h.lt_of_mem_slotsOf ?_
    exact (((List.sublist_cons_self c l₂).append_left l₁).map Cell.slot).subset hmem

theorem vacate_eq (h : t.Layout (l₁ ++ c :: l₂)) : vacate c.slot t = some (t.vacate c.slot) := by
  have hc := h.slot_lt (c := c) (by simp)
  obtain ⟨newer, older, hn⟩ := h.segment.node?_eq (c := c) (by simp)
  rw [vacate, getElem?_slots hc, hn, Recency.vacate, hn]
  dsimp only [Option.bind_eq_bind, Option.bind_some]
  rw [unlink_eq h, Option.bind_some, store_eq ((linksOnly_unlink t c.slot).slots_size ▸ hc)]
  rfl

theorem occupy_eq (h : t.Layout l) (k : κ) (v : ν) : occupy k v t = some (t.occupy k v) := by
  rw [occupy]
  split
  · rename_i i free hfree
    rw [store_eq ((h.mem_free i).mp (hfree ▸ List.mem_cons_self)).1, Recency.occupy, hfree]
    rfl
  · rfl

variable {r : Ranking κ ν}

theorem touch_eq (h : t.Ranks r) (k : κ) : touch k t = some (t.touch k) := by
  rw [touch, Recency.touch]
  rcases h.index_cases k with ⟨hk, -⟩ | ⟨l₁, c, l₂, hl, -, hk, -⟩
  · rw [hk]
  · rw [hk]
    dsimp only
    rw [promote_eq hl]
    rfl

theorem erase_eq (h : t.Ranks r) (k : κ) : erase k t = some (t.erase k) := by
  rw [erase, Recency.erase]
  rcases h.index_cases k with ⟨hk, -⟩ | ⟨l₁, c, l₂, hl, -, hk, -⟩
  · rw [hk]
  · rw [hk]
    dsimp only
    rw [vacate_eq hl]
    rfl

theorem popOldest_eq (h : t.Ranks r) : popOldest t = some t.popOldest := by
  obtain ⟨⟨l, hl, -⟩, -⟩ := h
  rw [popOldest, Recency.popOldest, hl.oldest]
  rcases List.eq_nil_or_concat l with rfl | ⟨l, c, rfl⟩
  · rfl
  · rw [List.concat_eq_append] at *
    rw [lastSlot_append, lastSlot_cons, lastSlot_nil]
    exact vacate_eq hl

variable [Std.LawfulEqOrd κ]

theorem popMany_eq (h : t.Ranks r) (n : Nat) : popMany n t = some (Recency.popMany n t) := by
  induction n generalizing t r with
  | zero => rfl
  | succ n ih =>
    have h' := h.popOldest.2
    rw [popMany, popOldest_eq h, Recency.popMany]
    generalize t.popOldest = p at h'
    obtain ⟨_ | e, t'⟩ := p
    · rfl
    · dsimp only [Option.bind_eq_bind, Option.bind_some] at h' ⊢
      rw [ih h']
      rfl

/-- A new entry finds its slot and that of the newest one. -/
theorem place_eq (h : t.Ranks r) {k : κ} (hk : k ∉ Assoc.keys r.entries) (v : ν) :
    place k v t = some ((t.occupy k v).2.linkNewest (t.occupy k v).1) := by
  obtain ⟨⟨l, hl, hr⟩, -⟩ := h
  rw [← hr, Assoc.keys, List.map_map] at hk
  have hlinked := hl.occupy hk v
  have hnewest := (Layout.occupy_fields t k v).2.1
  rw [place, occupy_eq hl]
  generalize t.occupy k v = p at hlinked hnewest
  obtain ⟨i, t'⟩ := p
  dsimp only at hlinked hnewest
  have hsize := (linksOnly_linkNewest t' i).slots_size
  refine linkNewest_eq (hsize ▸ hlinked.lt_of_mem_slotsOf List.mem_cons_self) fun j hj => ?_
  rw [hnewest, hl.newest] at hj
  exact hsize ▸ hlinked.lt_of_mem_slotsOf (List.mem_cons_of_mem _ (mem_slotsOf_headSlot hj))

theorem insert_eq (h : t.Ranks r) (k : κ) (v : ν) : insert k v t = some (t.insert k v) := by
  rw [insert, Recency.insert]
  rcases h.index_cases k with ⟨hk, hnot⟩ | ⟨l₁, c, l₂, hl, -, hk, -⟩
  · rw [hk]
    dsimp only
    split
    · -- the oldest entry makes room, and what is left is in order
      have hnot' : k ∉ Assoc.keys r.popOldest.2.entries := fun hmem =>
        hnot (r.keys_popOldest_sublist.subset hmem)
      have hplace := place_eq h.popOldest.2 hnot' v
      rw [popOldest_eq h]
      generalize t.popOldest = p at hplace
      obtain ⟨e, t'⟩ := p
      dsimp only [Option.bind_eq_bind, Option.bind_some] at hplace ⊢
      rw [hplace]
      rfl
    · dsimp only [Option.bind_eq_bind, Option.bind_some]
      rw [place_eq h hnot]
      rfl
  · rw [hk]
    dsimp only
    rw [adjust_eq (hl.slot_lt (by simp)), Option.bind_eq_bind, Option.bind_some]
    have hpromote := promote_eq (hl.setValue v)
    dsimp only at hpromote
    rw [hpromote]
    rfl

/-- **No operation reaches for a slot that is not there.** A list that represents a ranking answers
every request with checks as it does without. -/
theorem answer_eq (h : t.Ranks r) (q : Request κ ν) : answer t q = some (t.answer q) := by
  cases q with
  | contains k => rfl
  | touch k =>
    rw [answer, touch_eq h]
    rfl
  | insert k v =>
    rw [answer, insert_eq h]
    rfl
  | erase k =>
    rw [answer, erase_eq h]
    rfl
  | popOldest =>
    rw [answer, popOldest_eq h]
    rfl
  | resize n =>
    rw [answer, Recency.answer, Recency.resize]
    split
    · rfl
    · rw [popMany_eq (h.setCapacity n)]
      rfl
  | clear => rfl

end Guarded

end Recency

end SoftTier
