import SoftTier.Proofs.Recency.Guarded

/-!
# The slots of a recency list

What holds of the slots, the links, the index and the free slots themselves after any requests,
told without cells. The slots never hold more than they have to: there are as many as entries were
held at one time, since the list was made or last cleared.

- `Recency.Path`: the slots met on the way along the links.
- `Recency.Mentions`: the slot numbers that stand anywhere in a recency list.
- `Recency.Arena`: index, order and free slots account for every slot.
- `Recency.after`, `Recency.sinceClear`: requests in turn, and the lists since the last clearing.
- `Recency.arena_after_requests`: after any requests the slots are in order, and as many as needed.
-/

namespace SoftTier

namespace Recency

variable {κ ν : Type} [Ord κ]

/-! ## What is seen of the slots -/

/-- On the way from `p` along the links `next` these slots are met, and then it ends. -/
def Path (t : Recency κ ν) (next : Node κ ν → Option Nat) : Option Nat → List Nat → Prop
  | p, [] => p = none
  | p, i :: tour => p = some i ∧ ∃ n, t.node? i = some n ∧ t.Path next (next n) tour

variable [Std.TransOrd κ]

/-- The number `i` stands somewhere in the list as that of a slot. -/
inductive Mentions (t : Recency κ ν) (i : Nat) : Prop where
  | index (k : κ) (h : t.index[k]? = some i)
  | newest (h : t.newest = some i)
  | oldest (h : t.oldest = some i)
  | newer (j : Nat) (n : Node κ ν) (hn : t.node? j = some n) (h : n.newer = some i)
  | older (j : Nat) (n : Node κ ν) (hn : t.node? j = some n) (h : n.older = some i)
  | free (h : i ∈ t.free)

/-- The index, the order and the free slots account for every slot. -/
structure Arena (t : Recency κ ν) : Prop where
  /-- The index leads a key to an entry under this key. -/
  node_of_index : ∀ k i, t.index[k]? = some i → ∃ n, t.node? i = some n ∧ n.key = k
  /-- A slot with an entry is where the index leads exactly one key. -/
  index_of_node : ∀ i n, t.node? i = some n → ∃! k : κ, t.index[k]? = some i
  /-- The ways from the newest entry and from the oldest meet every slot with an entry once, each in
  the order opposite to the other's, and end. -/
  tour : ∃ tour : List Nat, tour.Nodup ∧ (∀ i, i ∈ tour ↔ ∃ n, t.node? i = some n) ∧
    t.Path Node.older t.newest tour ∧ t.Path Node.newer t.oldest tour.reverse
  free_nodup : t.free.Nodup
  /-- The free slots are the empty ones. -/
  mem_free : ∀ i, i ∈ t.free ↔ t.slots[i]? = some none
  /-- No number of a slot is out of range. -/
  in_range : ∀ i, t.Mentions i → i < t.slots.size

/-! ## From the layout -/

omit [Std.TransOrd κ] in
theorem Segment.path_older {t : Recency κ ν} {l : List (Cell κ ν)} {p : Option Nat}
    (h : t.Segment p l none) : t.Path Node.older (headSlot l none) (slotsOf l) := by
  induction l generalizing p with
  | nil => rfl
  | cons c l ih => exact ⟨rfl, _, h.1, ih h.2⟩

omit [Std.TransOrd κ] in
theorem Segment.path_newer {t : Recency κ ν} {l : List (Cell κ ν)} {q : Option Nat}
    (h : t.Segment none l q) : t.Path Node.newer (lastSlot l none) (slotsOf l).reverse := by
  -- the way starts at the oldest cell, so the cells are taken off at that end
  induction l using List.reverseRecOn generalizing q with
  | nil => rfl
  | append_singleton l c ih =>
    obtain ⟨hl, hc, -⟩ := segment_append.mp h
    rw [lastSlot_append, slotsOf, List.map_append, List.reverse_append]
    exact ⟨rfl, _, hc, ih hl⟩

namespace Layout

variable {t : Recency κ ν} {l l₁ l₂ : List (Cell κ ν)} {c : Cell κ ν}

/-- The slots of the cells are those that hold an entry. -/
theorem mem_slotsOf_iff (h : t.Layout l) (i : Nat) :
    i ∈ slotsOf l ↔ ∃ n, t.node? i = some n := by
  constructor
  · intro hi
    obtain ⟨c, hc, rfl⟩ := List.mem_map.mp hi
    obtain ⟨newer, older, hn⟩ := h.segment.node?_eq hc
    exact ⟨_, hn⟩
  · rintro ⟨n, hn⟩
    exact h.covers i (n.key, n.value) (by rw [content?, hn]; rfl)

/-- A slot that holds an entry is a cell's, and the entry is the cell's with its neighbours. -/
theorem node?_cases (h : t.Layout l) {i : Nat} {n : Node κ ν} (hn : t.node? i = some n) :
    ∃ l₁ c l₂, l = l₁ ++ c :: l₂ ∧ c.slot = i ∧
      n = ⟨c.key, c.value, lastSlot l₁ none, headSlot l₂ none⟩ := by
  obtain ⟨c, hc, rfl⟩ := List.mem_map.mp ((h.mem_slotsOf_iff i).mpr ⟨n, hn⟩)
  obtain ⟨l₁, l₂, rfl⟩ := List.append_of_mem hc
  obtain ⟨-, hcn, -⟩ := segment_append.mp h.segment
  rw [hn] at hcn
  exact ⟨l₁, c, l₂, rfl, rfl, Option.some.inj hcn⟩

/-- The slots are those of the cells and the free ones. -/
theorem slots_perm (h : t.Layout l) : (slotsOf l ++ t.free).Perm (List.range t.slots.size) := by
  have hdisjoint : List.Disjoint (slotsOf l) t.free := by
    intro i hi hfree
    obtain ⟨c, hc, rfl⟩ := List.mem_map.mp hi
    exact h.slot_not_mem_free hc hfree
  rw [List.perm_ext_iff_of_nodup (h.slots_nodup.append h.free_nodup hdisjoint) List.nodup_range]
  intro i
  rw [List.mem_append, List.mem_range, h.mem_free]
  constructor
  · rintro (hi | ⟨hi, -⟩)
    · exact h.lt_of_mem_slotsOf hi
    · exact hi
  · intro hi
    cases hc : t.content? i with
    | none => exact .inr ⟨hi, rfl⟩
    | some e => exact .inl (h.covers i e hc)

/-- Every slot holds an entry or is free. -/
theorem size_add_length_free (h : t.Layout l) : t.size + t.free.length = t.slots.size := by
  simpa [size, h.indexed.size_eq] using h.slots_perm.length_eq

theorem in_range (h : t.Layout l) {i : Nat} (hi : t.Mentions i) : i < t.slots.size := by
  cases hi with
  | index k hk =>
    obtain ⟨c, hc, -, rfl⟩ := (h.indexed.lookup k i).mp hk
    exact h.slot_lt hc
  | newest hnew => exact h.lt_of_mem_slotsOf (mem_slotsOf_headSlot (h.newest ▸ hnew))
  | oldest hold => exact h.lt_of_mem_slotsOf (mem_slotsOf_lastSlot (h.oldest ▸ hold))
  | newer j n hn hi =>
    obtain ⟨l₁, c, l₂, rfl, -, rfl⟩ := h.node?_cases hn
    exact h.lt_of_mem_slotsOf (by simpa [slotsOf] using Or.inl (mem_slotsOf_lastSlot hi))
  | older j n hn hi =>
    obtain ⟨l₁, c, l₂, rfl, -, rfl⟩ := h.node?_cases hn
    exact h.lt_of_mem_slotsOf (by simpa [slotsOf] using Or.inr (Or.inr (mem_slotsOf_headSlot hi)))
  | free hfree => exact ((h.mem_free i).mp hfree).1

theorem arena (h : t.Layout l) : t.Arena where
  node_of_index k i hk := by
    obtain ⟨c, hc, rfl, rfl⟩ := (h.indexed.lookup k i).mp hk
    obtain ⟨newer, older, hn⟩ := h.segment.node?_eq hc
    exact ⟨_, hn, rfl⟩
  index_of_node i n hn := by
    obtain ⟨l₁, c, l₂, rfl, rfl, -⟩ := h.node?_cases hn
    refine ⟨c.key, h.indexed.getElem?_of_mem (by simp), fun k hk => ?_⟩
    -- another cell in this slot would be the same cell
    obtain ⟨d, hd, rfl, hslot⟩ := (h.indexed.lookup k c.slot).mp hk
    exact congrArg Cell.key (List.inj_on_of_nodup_map h.slots_nodup hd (by simp) hslot)
  tour := ⟨slotsOf l, h.slots_nodup, h.mem_slotsOf_iff, h.newest ▸ h.segment.path_older,
    h.oldest ▸ h.segment.path_newer⟩
  free_nodup := h.free_nodup
  mem_free i := by
    rw [h.mem_free, content?, Option.map_eq_none_iff]
    constructor
    · rintro ⟨hi, hn⟩
      rw [getElem?_slots hi, hn]
    · intro hi
      obtain ⟨hlt, -⟩ := Array.getElem?_eq_some_iff.mp hi
      rw [getElem?_slots hlt] at hi
      exact ⟨hlt, Option.some.inj hi⟩
  in_range i hi := h.in_range hi

end Layout

/-! ## How many slots there are -/

variable {t : Recency κ ν}

theorem slots_size_vacate (t : Recency κ ν) (i : Nat) :
    (t.vacate i).2.slots.size = t.slots.size := by
  rw [vacate]
  split
  · rfl
  · exact Array.size_setIfInBounds.trans (linksOnly_unlink t i).slots_size

theorem slots_size_popOldest (t : Recency κ ν) : t.popOldest.2.slots.size = t.slots.size := by
  rw [popOldest]
  split
  · exact slots_size_vacate ..
  · rfl

theorem slots_size_popMany (n : Nat) (t : Recency κ ν) :
    (popMany n t).2.slots.size = t.slots.size := by
  induction n generalizing t with
  | zero => rfl
  | succ n ih =>
    have hpop := t.slots_size_popOldest
    rw [popMany]
    generalize t.popOldest = p at hpop
    obtain ⟨_ | e, t'⟩ := p
    · exact hpop
    · exact (ih t').trans hpop

/-- A new entry takes a fresh slot only where every slot holds an entry. -/
theorem Layout.slots_size_occupy {l : List (Cell κ ν)} (h : t.Layout l) (k : κ) (v : ν) :
    (t.occupy k v).2.slots.size = max t.slots.size (t.size + 1) := by
  have hcount := h.size_add_length_free
  rw [Recency.occupy]
  split
  · rename_i i free hfree
    rw [hfree, List.length_cons] at hcount
    rw [Array.size_setIfInBounds]
    omega
  · rename_i hfree
    rw [hfree, List.length_nil] at hcount
    rw [Array.size_push]
    omega

theorem Ranks.size_le {r : Ranking κ ν} (h : t.Ranks r) : t.size ≤ t.slots.size := by
  obtain ⟨⟨l, hl, -⟩, -⟩ := h
  exact hl.size_add_length_free ▸ Nat.le_add_right ..

variable [Std.LawfulEqOrd κ]

/-- A new entry makes as many slots as there are entries then, or leaves the slots as many as they
are. -/
theorem Ranks.slots_size_occupy {r : Ranking κ ν} (h : t.Ranks r) {k : κ}
    (hk : k ∉ Assoc.keys r.entries) (v : ν) :
    ((t.occupy k v).2.linkNewest (t.occupy k v).1).slots.size =
      max t.slots.size ((t.occupy k v).2.linkNewest (t.occupy k v).1).size := by
  rw [(h.occupy hk v).size_eq, List.length_cons, ← h.size_eq,
    (linksOnly_linkNewest ..).slots_size]
  obtain ⟨⟨l, hl, -⟩, -⟩ := h
  exact hl.slots_size_occupy k v

variable [DecidableEq κ]

theorem Ranks.slots_size_insert {r : Ranking κ ν} (h : t.Ranks r) (k : κ) (v : ν) :
    (t.insert k v).2.slots.size = max t.slots.size (t.insert k v).2.size := by
  have hle := (h.insert k v).2.size_le
  rw [Recency.insert] at hle ⊢
  rcases h.index_cases k with ⟨hk, hnot⟩ | ⟨l₁, c, l₂, hl, -, hk, -⟩
  · rw [hk]
    dsimp only
    split
    · -- the slot of the oldest entry is free then
      have hnot' : k ∉ Assoc.keys r.popOldest.2.entries := fun hmem =>
        hnot (r.keys_popOldest_sublist.subset hmem)
      rw [← t.slots_size_popOldest]
      exact h.popOldest.2.slots_size_occupy hnot' v
    · exact h.slots_size_occupy hnot v
  · rw [hk] at hle ⊢
    have hsize : ∀ f : Node κ ν → Node κ ν,
        ((t.adjust c.slot f).promote c.slot).slots.size = t.slots.size := fun f =>
      (linksOnly_promote ..).slots_size.trans (by simp [adjust])
    rw [hsize] at hle ⊢
    exact (Nat.max_eq_left hle).symm

/-! ## Requests in turn -/

/-- The list after a request. A request that is refused leaves it alone. -/
def after (t : Recency κ ν) (q : Request κ ν) : Recency κ ν :=
  match t.answer q with
  | .ok (_, t') => t'
  | .error _ => t

/-- The lists met while requests are answered in turn, the latest first, from the start or from the
last clearing on; `past` is what was met before. -/
def sinceClear (past : List (Recency κ ν)) (t : Recency κ ν) :
    List (Request κ ν) → List (Recency κ ν)
  | [] => t :: past
  | .clear :: qs => sinceClear [] (t.after .clear) qs
  | q :: qs => sinceClear (t :: past) (t.after q) qs

omit [Std.LawfulEqOrd κ] [DecidableEq κ] in
theorem sinceClear_cons {q : Request κ ν} (hq : q ≠ .clear) (past : List (Recency κ ν))
    (t : Recency κ ν) (qs : List (Request κ ν)) :
    sinceClear past t (q :: qs) = sinceClear (t :: past) (t.after q) qs := by
  cases q with
  | clear => exact absurd rfl hq
  | _ => rfl

theorem Ranks.after {r : Ranking κ ν} (h : t.Ranks r) (q : Request κ ν) :
    ∃ r', (t.after q).Ranks r' := by
  rw [Recency.after]
  by_cases hq : q = .resize 0
  · subst hq
    exact ⟨r, h⟩
  · obtain ⟨t', hanswer, h'⟩ := h.answer q fun n hn => by
      rcases Nat.eq_zero_or_pos n with rfl | hpos
      · exact absurd hn hq
      · exact hpos
    rw [hanswer]
    exact ⟨_, h'⟩

/-- A request adds slots only as far as there are entries for them. -/
theorem Ranks.slots_size_after {r : Ranking κ ν} (h : t.Ranks r) {q : Request κ ν}
    (hq : q ≠ .clear) : (t.after q).slots.size = max t.slots.size (t.after q).size := by
  obtain ⟨r', h'⟩ := h.after q
  have hsame : (t.after q).slots.size = t.slots.size →
      (t.after q).slots.size = max t.slots.size (t.after q).size := fun hsize => by
    have hle := hsize ▸ h'.size_le
    rw [hsize, Nat.max_eq_left hle]
  cases q with
  | contains k => exact hsame rfl
  | touch k =>
    refine hsame ?_
    show (t.touch k).2.slots.size = _
    rw [Recency.touch]
    split
    · exact (linksOnly_promote ..).slots_size
    · rfl
  | insert k v => exact h.slots_size_insert k v
  | erase k =>
    refine hsame ?_
    show (t.erase k).2.slots.size = _
    rw [Recency.erase]
    split
    · exact slots_size_vacate ..
    · rfl
  | popOldest => exact hsame t.slots_size_popOldest
  | resize n =>
    refine hsame ?_
    by_cases hn : n = 0
    · subst hn
      rfl
    · have hresize : t.resize n = .ok ({ t with capacity := n }.trim n) := if_neg hn
      simp only [Recency.after, Recency.answer, hresize]
      exact slots_size_popMany ..
  | clear => exact absurd rfl hq

/-- The slots stay as many as the largest of the lists since the last clearing needed. -/
theorem Ranks.max_size_sinceClear {r : Ranking κ ν} (h : t.Ranks r) {past : List (Recency κ ν)}
    (hpeak : ((t :: past).map size).max? = some t.slots.size) (qs : List (Request κ ν)) :
    (∃ r', (qs.foldl Recency.after t).Ranks r') ∧
      ((sinceClear past t qs).map size).max? = some (qs.foldl Recency.after t).slots.size := by
  induction qs generalizing t r past with
  | nil => exact ⟨⟨r, h⟩, hpeak⟩
  | cons q qs ih =>
    obtain ⟨r', h'⟩ := h.after q
    by_cases hq : q = .clear
    · subst hq
      exact ih h' rfl
    · rw [sinceClear_cons hq]
      refine ih h' ?_
      rw [List.map_cons, List.max?_cons, hpeak, h.slots_size_after hq, Option.elim_some,
        Nat.max_comm]

/-- **The slots are always in order.** After any requests to a new list (a refused one leaves it
alone) the index, the order and the free slots account for every slot; no request that follows, and
so none so far, reaches for a slot that is not there; and there are as many slots as the largest
number of entries held at one time since the list was made or last cleared. -/
theorem arena_after_requests {capacity : Nat} (hcap : 0 < capacity) :
    ∃ t : Recency κ ν, ofCapacity capacity = .ok t ∧ ∀ qs : List (Request κ ν),
      (qs.foldl after t).Arena ∧
      (∀ q, Guarded.answer (qs.foldl after t) q = some ((qs.foldl after t).answer q)) ∧
      ((sinceClear [] t qs).map size).max? = some (qs.foldl after t).slots.size := by
  refine ⟨_, ofCapacity_eq hcap, fun qs => ?_⟩
  have hstart : ([⟨∅, #[], none, none, [], capacity⟩].map (size (κ := κ) (ν := ν))).max? = some 0 :=
    rfl
  obtain ⟨⟨r, h⟩, hpeak⟩ := (ranks_empty capacity).max_size_sinceClear hstart qs
  obtain ⟨⟨l, hl, -⟩, -⟩ := id h
  exact ⟨hl.arena, Guarded.answer_eq h, hpeak⟩

/-- Of three slots the second falls empty and is taken by the next entry; with a smaller bound all
of them stay. -/
theorem slots_after_resize :
    0 < 3 ∧ ∃ t t' : Recency Nat String, ofCapacity 3 = .ok t ∧
      [.insert 1 "a", .insert 2 "b", .insert 3 "c", .erase 2, .insert 4 "d", .resize 1].foldl
        after t = t' ∧ t'.Arena ∧ t'.slots.size = 3 ∧ t'.toList = [(4, "d")] := by
  have hcap : 0 < 3 := by decide
  obtain ⟨t, ht, h⟩ := arena_after_requests (κ := Nat) (ν := String) hcap
  obtain ⟨harena, -, hpeak⟩ := h
    [.insert 1 "a", .insert 2 "b", .insert 3 "c", .erase 2, .insert 4 "d", .resize 1]
  obtain rfl := Except.ok.inj ((ofCapacity_eq hcap).symm.trans ht)
  exact ⟨hcap, _, _, rfl, rfl, harena, Option.some.inj (hpeak.symm.trans (by decide)), by decide⟩

end Recency

end SoftTier
