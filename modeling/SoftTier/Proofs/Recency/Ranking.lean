import SoftTier.Proofs.Assoc
import SoftTier.Proofs.Recency.Layout

/-!
# Recency lists as plain lists

What a recency list does, told without slots and links: entries under distinct keys in a list, the
newest first.

- `Ranking`: such a list with its bound, and the operations on it.
- `Recency.Ranks t r`: the recency list `t` represents the ranking `r`. Every operation keeps this
  and gives what the ranking gives.
- `Recency.Request`, `Recency.serve`, `Ranking.serve`: requests in any order, and what is observed
  after each of them.
- `Recency.serve_eq_ranking`: for every sequence of requests the observations are those of the
  ranking.
-/

namespace SoftTier

/-- Entries under distinct keys, the newest first, and how many there may be. -/
structure Ranking (κ ν : Type) where
  entries : List (κ × ν)
  capacity : Nat

namespace Ranking

variable {κ ν : Type}

/-- Drops the last entry and gives it. -/
def popOldest (r : Ranking κ ν) : Option (κ × ν) × Ranking κ ν :=
  (r.entries.getLast?, { r with entries := r.entries.dropLast })

/-- Drops all but the first `n` entries and gives them, the last first. -/
def trim (n : Nat) (r : Ranking κ ν) : List (κ × ν) × Ranking κ ν :=
  ((r.entries.drop n).reverse, { r with entries := r.entries.take n })

/-- Changes the bound and drops the entries that no longer fit. -/
def resize (capacity : Nat) (r : Ranking κ ν) : List (κ × ν) × Ranking κ ν :=
  { r with capacity }.trim capacity

/-- Drops every entry. -/
def clear (r : Ranking κ ν) : Ranking κ ν := { r with entries := [] }

theorem keys_popOldest_sublist (r : Ranking κ ν) :
    (Assoc.keys r.popOldest.2.entries).Sublist (Assoc.keys r.entries) :=
  (List.dropLast_sublist _).map _

variable [DecidableEq κ]

/-- Whether a key has an entry. -/
def contains (k : κ) (r : Ranking κ ν) : Bool := Assoc.has k r.entries

/-- Moves the entry under a key to the front; tells whether there is one. -/
def touch (k : κ) (r : Ranking κ ν) : Bool × Ranking κ ν :=
  match Assoc.get? k r.entries with
  | some v => (true, { r with entries := (k, v) :: Assoc.erase k r.entries })
  | none => (false, r)

/-- Takes out the entry under a key and gives its value. -/
def erase (k : κ) (r : Ranking κ ν) : Option ν × Ranking κ ν :=
  (Assoc.get? k r.entries, { r with entries := Assoc.erase k r.entries })

/-- Puts a value under a key to the front. Only a new key can push an entry out, and pushes out the
last one when the bound is reached. -/
def insert (k : κ) (v : ν) (r : Ranking κ ν) : Option (κ × ν) × Ranking κ ν :=
  if r.contains k then (none, { r with entries := (k, v) :: Assoc.erase k r.entries })
  else if r.capacity ≤ r.entries.length then
    (r.entries.getLast?, { r with entries := (k, v) :: r.entries.dropLast })
  else (none, { r with entries := (k, v) :: r.entries })

/-- An insertion brings the entry to the front and keeps as many entries as fit. What does not fit
is the one that would come last. -/
theorem insert_eq {r : Ranking κ ν} (hpos : 0 < r.capacity)
    (hbound : r.entries.length ≤ r.capacity) (k : κ) (v : ν) :
    r.insert k v = ((((k, v) :: Assoc.erase k r.entries).drop r.capacity).head?,
      { r with entries := ((k, v) :: Assoc.erase k r.entries).take r.capacity }) := by
  obtain ⟨entries, capacity⟩ := r
  obtain ⟨n, rfl⟩ := Nat.exists_eq_add_one_of_ne_zero (Nat.ne_of_gt hpos)
  dsimp only at hbound ⊢
  rw [List.drop_succ_cons, List.take_succ_cons, insert]
  by_cases hk : contains k ⟨entries, n + 1⟩
  · have hlt : (Assoc.erase k entries).length < entries.length :=
      Assoc.length_erase_lt (Assoc.has_iff.mp hk)
    rw [if_pos hk, List.drop_of_length_le (by omega), List.take_of_length_le (by omega)]
    rfl
  · have herase : Assoc.erase k entries = entries :=
      Assoc.erase_eq_self fun hmem => hk (Assoc.has_iff.mpr hmem)
    rw [if_neg hk, herase]
    dsimp only
    by_cases hfull : n + 1 ≤ entries.length
    · have hlen : entries.length = n + 1 := Nat.le_antisymm hbound hfull
      have hlast : entries.getLast? = (entries.drop n).head? := by
        rw [List.head?_drop, List.getLast?_eq_getElem?, hlen, Nat.add_sub_cancel]
      rw [if_pos hfull, List.dropLast_eq_take, hlen, Nat.add_sub_cancel, hlast]
    · rw [if_neg hfull, List.drop_of_length_le (by omega), List.take_of_length_le (by omega)]
      rfl

/-- An insertion within bounds pushes out one entry at most, from the end of what would be there. -/
theorem insert_cases {r : Ranking κ ν} (hpos : 0 < r.capacity)
    (hbound : r.entries.length ≤ r.capacity) (k : κ) (v : ν) :
    ∃ l es, r.insert k v = (es.head?, { r with entries := (k, v) :: l }) ∧ es.length ≤ 1 ∧
      l ++ es = Assoc.erase k r.entries ∧ l.length < r.capacity := by
  obtain ⟨n, hn⟩ := Nat.exists_eq_add_one_of_ne_zero (Nat.ne_of_gt hpos)
  have herase : (Assoc.erase k r.entries).length ≤ r.entries.length := List.length_filter_le ..
  refine ⟨(Assoc.erase k r.entries).take n, (Assoc.erase k r.entries).drop n, ?_, ?_,
    List.take_append_drop .., ?_⟩
  · rw [insert_eq hpos hbound, hn, List.drop_succ_cons, List.take_succ_cons]
  · rw [List.length_drop]
    omega
  · rw [List.length_take]
    omega

/-- An entry outlasts an insertion, unless it is under the key itself or is pushed out for it. -/
theorem mem_insert_of_mem {r : Ranking κ ν} (hbound : r.entries.length ≤ r.capacity) (k : κ) (v : ν)
    {e : κ × ν} (he : e ∈ r.entries) :
    e ∈ (r.insert k v).2.entries ∨ e.1 = k ∨
      k ∉ Assoc.keys r.entries ∧ r.entries.length = r.capacity ∧ r.entries.getLast? = some e := by
  by_cases hk : r.contains k = true
  · rw [insert, if_pos hk]
    by_cases heq : e.1 = k
    · exact .inr (.inl heq)
    · exact .inl (List.mem_cons_of_mem _ (Assoc.mem_erase.mpr ⟨he, heq⟩))
  · have hnew : k ∉ Assoc.keys r.entries := fun hmem => hk (Assoc.has_iff.mpr hmem)
    rw [insert, if_neg hk]
    by_cases hfull : r.capacity ≤ r.entries.length
    · rw [if_pos hfull]
      rcases List.eq_nil_or_concat r.entries with hr | ⟨es, e', hr⟩
      · rw [hr] at he
        exact absurd he List.not_mem_nil
      · rw [List.concat_eq_append] at hr
        rw [hr, List.mem_append, List.mem_singleton] at he
        rcases he with he | rfl
        · rw [hr, List.dropLast_concat]
          exact .inl (List.mem_cons_of_mem _ he)
        · refine .inr (.inr ⟨hnew, Nat.le_antisymm hbound hfull, ?_⟩)
          rw [hr, List.getLast?_concat]
    · rw [if_neg hfull]
      exact .inl (List.mem_cons_of_mem _ he)

end Ranking

namespace Recency

variable {κ ν : Type} [Ord κ]

theorem ofCapacity_eq {capacity : Nat} (h : 0 < capacity) :
    ofCapacity capacity = .ok (⟨∅, #[], none, none, [], capacity⟩ : Recency κ ν) := by
  rw [ofCapacity, if_neg (by omega)]

variable [Std.TransOrd κ]

/-- The recency list represents the ranking. -/
structure Ranks (t : Recency κ ν) (r : Ranking κ ν) : Prop where
  layout : ∃ l, t.Layout l ∧ l.map Cell.entry = r.entries
  capacity_eq : t.capacity = r.capacity

/-- A new recency list represents an empty ranking. -/
theorem ranks_empty (capacity : Nat) :
    Ranks (⟨∅, #[], none, none, [], capacity⟩ : Recency κ ν) ⟨[], capacity⟩ :=
  ⟨⟨[], layout_empty capacity, rfl⟩, rfl⟩

namespace Ranks

variable {t : Recency κ ν} {r : Ranking κ ν}

theorem toList_eq (h : t.Ranks r) : t.toList = r.entries := by
  obtain ⟨⟨l, hl, hr⟩, -⟩ := h
  rw [hl.toList_eq, hr]

theorem toListFromOldest_eq (h : t.Ranks r) : t.toListFromOldest = r.entries.reverse := by
  obtain ⟨⟨l, hl, hr⟩, -⟩ := h
  rw [hl.toListFromOldest_eq, hr]

theorem size_eq (h : t.Ranks r) : t.size = r.entries.length := by
  obtain ⟨⟨l, hl, hr⟩, -⟩ := h
  rw [size, hl.indexed.size_eq, ← hr, List.length_map]

theorem keys_nodup (h : t.Ranks r) : (Assoc.keys r.entries).Nodup := by
  obtain ⟨⟨l, hl, hr⟩, -⟩ := h
  rw [← hr, Assoc.keys, List.map_map]
  exact hl.indexed.keys_nodup

theorem any_eq (h : t.Ranks r) (p : ν → Bool) : t.any p = r.entries.any fun e => p e.2 := by
  obtain ⟨⟨l, hl, hr⟩, -⟩ := h
  rw [hl.any_eq, ← hr, List.any_map]
  rfl

/-- Where a key's entry stands and which slot the index gives for it. -/
theorem index_cases (h : t.Ranks r) (k : κ) :
    (t.index[k]? = none ∧ k ∉ Assoc.keys r.entries) ∨
      ∃ l₁ c l₂, t.Layout (l₁ ++ c :: l₂) ∧ c.key = k ∧ t.index[k]? = some c.slot ∧
        r.entries = l₁.map Cell.entry ++ (k, c.value) :: l₂.map Cell.entry := by
  obtain ⟨⟨l, hl, hr⟩, -⟩ := h
  cases hk : t.index[k]? with
  | none =>
    refine .inl ⟨rfl, fun hmem => ?_⟩
    rw [← hr, Assoc.keys, List.map_map] at hmem
    have hcontains := (hl.indexed.contains_iff k).mpr hmem
    rw [Std.ExtTreeMap.contains_eq_isSome_getElem?, hk] at hcontains
    exact absurd hcontains (by simp)
  | some i =>
    obtain ⟨c, hc, rfl, rfl⟩ := (hl.indexed.lookup k i).mp hk
    obtain ⟨l₁, l₂, rfl⟩ := List.append_of_mem hc
    exact .inr ⟨l₁, c, l₂, hl, rfl, rfl, by rw [← hr, List.map_append]; rfl⟩

/-- The bound is touched by no change of slots. -/
theorem capacity_vacate (t : Recency κ ν) (i : Nat) : (t.vacate i).2.capacity = t.capacity := by
  rw [vacate]
  split
  · rfl
  · exact (linksOnly_unlink t i).capacity

theorem popOldest [Std.LawfulEqOrd κ] (h : t.Ranks r) :
    t.popOldest.1 = r.popOldest.1 ∧ t.popOldest.2.Ranks r.popOldest.2 := by
  obtain ⟨⟨l, hl, hr⟩, hcap⟩ := h
  rw [Recency.popOldest, Ranking.popOldest, hl.oldest, ← hr]
  rcases List.eq_nil_or_concat l with rfl | ⟨l, c, rfl⟩
  · exact ⟨rfl, ⟨[], hl, rfl⟩, hcap⟩
  · rw [List.concat_eq_append] at *
    obtain ⟨hentry, hl'⟩ := hl.vacate
    rw [lastSlot_append, lastSlot_cons, lastSlot_nil, List.map_append, List.map_cons, List.map_nil,
      List.getLast?_concat, List.dropLast_concat]
    refine ⟨hentry, ⟨l, by simpa using hl', rfl⟩, ?_⟩
    exact (capacity_vacate ..).trans hcap

/-- A new key takes the front. -/
theorem occupy [Std.LawfulEqOrd κ] (h : t.Ranks r) {k : κ} (hk : k ∉ Assoc.keys r.entries) (v : ν) :
    ((t.occupy k v).2.linkNewest (t.occupy k v).1).Ranks
      { r with entries := (k, v) :: r.entries } := by
  obtain ⟨⟨l, hl, hr⟩, hcap⟩ := h
  rw [← hr, Assoc.keys, List.map_map] at hk
  refine ⟨⟨_, hl.occupy hk v, congrArg ((k, v) :: ·) hr⟩, ?_⟩
  rw [(linksOnly_linkNewest ..).capacity, (Layout.occupy_fields t k v).2.2.2, hcap]

theorem popMany [Std.LawfulEqOrd κ] (h : t.Ranks r) (n : Nat) :
    (Recency.popMany n t).1 = (r.trim (r.entries.length - n)).1 ∧
      (Recency.popMany n t).2.Ranks (r.trim (r.entries.length - n)).2 := by
  induction n generalizing t r with
  | zero =>
    have htrim : r.trim (r.entries.length - 0) = ([], r) := by simp [Ranking.trim]
    rw [htrim, Recency.popMany]
    exact ⟨rfl, h⟩
  | succ n ih =>
    obtain ⟨hpop, h'⟩ := h.popOldest
    rw [Recency.popMany]
    generalize hp : t.popOldest = p at hpop h'
    obtain ⟨e?, t'⟩ := p
    dsimp only at hpop h'
    rcases List.eq_nil_or_concat r.entries with hr | ⟨es, e, hr⟩
    · have htrim : r.trim (r.entries.length - (n + 1)) = ([], r.popOldest.2) := by
        simp [Ranking.trim, Ranking.popOldest, hr]
      rw [htrim]
      rw [Ranking.popOldest, hr] at hpop
      subst hpop
      exact ⟨rfl, h'⟩
    · -- the entry dropped now is the first that a trim gives, and the rest is a trim of the others
      rw [List.concat_eq_append] at hr
      have hr' : r.popOldest.2 = { r with entries := es } := by simp [Ranking.popOldest, hr]
      have htrim : r.trim (r.entries.length - (n + 1)) =
          (e :: ({ r with entries := es }.trim (es.length - n)).1,
            ({ r with entries := es }.trim (es.length - n)).2) := by
        have hle : es.length - n ≤ es.length := by omega
        simp [Ranking.trim, hr, List.drop_append_of_le_length hle,
          List.take_append_of_le_length hle]
      rw [Ranking.popOldest, hr, List.getLast?_concat] at hpop
      subst hpop
      obtain ⟨hes, ht⟩ := ih (hr' ▸ h')
      rw [htrim]
      exact ⟨congrArg (e :: ·) hes, ht⟩

theorem trim [Std.LawfulEqOrd κ] (h : t.Ranks r) (n : Nat) :
    (t.trim n).1 = (r.trim n).1 ∧ (t.trim n).2.Ranks (r.trim n).2 := by
  have htrim : r.trim (r.entries.length - (r.entries.length - n)) = r.trim n := by
    rcases Nat.le_total n r.entries.length with hn | hn
    · rw [Nat.sub_sub_self hn]
    · rw [Nat.sub_eq_zero_of_le hn, Nat.sub_zero, Ranking.trim, Ranking.trim, List.drop_length,
        List.drop_of_length_le hn, List.take_length, List.take_of_length_le hn]
  rw [Recency.trim, h.size_eq, ← htrim]
  exact h.popMany _

theorem setCapacity (h : t.Ranks r) (n : Nat) :
    { t with capacity := n }.Ranks { r with capacity := n } := by
  obtain ⟨⟨l, hl, hr⟩, -⟩ := h
  exact ⟨⟨l, hl.setCapacity n, hr⟩, rfl⟩

theorem resize [Std.LawfulEqOrd κ] (h : t.Ranks r) {n : Nat} (hn : 0 < n) :
    ∃ t', t.resize n = .ok ((r.resize n).1, t') ∧ t'.Ranks (r.resize n).2 := by
  obtain ⟨hes, ht⟩ := (h.setCapacity n).trim n
  refine ⟨_, ?_, ht⟩
  rw [Recency.resize, if_neg (by omega), Ranking.resize, ← hes]

theorem clear (h : t.Ranks r) : t.clear.Ranks r.clear :=
  ⟨⟨[], layout_empty t.capacity, rfl⟩, h.capacity_eq⟩

variable [DecidableEq κ]

theorem contains (h : t.Ranks r) (k : κ) : t.contains k = r.contains k := by
  rw [Recency.contains, Std.ExtTreeMap.contains_eq_isSome_getElem?, Ranking.contains]
  rcases h.index_cases k with ⟨hk, hnot⟩ | ⟨l₁, c, l₂, -, -, hk, hr⟩
  · rw [hk, Assoc.has_eq_false_iff.mpr hnot]
    rfl
  · have hmem : k ∈ Assoc.keys r.entries := Assoc.mem_keys_of_mem (a := c.value) (by simp [hr])
    rw [hk, Assoc.has_iff.mpr hmem]
    rfl

theorem touch (h : t.Ranks r) (k : κ) :
    (t.touch k).1 = (r.touch k).1 ∧ (t.touch k).2.Ranks (r.touch k).2 := by
  rw [Recency.touch, Ranking.touch]
  rcases h.index_cases k with ⟨hk, hnot⟩ | ⟨l₁, c, l₂, hl, hck, hk, hr⟩
  · rw [hk, Assoc.get?_eq_none_iff.mpr hnot]
    exact ⟨rfl, h⟩
  · have hnodup := hr ▸ h.keys_nodup
    rw [hk, hr, Assoc.get?_middle hnodup, Assoc.erase_middle hnodup]
    refine ⟨rfl, ⟨_, hl.promote, ?_⟩, (linksOnly_promote ..).capacity.trans h.capacity_eq⟩
    rw [List.map_cons, List.map_append, Cell.entry, hck]

variable [Std.LawfulEqOrd κ]

theorem erase (h : t.Ranks r) (k : κ) :
    (t.erase k).1 = (r.erase k).1 ∧ (t.erase k).2.Ranks (r.erase k).2 := by
  rw [Recency.erase, Ranking.erase]
  rcases h.index_cases k with ⟨hk, hnot⟩ | ⟨l₁, c, l₂, hl, hck, hk, hr⟩
  · rw [hk, Assoc.get?_eq_none_iff.mpr hnot, Assoc.erase_eq_self hnot]
    exact ⟨rfl, h⟩
  · have hnodup := hr ▸ h.keys_nodup
    obtain ⟨hentry, hl'⟩ := hl.vacate
    rw [hk, hr, Assoc.get?_middle hnodup, Assoc.erase_middle hnodup]
    refine ⟨congrArg (Option.map (·.2)) hentry, ⟨_, hl', List.map_append ..⟩, ?_⟩
    exact (capacity_vacate ..).trans h.capacity_eq

theorem insert (h : t.Ranks r) (k : κ) (v : ν) :
    (t.insert k v).1 = (r.insert k v).1 ∧ (t.insert k v).2.Ranks (r.insert k v).2 := by
  rw [Recency.insert, Ranking.insert, ← h.contains]
  rcases h.index_cases k with ⟨hk, hnot⟩ | ⟨l₁, c, l₂, hl, hck, hk, hr⟩
  · have hcontains : t.contains k = false := by
      rw [Recency.contains, Std.ExtTreeMap.contains_eq_isSome_getElem?, hk]
      rfl
    rw [hk, h.capacity_eq, h.size_eq, hcontains]
    simp only [Bool.false_eq_true, if_false]
    split
    · -- the oldest entry makes room; the key was not there before and is not there now
      obtain ⟨hpop, h'⟩ := h.popOldest
      exact ⟨hpop, h'.occupy (fun hmem => hnot (r.keys_popOldest_sublist.subset hmem)) v⟩
    · exact ⟨rfl, h.occupy hnot v⟩
  · have hcontains : t.contains k = true := by
      rw [Recency.contains, Std.ExtTreeMap.contains_eq_isSome_getElem?, hk]
      rfl
    have hnodup := hr ▸ h.keys_nodup
    rw [hk, if_pos hcontains, hr, Assoc.erase_middle hnodup]
    refine ⟨rfl, ⟨_, (hl.setValue v).promote, ?_⟩, ?_⟩
    · rw [List.map_cons, List.map_append, Cell.entry, hck]
    · exact (linksOnly_promote ..).capacity.trans h.capacity_eq

end Ranks

/-! ## Sequences of requests -/

/-- Something asked of a recency list. -/
inductive Request (κ ν : Type) where
  | contains (k : κ)
  | touch (k : κ)
  | insert (k : κ) (v : ν)
  | erase (k : κ)
  | popOldest
  | resize (capacity : Nat)
  | clear

/-- What is answered. -/
inductive Reply (κ ν : Type) where
  | flag (b : Bool)
  | value (v : Option ν)
  | entry (e : Option (κ × ν))
  | entries (es : List (κ × ν))
  | done
  deriving DecidableEq

/-- What is observed after a request. -/
structure Observation (κ ν : Type) where
  reply : Reply κ ν
  size : Nat
  capacity : Nat
  deriving DecidableEq

/-- Answers a request. -/
def answer (t : Recency κ ν) : Request κ ν → Except Violation (Reply κ ν × Recency κ ν)
  | .contains k => .ok (.flag (t.contains k), t)
  | .touch k => .ok (.flag (t.touch k).1, (t.touch k).2)
  | .insert k v => .ok (.entry (t.insert k v).1, (t.insert k v).2)
  | .erase k => .ok (.value (t.erase k).1, (t.erase k).2)
  | .popOldest => .ok (.entry t.popOldest.1, t.popOldest.2)
  | .resize n => do
    let (es, t) ← t.resize n
    return (.entries es, t)
  | .clear => .ok (.done, t.clear)

/-- Answers requests in turn and observes after each. -/
def serve (t : Recency κ ν) :
    List (Request κ ν) → Except Violation (List (Observation κ ν) × Recency κ ν)
  | [] => .ok ([], t)
  | q :: qs => do
    let (reply, t) ← t.answer q
    let (observed, t') ← t.serve qs
    return (⟨reply, t.size, t.capacity⟩ :: observed, t')

end Recency

namespace Ranking

open Recency

variable {κ ν : Type} [DecidableEq κ]

/-- Answers a request. -/
def answer (r : Ranking κ ν) : Request κ ν → Reply κ ν × Ranking κ ν
  | .contains k => (.flag (r.contains k), r)
  | .touch k => (.flag (r.touch k).1, (r.touch k).2)
  | .insert k v => (.entry (r.insert k v).1, (r.insert k v).2)
  | .erase k => (.value (r.erase k).1, (r.erase k).2)
  | .popOldest => (.entry r.popOldest.1, r.popOldest.2)
  | .resize n => (.entries (r.resize n).1, (r.resize n).2)
  | .clear => (.done, r.clear)

/-- Answers requests in turn and observes after each. -/
def serve (r : Ranking κ ν) : List (Request κ ν) → List (Observation κ ν) × Ranking κ ν
  | [] => ([], r)
  | q :: qs =>
    let (reply, r) := r.answer q
    let (observed, r') := r.serve qs
    (⟨reply, r.entries.length, r.capacity⟩ :: observed, r')

end Ranking

namespace Recency

variable {κ ν : Type} [DecidableEq κ] [Ord κ] [Std.TransOrd κ] [Std.LawfulEqOrd κ]

/-- Every request has the answer that the ranking gives, and leaves a list that represents what is
left of the ranking. -/
theorem Ranks.answer {t : Recency κ ν} {r : Ranking κ ν} (h : t.Ranks r) (q : Request κ ν)
    (hq : ∀ n, q = .resize n → 0 < n) :
    ∃ t', t.answer q = .ok ((r.answer q).1, t') ∧ t'.Ranks (r.answer q).2 := by
  cases q with
  | contains k => exact ⟨t, by rw [Recency.answer, h.contains]; rfl, h⟩
  | touch k =>
    obtain ⟨hreply, h'⟩ := h.touch k
    exact ⟨_, by rw [Recency.answer, hreply]; rfl, h'⟩
  | insert k v =>
    obtain ⟨hreply, h'⟩ := h.insert k v
    exact ⟨_, by rw [Recency.answer, hreply]; rfl, h'⟩
  | erase k =>
    obtain ⟨hreply, h'⟩ := h.erase k
    exact ⟨_, by rw [Recency.answer, hreply]; rfl, h'⟩
  | popOldest =>
    obtain ⟨hreply, h'⟩ := h.popOldest
    exact ⟨_, by rw [Recency.answer, hreply]; rfl, h'⟩
  | resize n =>
    obtain ⟨t', hresize, h'⟩ := h.resize (hq n rfl)
    exact ⟨t', by rw [Recency.answer, hresize]; rfl, h'⟩
  | clear => exact ⟨t.clear, rfl, h.clear⟩

/-- The simulation along a sequence of requests. -/
theorem Ranks.serve {t : Recency κ ν} {r : Ranking κ ν} (h : t.Ranks r) (qs : List (Request κ ν))
    (hqs : ∀ n, .resize n ∈ qs → 0 < n) :
    ∃ t', t.serve qs = .ok ((r.serve qs).1, t') ∧ t'.Ranks (r.serve qs).2 := by
  induction qs generalizing t r with
  | nil => exact ⟨t, rfl, h⟩
  | cons q qs ih =>
    obtain ⟨t₁, hanswer, h₁⟩ := h.answer q fun n hn => hqs n (hn ▸ List.mem_cons_self)
    obtain ⟨t₂, hserve, h₂⟩ := ih h₁ fun n hn => hqs n (List.mem_cons_of_mem _ hn)
    refine ⟨t₂, ?_, h₂⟩
    rw [Recency.serve, hanswer]
    show (t₁.serve qs >>= fun p =>
      pure (Observation.mk (r.answer q).1 t₁.size t₁.capacity :: p.1, p.2)) = _
    rw [hserve, h₁.size_eq, h₁.capacity_eq]
    rfl

/-- **A recency list does what a plain list does.** From any positive bound, requests in any order
(resizing to any positive bound) are all answered, every answer, size and bound is that of a list of
entries under distinct keys ordered by their last use, and what is left is this list, seen from
either end. -/
theorem serve_eq_ranking {capacity : Nat} (hcap : 0 < capacity) (qs : List (Request κ ν))
    (hqs : ∀ n, .resize n ∈ qs → 0 < n) :
    ∃ t t' : Recency κ ν, ofCapacity capacity = .ok t ∧
      t.serve qs = .ok (((⟨[], capacity⟩ : Ranking κ ν).serve qs).1, t') ∧
      t'.toList = ((⟨[], capacity⟩ : Ranking κ ν).serve qs).2.entries ∧
      t'.toListFromOldest = ((⟨[], capacity⟩ : Ranking κ ν).serve qs).2.entries.reverse ∧
      (Assoc.keys ((⟨[], capacity⟩ : Ranking κ ν).serve qs).2.entries).Nodup := by
  have h : Ranks (⟨∅, #[], none, none, [], capacity⟩ : Recency κ ν) ⟨[], capacity⟩ :=
    ranks_empty capacity
  obtain ⟨t', hserve, h'⟩ := h.serve qs hqs
  exact ⟨_, t', ofCapacity_eq hcap, hserve, h'.toList_eq, h'.toListFromOldest_eq, h'.keys_nodup⟩

/-- A list of two: a third key pushes the oldest out, a used one stays, and a smaller bound gives
the others back. -/
theorem serve_two_entries :
    0 < 2 ∧ 0 < 1 ∧ ∃ t t' : Recency Nat String, ofCapacity 2 = .ok t ∧ t'.toList = [] ∧
      t.serve [.insert 1 "a", .insert 2 "b", .touch 1, .insert 3 "c", .resize 1, .popOldest] =
        .ok ([⟨.entry none, 1, 2⟩, ⟨.entry none, 2, 2⟩, ⟨.flag true, 2, 2⟩,
          ⟨.entry (some (2, "b")), 2, 2⟩, ⟨.entries [(1, "a")], 1, 1⟩,
          ⟨.entry (some (3, "c")), 0, 1⟩], t') := by
  have hcap : 0 < 2 := by decide
  obtain ⟨t, t', ht, hserve, hlist, -, -⟩ := serve_eq_ranking (κ := Nat) hcap
    [.insert 1 "a", .insert 2 "b", .touch 1, .insert 3 "c", .resize 1, .popOldest] (by simp)
  exact ⟨hcap, by decide, t, t', ht, hlist, hserve⟩

end Recency

end SoftTier
