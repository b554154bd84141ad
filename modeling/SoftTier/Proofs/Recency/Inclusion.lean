import SoftTier.Proofs.Recency.Ranking

/-!
# Recency lists of different bounds

Two recency lists that serve the same requests, one with a smaller bound than the other. What they
hold soon differs, and so does what a request does to them: a key that only the larger list holds
can be touched there and erased there. Still the smaller one never holds anything else, or in
another order, than the larger one.

- `Ranking.Within m n small large`: the invariant. The entries of the one are found in the other in
  the same order, and the other has at most as many more as its bound is larger.
- `Ranking.Within.answer`, `Recency.Ranks.serve_within`: one request keeps it, and so do all.
- `Recency.smaller_within_larger`: for every sequence of requests that leaves the bounds alone.
-/

namespace SoftTier

namespace Ranking

variable {κ ν : Type}

/-- The entries of a ranking of bound `m` are found in one of bound `n` in the same order, and the
other has at most `n - m` besides. -/
structure Within (m n : Nat) (small large : Ranking κ ν) : Prop where
  sublist : small.entries.Sublist large.entries
  surplus : large.entries.length ≤ small.entries.length + (n - m)
  fits : small.entries.length ≤ m
  pos : 0 < m
  le : m ≤ n
  small_capacity : small.capacity = m
  large_capacity : large.capacity = n

/-- Two empty rankings. -/
theorem within_empty {m n : Nat} (hm : 0 < m) (hmn : m ≤ n) :
    Within m n (⟨[], m⟩ : Ranking κ ν) ⟨[], n⟩ :=
  ⟨.slnil, Nat.zero_le _, Nat.zero_le _, hm, hmn, rfl, rfl⟩

/-- Of two lists, one within the other, the cut one stays within the other if no more is cut off the
other. -/
theorem sublist_take_take {l₁ l₂ : List (κ × ν)} (h : l₁.Sublist l₂) {m n : Nat}
    (hcut : l₂.length - n ≤ l₁.length - m) : (l₁.take m).Sublist (l₂.take n) := by
  rw [← List.reverse_sublist, List.reverse_take, List.reverse_take]
  exact (h.reverse.drop _).trans (List.drop_sublist_drop_left _ hcut)

namespace Within

variable {m n : Nat} {small large : Ranking κ ν}

theorem fits_large (h : Within m n small large) : large.entries.length ≤ n := by
  have hsurplus := h.surplus
  have hfits := h.fits
  have hle := h.le
  omega

theorem clear (h : Within m n small large) : Within m n small.clear large.clear :=
  { within_empty h.pos h.le with
    small_capacity := h.small_capacity
    large_capacity := h.large_capacity }

variable [DecidableEq κ]

/-- Without a key, the larger ranking has no more besides than before. -/
theorem surplus_erase (h : Within m n small large) (k : κ) :
    (Assoc.erase k large.entries).length ≤ (Assoc.erase k small.entries).length + (n - m) := by
  have hcount := h.sublist.le_countP fun e => e.1 ≠ k
  have hsurplus := h.surplus
  have hlen := h.sublist.length_le
  rw [List.countP_eq_length_filter, List.countP_eq_length_filter] at hcount
  unfold Assoc.erase
  omega

theorem erase (h : Within m n small large) (k : κ) :
    Within m n (small.erase k).2 (large.erase k).2 :=
  { h with
    sublist := h.sublist.filter _
    surplus := h.surplus_erase k
    fits := Nat.le_trans (List.length_filter_le ..) h.fits }

/-- When the larger ranking has to drop an entry for a new key, the smaller one is full as well and
drops one too. -/
theorem insert (h : Within m n small large) (k : κ) (v : ν) :
    Within m n (small.insert k v).2 (large.insert k v).2 := by
  have hsub : (Assoc.erase k small.entries).Sublist (Assoc.erase k large.entries) :=
    h.sublist.filter _
  have hsurplus := h.surplus_erase k
  have hle := h.le
  have hpos : 0 < large.capacity := by
    rw [h.large_capacity]
    exact Nat.lt_of_lt_of_le h.pos hle
  rw [insert_eq (h.small_capacity ▸ h.pos) (h.small_capacity ▸ h.fits),
    insert_eq hpos (h.large_capacity ▸ h.fits_large), h.small_capacity, h.large_capacity]
  refine ⟨?_, ?_, List.length_take_le .., h.pos, hle, rfl, rfl⟩
  · refine sublist_take_take (hsub.cons_cons (k, v)) ?_
    rw [List.length_cons, List.length_cons]
    omega
  · dsimp only
    rw [List.length_take, List.length_take, List.length_cons, List.length_cons]
    omega

/-- A key of the smaller ranking has the same value in the larger one. -/
theorem get?_eq (h : Within m n small large) (hnodup : (Assoc.keys large.entries).Nodup) {k : κ}
    {v : ν} (hk : Assoc.get? k small.entries = some v) : Assoc.get? k large.entries = some v :=
  (Assoc.get?_eq_some_iff hnodup).mpr (h.sublist.subset (Assoc.mem_of_get?_eq_some hk))

/-- A key that only the larger ranking holds is moved there and leaves the smaller one as it is. -/
theorem touch (h : Within m n small large) (hnodup : (Assoc.keys large.entries).Nodup) (k : κ) :
    Within m n (small.touch k).2 (large.touch k).2 := by
  have hsub : (Assoc.erase k small.entries).Sublist (Assoc.erase k large.entries) :=
    h.sublist.filter _
  have hsurplus := h.surplus_erase k
  unfold Ranking.touch
  cases hsmall : Assoc.get? k small.entries with
  | some v =>
    have hlt := Assoc.length_erase_lt (Assoc.mem_keys_of_mem (Assoc.mem_of_get?_eq_some hsmall))
    rw [h.get?_eq hnodup hsmall]
    refine { h with sublist := hsub.cons_cons (k, v), surplus := ?_, fits := ?_ }
    · rw [List.length_cons, List.length_cons]
      omega
    · exact Nat.le_trans hlt h.fits
  | none =>
    have hnot : k ∉ Assoc.keys small.entries := Assoc.get?_eq_none_iff.mp hsmall
    cases hlarge : Assoc.get? k large.entries with
    | none => exact h
    | some v =>
      have hlt := Assoc.length_erase_lt (Assoc.mem_keys_of_mem (Assoc.mem_of_get?_eq_some hlarge))
      rw [Assoc.erase_eq_self hnot] at hsub
      exact { h with sublist := hsub.cons (k, v), surplus := Nat.le_trans hlt h.surplus }

/-- One request, neither for the oldest entry nor for another bound. -/
theorem answer (h : Within m n small large) (hnodup : (Assoc.keys large.entries).Nodup)
    {q : Recency.Request κ ν} (hpop : q ≠ .popOldest) (hresize : ∀ c, q ≠ .resize c) :
    Within m n (small.answer q).2 (large.answer q).2 := by
  cases q with
  | contains k => exact h
  | touch k => exact h.touch hnodup k
  | insert k v => exact h.insert k v
  | erase k => exact h.erase k
  | popOldest => exact absurd rfl hpop
  | resize c => exact absurd rfl (hresize c)
  | clear => exact h.clear

end Within

end Ranking

namespace Recency

variable {κ ν : Type} [DecidableEq κ] [Ord κ] [Std.TransOrd κ] [Std.LawfulEqOrd κ]

/-- Requests in turn, none for the oldest entry and none for another bound. -/
theorem Ranks.serve_within {m n : Nat} {t : Recency κ ν} {small large : Ranking κ ν}
    (ht : t.Ranks large) (h : Ranking.Within m n small large) (qs : List (Request κ ν))
    (hpop : .popOldest ∉ qs) (hresize : ∀ c, .resize c ∉ qs) :
    Ranking.Within m n (small.serve qs).2 (large.serve qs).2 := by
  induction qs generalizing t small large with
  | nil => exact h
  | cons q qs ih =>
    rw [List.mem_cons, not_or] at hpop
    have hq : ∀ c, q ≠ .resize c := fun c hq => hresize c (hq ▸ List.mem_cons_self)
    obtain ⟨t', -, ht'⟩ := ht.answer q fun c hc => absurd hc (hq c)
    exact ih ht' (h.answer ht.keys_nodup (Ne.symm hpop.1) hq) hpop.2
      fun c hc => hresize c (List.mem_cons_of_mem _ hc)

/-- **A larger recency list holds at least what a smaller one holds.** After any requests that take
an entry by its key, or drop all, two new lists of bounds `m ≤ n` stand so: what the smaller one
holds is what the larger one holds under the same keys, with the same values and in the same order
of use. The larger one has at most `n - m` entries besides. -/
theorem smaller_within_larger {m n : Nat} (hm : 0 < m) (hmn : m ≤ n) (qs : List (Request κ ν))
    (hpop : .popOldest ∉ qs) (hresize : ∀ c, .resize c ∉ qs) :
    ∃ small₀ large₀ small large : Recency κ ν, ∃ seen₁ seen₂,
      ofCapacity m = .ok small₀ ∧ ofCapacity n = .ok large₀ ∧
      small₀.serve qs = .ok (seen₁, small) ∧ large₀.serve qs = .ok (seen₂, large) ∧
      (∀ k, small.contains k → large.contains k ∧ (large.erase k).1 = (small.erase k).1) ∧
      small.toList = large.toList.filter (fun e => small.contains e.1) ∧
      large.size ≤ small.size + (n - m) := by
  have hn : 0 < n := Nat.lt_of_lt_of_le hm hmn
  have hpos : ∀ c, .resize c ∈ qs → 0 < c := fun c hc => absurd hc (hresize c)
  have hsmall := ranks_empty (κ := κ) (ν := ν) m
  have hlarge := ranks_empty (κ := κ) (ν := ν) n
  obtain ⟨small, hserve₁, h₁⟩ := hsmall.serve qs hpos
  obtain ⟨large, hserve₂, h₂⟩ := hlarge.serve qs hpos
  have h := hlarge.serve_within (Ranking.within_empty hm hmn) qs hpop hresize
  refine ⟨_, _, small, large, _, _, ofCapacity_eq hm, ofCapacity_eq hn, hserve₁, hserve₂,
    fun k hk => ?_, ?_, ?_⟩
  · rw [h₁.contains] at hk
    obtain ⟨v, hv⟩ := Option.isSome_iff_exists.mp hk
    have hv' := h.get?_eq h₂.keys_nodup hv
    rw [h₂.contains, (h₁.erase k).1, (h₂.erase k).1, Ranking.erase, Ranking.erase, hv, hv']
    exact ⟨Assoc.has_iff.mpr (Assoc.mem_keys_of_mem (Assoc.mem_of_get?_eq_some hv')), rfl⟩
  · rw [h₁.toList_eq, h₂.toList_eq]
    simp only [h₁.contains]
    exact (Assoc.filter_has_of_sublist h.sublist h₂.keys_nodup).symm
  · rw [h₁.size_eq, h₂.size_eq]
    exact h.surplus

/-- With bounds 1 and 3, keys that only the larger list holds are touched and erased. Key 2 comes to
stand before key 3 there, which is the only one in the smaller list. -/
theorem one_within_three :
    0 < 1 ∧ 1 ≤ 3 ∧ ∃ small₀ large₀ small large : Recency Nat String, ∃ seen₁ seen₂,
      ofCapacity 1 = .ok small₀ ∧ ofCapacity 3 = .ok large₀ ∧
      small₀.serve [.insert 1 "a", .insert 2 "b", .touch 1, .insert 3 "c", .erase 1, .touch 2] =
        .ok (seen₁, small) ∧
      large₀.serve [.insert 1 "a", .insert 2 "b", .touch 1, .insert 3 "c", .erase 1, .touch 2] =
        .ok (seen₂, large) ∧
      small.toList = [(3, "c")] ∧ large.toList = [(2, "b"), (3, "c")] ∧
      small.toList = large.toList.filter (fun e => small.contains e.1) := by
  have hm : 0 < 1 := by decide
  have hmn : 1 ≤ 3 := by decide
  obtain ⟨small₀, large₀, small, large, seen₁, seen₂, hsmall, hlarge, hserve₁, hserve₂, -, hlist,
    -⟩ := smaller_within_larger (κ := Nat) hm hmn
      [.insert 1 "a", .insert 2 "b", .touch 1, .insert 3 "c", .erase 1, .touch 2] (by simp)
      (by simp)
  refine ⟨hm, hmn, small₀, large₀, small, large, seen₁, seen₂, hsmall, hlarge, hserve₁, hserve₂, ?_,
    ?_, hlist⟩
  · cases Except.ok.inj hsmall
    have hrun := congrArg (Except.map fun p => p.2.toList) hserve₁
    exact (Except.ok.inj hrun).symm.trans (by decide +kernel)
  · cases Except.ok.inj hlarge
    have hrun := congrArg (Except.map fun p => p.2.toList) hserve₂
    exact (Except.ok.inj hrun).symm.trans (by decide +kernel)

end Recency

end SoftTier
