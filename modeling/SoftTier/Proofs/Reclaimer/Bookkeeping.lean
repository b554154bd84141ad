import SoftTier.Proofs.Reclaimer.Postings

/-!
# What a reclaimer keeps in order

Two collections and a queue change in separate steps, and an entry that is admitted can move another
one. All the same, whatever is asked: no key stands in both collections, the bound is positive and
is not exceeded, and every value that was counted as reclaimed has its key in the queue, or had it
there until it was handed out or passed over.

- `Leads.reclaimed_eq`: the count is the number of postings.
- `Reclaimer.length_takes`: keys are taken off by being handed out or passed over.
- `Reclaimer.books_balance`: the invariant, for any requests to any reclaimer that can be made.
-/

namespace SoftTier

namespace Reclaimer

variable {κ : Type} [DecidableEq κ] [Ord κ] [Std.TransOrd κ]

/-- Whatever is taken off is handed out or passed over. -/
theorem length_takes (past : List (Episode κ)) : (past.reverse.flatMap Episode.takes).length =
    (past.flatMap Episode.handed).length + (past.flatMap Episode.skipped).length := by
  induction past with
  | nil => rfl
  | cons e past ih =>
    rw [List.reverse_cons, List.flatMap_append, List.flatMap_singleton, List.length_append, ih,
      List.flatMap_cons, List.flatMap_cons, Episode.takes]
    simp only [List.length_append]
    omega

theorem Leads.served {r₀ r : Reclaimer κ} {past : List (Episode κ)} (h : Leads r₀ past r)
    {e : Episode κ} (he : e ∈ past) : e.Served := by
  obtain ⟨later, earlier, rfl⟩ := List.append_of_mem he
  exact h.split.1

variable [Std.LawfulEqOrd κ]

/-- The count goes up by one with every posting, and never otherwise. -/
theorem Leads.reclaimed_eq {r₀ r : Reclaimer κ} {past : List (Episode κ)}
    (hstart : r₀.reclaimed = 0) (h : Leads r₀ past r) :
    r.reclaimed = (past.reverse.flatMap Episode.posts).length.toUInt64 := by
  induction past generalizing r with
  | nil =>
    rw [show r = r₀ from h, hstart]
    rfl
  | cons e past ih =>
    obtain ⟨rfl, hserved, hbefore⟩ := h
    -- the counter wraps around, and so does the conversion of a length
    rw [hserved.regular.reclaimed_eq, ih hbefore, List.reverse_cons, List.flatMap_append,
      List.flatMap_singleton, List.length_append]
    exact (UInt64.ofNat_add ..).symm

/-- **The books balance.** A reclaimer cannot be made with no room at all, which is a matter of
configuration. Made with any other bound, whatever is asked of it and whatever is held meanwhile: no
key is both retained and released, retention is within its bound, which stays positive, so no
recency list is ever asked to hold nothing; a bound that is refused changes nothing; a value is
retained when that was asked; and the count of the values reclaimed is, up to its width, the number
of keys handed out, passed over and still posted. -/
theorem books_balance (n : Nat) :
    n = 0 ∧ (ofCapacity n : Except Fault (Reclaimer κ)) = .error (.failure .softCapacityZero) ∨
    ∃ r₀ : Reclaimer κ, ofCapacity n = .ok r₀ ∧
      ∀ requests : List (Ambient × Request κ),
        let w := (Watched.start r₀).run requests
        (∀ k, ¬(w.now.retained.contains k = true ∧ Assoc.has k w.now.released = true)) ∧
        w.now.retainedSize ≤ w.now.softCapacity ∧ 0 < w.now.softCapacity ∧
        (∀ e ∈ w.past, ∀ fault, e.reply = .refused fault →
          e.request = .setCapacity 0 ∧ fault = .failure .softCapacityZero ∧
            e.after = e.before) ∧
        (∀ e ∈ w.past, ∀ k v, e.request = .retain k v → (k, v) ∈ e.after.kept) ∧
        w.now.reclaimed.toNat = ((w.past.flatMap Episode.handed).length +
          (w.past.flatMap Episode.skipped).length + w.now.posted.length) % UInt64.size := by
  rcases Nat.eq_zero_or_pos n with rfl | hn
  · exact .inl ⟨rfl, ofCapacity_zero⟩
  have hr₀ := ofCapacity_eq (κ := κ) hn
  obtain ⟨hsound, hposted, -⟩ := ofCapacity_sound hr₀
  refine .inr ⟨_, hr₀, fun requests => ?_⟩
  intro w
  obtain ⟨h, hnow⟩ := leads_run (w := .start _) rfl hsound requests
  refine ⟨?_, ?_, hnow.capacity_pos, fun e he fault hreply => ?_,
    fun e he k v hrequest => ?_, ?_⟩
  · rintro k ⟨hkept, hreleased⟩
    have hcontains : w.now.retained.contains k = Assoc.has k w.now.kept := hnow.ranks.contains k
    rw [hcontains] at hkept
    exact hnow.disjoint k (Assoc.has_iff.mp hkept) (Assoc.has_iff.mp hreleased)
  · show w.now.retainedSize ≤ w.now.softCapacity
    rw [hnow.retainedSize_eq]
    exact hnow.bounded
  · obtain ⟨hbefore, heq⟩ := h.served he
    rw [heq] at hreply
    obtain ⟨hrequest, hfault⟩ := (refused_iff hbefore).mp hreply
    refine ⟨hrequest, hfault, ?_⟩
    rw [hrequest] at heq
    rw [heq]
    rfl
  · refine (h.served he).regular.retains k v ?_
    rw [Episode.admits, hrequest]
    exact if_pos rfl
  · show w.now.reclaimed.toNat = _
    rw [h.reclaimed_eq rfl, h.queue_eq hposted, List.length_append, length_takes]
    exact UInt64.toNat_ofNat' ..

/-- A bound of one, then of zero, which is refused. The second value pushes the first out, which is
reclaimed; its key is used again and passed over, and the third value is reclaimed when retention is
given up. -/
theorem books_after_refusal :
    let a : Value := ⟨0, "a"⟩
    let b : Value := ⟨1, "b"⟩
    let c : Value := ⟨2, "c"⟩
    ∃ r₀ : Reclaimer Nat, ofCapacity 1 = .ok r₀ ∧
      let w := (Watched.start r₀).run
        ([.retain 1 a, .retain 2 b, .setCapacity 0, .retain 1 c, .next, .shrink 0].map
          (Ambient.alone, ·))
      w.past.flatMap Episode.handed = [2] ∧ w.past.flatMap Episode.skipped = [1] ∧
        w.now.posted = [1] ∧ w.now.reclaimed.toNat = 3 ∧
        w.now.retainedSize ≤ w.now.softCapacity := by
  intro a b c
  rcases books_balance (κ := Nat) 1 with ⟨hzero, -⟩ | ⟨r₀, hr₀, h⟩
  · exact absurd hzero (by decide)
  refine ⟨r₀, hr₀, ?_⟩
  intro w
  have hfacts : w.past.flatMap Episode.handed = [2] ∧ w.past.flatMap Episode.skipped = [1] ∧
      w.now.posted = [1] := by
    cases Except.ok.inj hr₀
    exact ⟨by decide +kernel, by decide +kernel, by decide +kernel⟩
  obtain ⟨hhanded, hskipped, hposted⟩ := hfacts
  obtain ⟨-, hbound, -, -, -, hcount⟩ := h _
  refine ⟨hhanded, hskipped, hposted, ?_, hbound⟩
  have hcount' : w.now.reclaimed.toNat = _ := hcount
  rw [hhanded, hskipped, hposted] at hcount'
  exact hcount'

end Reclaimer

end SoftTier
