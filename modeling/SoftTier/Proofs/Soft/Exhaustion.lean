import SoftTier.Proofs.Reclaimer.Episodes
import SoftTier.Proofs.Soft.Reachability

/-!
# What is left when all retention is given up

When memory runs out, a soft layer can be told to retain nothing. Then a value lives on only while
it is pinned or somebody outside holds it. In which way the others were followed plays no part: they
may have been retained or released before, under one key or several, and what was pinned twice is
spared once.

- `Reclaimer.shrink_zero_count`: how many keys lose their value, and which.
- `Custody.Valid.alive_shrink_zero`: what is alive afterwards.
- `Custody.shrink_zero_spares_held`: what is found, what is counted and what is retained, after any
  acts.
-/

namespace SoftTier

namespace Reclaimer

variable {κ : Type} [DecidableEq κ] [Ord κ] [Std.TransOrd κ] [Std.LawfulEqOrd κ]

theorem kept_shrink_zero {r : Reclaimer κ} (h : r.Sound) (env : Ambient) :
    (r.shrink env 0).2.kept = [] := by
  rw [kept_shrink h, List.take_zero]

/-- Giving up all retention reclaims the values that nothing outside holds, and no others. -/
theorem shrink_zero_count {r : Reclaimer κ} (h : r.Sound) (env : Ambient) :
    ∃ dead : List κ, dead.Nodup ∧ (r.shrink env 0).1 = dead.length ∧
      ∀ k, k ∈ dead ↔ ∃ v, ((k, v) ∈ r.kept ∨ (k, v) ∈ r.released) ∧ env.held v = false := by
  obtain ⟨hevicted, hr⟩ := h.ranks.trim 0
  have hcut := release_cut_tracked h h.capacity_pos (Nat.zero_le _) hr
  rw [shrink_eq, hevicted]
  generalize hs : ({ r with retained := (r.retained.trim 0).2 } : Reclaimer κ).release _ = s
  -- all that was followed is released now, and nothing is retained any more
  have hreleased : s.Sound ∧ ∀ k, s.tracked k = r.tracked k := hs ▸ hcut
  obtain ⟨hsound, htracked⟩ := hreleased
  have hkept : s.kept = [] := by
    rw [← hs]
    exact hr.toList_eq
  have hmem : ∀ k v, (k, v) ∈ s.released ↔ (k, v) ∈ r.kept ∨ (k, v) ∈ r.released := by
    intro k v
    rw [← tracked_eq_some_iff h, ← htracked, tracked_eq_some_iff hsound, hkept]
    simp
  have halive : ∀ v, s.alive env v = env.held v := by
    intro v
    have hkeeps : keeps s v = false := by
      refine Bool.eq_false_iff.mpr fun hv => ?_
      obtain ⟨k, hk⟩ := hsound.keeps_iff.mp hv
      exact absurd (hkept ▸ hk) List.not_mem_nil
    rw [alive, hkeeps, Bool.or_false]
  refine ⟨(s.dying env).keys, hsound.nodup_keys_filter_arrange env.visit _, ?_, fun k => ?_⟩
  · rw [sweep_eq, Assoc.keys, List.length_map]
  · rw [Assoc.mem_keys]
    constructor
    · rintro ⟨v, hv⟩
      obtain ⟨hrel, hdead⟩ := mem_dying.mp hv
      exact ⟨v, (hmem k v).mp hrel, (halive v).symm.trans hdead⟩
    · rintro ⟨v, hv, hdead⟩
      exact ⟨v, mem_dying.mpr ⟨(hmem k v).mpr hv, (halive v).trans hdead⟩⟩

end Reclaimer

namespace Custody

variable {κ : Type} [Ord κ] [DecidableEq κ] [Std.TransOrd κ]

theorem shrink_zero_layer (c : Custody κ (Table κ Handle)) (visit : Visit) :
    c.step visit (.shrink 0) =
      let r := c.layer.reclaimer.shrink ((c.around visit).also c.layer.pinned) 0
      { c with
        layer := { c.layer with reclaimer := r.2 }
        past := (.shrink 0, .count r.1) :: c.past } :=
  perform_eq (Soft.shrink_yields 0)

namespace Valid

variable {c : Custody κ (Table κ Handle)}

/-- A lookup finds what was written and is alive. -/
theorem read_found_iff (h : c.Valid) (visit : Visit) (k : κ) (hold : Bool) (v : Value) :
    (c.step visit (.read k hold)).past = (.read k hold, .found (some v)) :: c.past ↔
      written k c.past = some v ∧ c.alive v = true := by
  rw [h.read_record visit k hold, ← Option.filter_eq_some_iff]
  simp

variable [Std.LawfulEqOrd κ]

/-- Nothing is retained when all retention has been given up. -/
theorem kept_shrink_zero (h : c.Valid) (visit : Visit) :
    (c.step visit (.shrink 0)).layer.reclaimer.kept = [] := by
  rw [shrink_zero_layer]
  exact Reclaimer.kept_shrink_zero h.coherent.sound _

/-- What is alive then is pinned or held outside. -/
theorem alive_shrink_zero (h : c.Valid) (visit : Visit) {v : Value} :
    (c.step visit (.shrink 0)).alive v = true ↔ v ∈ c.held ∨ v ∈ c.layer.pinned := by
  have hkept := h.kept_shrink_zero visit
  have hsound := (h.shrink visit 0).coherent.sound
  rw [shrink_zero_layer] at hkept hsound ⊢
  rw [alive_iff]
  constructor
  · rintro (hv | hv | hv)
    · exact .inl hv
    · exact .inr hv
    · obtain ⟨k, hk⟩ := hsound.keeps_iff.mp hv
      rw [hkept] at hk
      exact absurd hk List.not_mem_nil
  · rintro (hv | hv)
    · exact .inl hv
    · exact .inr (.inl hv)

/-- What is found after all retention was given up is what was found before and is spared. -/
theorem read_found_shrink_zero (h : c.Valid) (visit visit₁ visit₂ : Visit) (hold₁ hold₂ : Bool)
    (k : κ) (v : Value) :
    let c' := c.step visit (.shrink 0)
    (c'.step visit₂ (.read k hold₂)).past = (.read k hold₂, .found (some v)) :: c'.past ↔
      (c.step visit₁ (.read k hold₁)).past = (.read k hold₁, .found (some v)) :: c.past ∧
        (v ∈ c.held ∨ v ∈ c.layer.pinned) := by
  intro c'
  have hwritten : written k c'.past = written k c.past := by
    show written k (c.step visit (.shrink 0)).past = _
    rw [shrink_zero_layer]
    rfl
  have hspared : c'.alive v = true ↔ v ∈ c.held ∨ v ∈ c.layer.pinned := h.alive_shrink_zero visit
  rw [Valid.read_found_iff (h.shrink visit 0) visit₂ k hold₂ v, h.read_found_iff visit₁ k hold₁ v,
    hwritten, hspared]
  constructor
  · rintro ⟨hw, hv⟩
    refine ⟨⟨hw, alive_iff.mpr ?_⟩, hv⟩
    exact hv.imp_right .inl
  · rintro ⟨⟨hw, -⟩, hv⟩
    exact ⟨hw, hv⟩

/-- The keys counted are those followed whose value is neither pinned nor held outside. -/
theorem shrink_zero_past (h : c.Valid) (visit : Visit) :
    ∃ dead : List κ, dead.Nodup ∧
      (c.step visit (.shrink 0)).past = (.shrink 0, .count dead.length) :: c.past ∧
      ∀ k, k ∈ dead ↔ ∃ v, ((k, v) ∈ c.layer.reclaimer.kept ∨ (k, v) ∈ c.layer.reclaimer.released) ∧
        v ∉ c.held ∧ v ∉ c.layer.pinned := by
  obtain ⟨dead, hnodup, hcount, hdead⟩ := Reclaimer.shrink_zero_count h.coherent.sound
    ((c.around visit).also c.layer.pinned)
  have hout : ∀ v, ((c.around visit).also c.layer.pinned).held v = false ↔
      v ∉ c.held ∧ v ∉ c.layer.pinned := by
    intro v
    rw [Ambient.held_also, Bool.or_eq_false_iff, Bool.eq_false_iff, Bool.eq_false_iff, ne_eq, ne_eq,
      keeps_list_iff]
    exact and_congr_left' (not_congr keeps_list_iff)
  refine ⟨dead, hnodup, ?_, fun k => ?_⟩
  · rw [shrink_zero_layer, ← hcount]
  · rw [hdead]
    exact exists_congr fun v => and_congr_right' (hout v)

end Valid

variable [Std.LawfulEqOrd κ]

/-- **Under full pressure exactly the pinned and the held values survive.** Whatever callers have
done with a soft layer over a base store, when all its retention is given up: a lookup finds a value
exactly if it found that value before and the value is pinned or held outside; the number told is
that of the keys that were followed, retained or released, with a value that is neither; and nothing
is retained any more. -/
theorem shrink_zero_spares_held {settings : SoftSettings} (hcap : 0 < settings.softCapacity)
    (name : String) :
    ∃ c₀ : Custody κ (Table κ Handle), start settings (Table.named name) = .ok c₀ ∧
      ∀ (acts : List (Visit × Act κ)) (visit : Visit),
        let c := c₀.run acts
        let c' := c.step visit (.shrink 0)
        (∀ k v visit₁ visit₂ hold₁ hold₂,
          (c'.step visit₂ (.read k hold₂)).past = (.read k hold₂, .found (some v)) :: c'.past ↔
            (c.step visit₁ (.read k hold₁)).past = (.read k hold₁, .found (some v)) :: c.past ∧
              (v ∈ c.held ∨ v ∈ c.layer.pinned)) ∧
        (∃ dead : List κ, dead.Nodup ∧ c'.past = (.shrink 0, .count dead.length) :: c.past ∧
          ∀ k, k ∈ dead ↔
            ∃ v, ((k, v) ∈ c.layer.reclaimer.kept ∨ (k, v) ∈ c.layer.reclaimer.released) ∧
              v ∉ c.held ∧ v ∉ c.layer.pinned) ∧
        c'.layer.reclaimer.retainedSize = 0 := by
  obtain ⟨c₀, hstart, -⟩ := start_eq (κ := κ) hcap (Table.named name : Table κ Handle)
  refine ⟨c₀, hstart, fun acts visit => ?_⟩
  intro c c'
  have h : c.Valid := valid_run (valid_start hstart) acts
  refine ⟨?_, h.shrink_zero_past visit, ?_⟩
  · intro k v visit₁ visit₂ hold₁ hold₂
    exact h.read_found_shrink_zero visit visit₁ visit₂ hold₁ hold₂ k v
  · have hsound : c'.layer.reclaimer.Sound := (h.shrink visit 0).coherent.sound
    have hkept : c'.layer.reclaimer.kept = [] := h.kept_shrink_zero visit
    rw [hsound.retainedSize_eq, hkept]
    rfl

/-- A value under two keys, which were pushed out of retention while a caller held it; one that is
retained, one that is retained and pinned, and one that is retained and held. The first two keys
lose their value, and so does the one with the value that is only retained. -/
theorem spared_after_pressure :
    let a : Value := ⟨0, "a"⟩
    let b : Value := ⟨1, "b"⟩
    let p : Value := ⟨2, "p"⟩
    let h : Value := ⟨3, "h"⟩
    0 < 3 ∧ ∃ c₀ : Custody Nat (Table Nat Handle),
      start ⟨1, 3⟩ (Table.named "users") = .ok c₀ ∧
        let c := c₀.run ([.make "a", .make "b", .make "p", .make "h", .write 1 a, .write 2 a,
          .write 3 p, .read 3 false, .write 4 h, .write 5 b, .drop a, .drop b,
          .drop p].map (Visit.asListed, ·))
        let c' := c.step .asListed (.shrink 0)
        c'.past.head? = some (.shrink 0, .count 3) ∧ c'.layer.reclaimer.retainedSize = 0 ∧
          (c'.step .asListed (.read 3 false)).past.head? = some (.read 3 false, .found (some p)) ∧
          (c'.step .asListed (.read 4 false)).past.head? =
            some (.read 4 false, .found (some h)) := by
  intro a b p h
  have hcap : 0 < (⟨1, 3⟩ : SoftSettings).softCapacity := by decide
  obtain ⟨c₀, hstart, hall⟩ := shrink_zero_spares_held (κ := Nat) hcap "users"
  refine ⟨hcap, c₀, hstart, ?_⟩
  have hc := hall ([.make "a", .make "b", .make "p", .make "h", .write 1 a, .write 2 a,
    .write 3 p, .read 3 false, .write 4 h, .write 5 b, .drop a, .drop b,
    .drop p].map (Visit.asListed, ·)) .asListed
  dsimp only at hc ⊢
  generalize hrun : c₀.run _ = c at hc ⊢
  obtain ⟨hfound, ⟨dead, hnodup, hpast, hdead⟩, hsize⟩ := hc
  have hfacts : c.layer.reclaimer.kept = [(5, b), (4, h), (3, p)] ∧
      c.layer.reclaimer.released = [(1, a), (2, a)] ∧ c.held = [h] ∧ c.layer.pinned = [p] ∧
      (c.step .asListed (.read 3 false)).past = (.read 3 false, .found (some p)) :: c.past ∧
      (c.step .asListed (.read 4 false)).past = (.read 4 false, .found (some h)) :: c.past := by
    cases Except.ok.inj hstart
    rw [← hrun]
    exact ⟨by decide +kernel, by decide +kernel, by decide +kernel, by decide +kernel,
      by decide +kernel, by decide +kernel⟩
  obtain ⟨hkept, hreleased, hheld, hpinned, hread, hread'⟩ := hfacts
  rw [hkept, hreleased, hheld, hpinned] at hdead
  rw [hheld, hpinned] at hfound
  have hperm : dead.Perm [1, 2, 5] := by
    refine (List.perm_ext_iff_of_nodup hnodup (by decide)).mpr fun k => ?_
    rw [hdead]
    constructor
    · rintro ⟨v, hmem, hout⟩
      simp only [List.mem_cons, Prod.mk.injEq, List.not_mem_nil, or_false] at hmem
      rcases hmem with (⟨rfl, rfl⟩ | ⟨rfl, rfl⟩ | ⟨rfl, rfl⟩) | ⟨rfl, rfl⟩ | ⟨rfl, rfl⟩
      · decide
      · exact absurd hout (by decide)
      · exact absurd hout (by decide)
      · decide
      · decide
    · intro hk
      simp only [List.mem_cons, List.not_mem_nil, or_false] at hk
      rcases hk with rfl | rfl | rfl
      · exact ⟨a, by decide⟩
      · exact ⟨a, by decide⟩
      · exact ⟨b, by decide⟩
  refine ⟨?_, hsize, ?_, ?_⟩
  · rw [hpast, hperm.length_eq]
    rfl
  · rw [(hfound 3 p .asListed .asListed false false).mpr ⟨hread, by decide⟩]
    rfl
  · rw [(hfound 4 h .asListed .asListed false false).mpr ⟨hread', by decide⟩]
    rfl

end Custody

end SoftTier
