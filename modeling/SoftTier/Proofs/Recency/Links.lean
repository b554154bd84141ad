import Mathlib.Data.List.Induction
import SoftTier.Recency

/-!
# The links between slots

A recency list keeps its order in links between slots. Here the order is told by a list of *cells*,
each an entry with its slot, and every change of links by what it does to that list.

- `Recency.Segment`: the cells that lie between two links.
- `Recency.Linked`: all links together tell the order of a list of cells.
- `Linked.unlink`, `Linked.linkNewest`, `Linked.promote`: a cell leaves the order, enters it at the
  new end, and is moved there.
- `Recency.LinksOnly`: what no change of links touches.
-/

namespace SoftTier

namespace Recency

variable {κ ν : Type}

/-- An entry together with the slot that holds it. -/
structure Cell (κ ν : Type) where
  slot : Nat
  key : κ
  value : ν

/-- The entry of a cell. -/
def Cell.entry (c : Cell κ ν) : κ × ν := (c.key, c.value)

/-- The slots of some cells. -/
abbrev slotsOf (l : List (Cell κ ν)) : List Nat := l.map Cell.slot

/-- The slot of the first cell, or what follows the cells. -/
def headSlot : List (Cell κ ν) → Option Nat → Option Nat
  | [], q => q
  | c :: _, _ => some c.slot

/-- The slot of the last cell, or what precedes the cells. -/
def lastSlot : List (Cell κ ν) → Option Nat → Option Nat
  | [], p => p
  | c :: l, _ => lastSlot l (some c.slot)

@[simp] theorem headSlot_nil (q : Option Nat) : headSlot ([] : List (Cell κ ν)) q = q := rfl

@[simp] theorem headSlot_cons (c : Cell κ ν) (l : List (Cell κ ν)) (q : Option Nat) :
    headSlot (c :: l) q = some c.slot := rfl

@[simp] theorem lastSlot_nil (p : Option Nat) : lastSlot ([] : List (Cell κ ν)) p = p := rfl

@[simp] theorem lastSlot_cons (c : Cell κ ν) (l : List (Cell κ ν)) (p : Option Nat) :
    lastSlot (c :: l) p = lastSlot l (some c.slot) := rfl

theorem headSlot_append (l₁ l₂ : List (Cell κ ν)) (q : Option Nat) :
    headSlot (l₁ ++ l₂) q = headSlot l₁ (headSlot l₂ q) := by
  cases l₁ <;> rfl

theorem lastSlot_append (l₁ l₂ : List (Cell κ ν)) (p : Option Nat) :
    lastSlot (l₁ ++ l₂) p = lastSlot l₂ (lastSlot l₁ p) := by
  induction l₁ generalizing p with
  | nil => rfl
  | cons c l₁ ih => exact ih (some c.slot)

theorem lastSlot_ne {l : List (Cell κ ν)} {i : Nat} (h : i ∉ slotsOf l) :
    lastSlot l none ≠ some i := by
  rcases List.eq_nil_or_concat l with rfl | ⟨l, c, rfl⟩
  · simp
  · rw [List.concat_eq_append, lastSlot_append]
    intro hci
    have hci : c.slot = i := by simpa using hci
    exact h (by simp [hci])

theorem headSlot_ne {l : List (Cell κ ν)} {i : Nat} (h : i ∉ slotsOf l) :
    headSlot l none ≠ some i := by
  cases l with
  | nil => simp
  | cons c l =>
    intro hci
    have hci : c.slot = i := by simpa using hci
    exact h (by simp [hci])

variable [Ord κ]

/-! ## Entries and links -/

/-- The entry in a slot, without its links. -/
def content? (i : Nat) (t : Recency κ ν) : Option (κ × ν) :=
  (t.node? i).map fun n => (n.key, n.value)

theorem node?_adjust (t : Recency κ ν) (j : Nat) (f : Node κ ν → Node κ ν) (i : Nat) :
    (t.adjust j f).node? i = if j = i then (t.node? i).map f else t.node? i := by
  simp only [node?, adjust, Array.getElem?_modify]
  split
  · cases t.slots[i]? <;> rfl
  · rfl

theorem node?_adjust_of_ne {i j : Nat} (h : j ≠ i) (t : Recency κ ν) (f : Node κ ν → Node κ ν) :
    (t.adjust j f).node? i = t.node? i := by
  rw [node?_adjust, if_neg h]

/-! ## Segments -/

/-- The links lead through exactly these cells, from what precedes the first to what follows the
last. -/
def Segment (t : Recency κ ν) : Option Nat → List (Cell κ ν) → Option Nat → Prop
  | _, [], _ => True
  | p, c :: l, q =>
    t.node? c.slot = some ⟨c.key, c.value, p, headSlot l q⟩ ∧ Segment t (some c.slot) l q

theorem segment_append {t : Recency κ ν} {l₁ l₂ : List (Cell κ ν)} {p q : Option Nat} :
    t.Segment p (l₁ ++ l₂) q ↔
      t.Segment p l₁ (headSlot l₂ q) ∧ t.Segment (lastSlot l₁ p) l₂ q := by
  induction l₁ generalizing p with
  | nil => simp [Segment]
  | cons c l₁ ih => simp [Segment, headSlot_append, ih, and_assoc]

/-- Only the nodes of its own cells make a segment. -/
theorem Segment.frame {t t' : Recency κ ν} {l : List (Cell κ ν)} {p q : Option Nat}
    (h : t.Segment p l q) (hn : ∀ i ∈ slotsOf l, t'.node? i = t.node? i) : t'.Segment p l q := by
  induction l generalizing p with
  | nil => trivial
  | cons c l ih =>
    refine ⟨(hn _ List.mem_cons_self).trans h.1, ih h.2 fun i hi => ?_⟩
    exact hn i (List.mem_cons_of_mem _ hi)

/-- Every cell of a segment lies in its slot. -/
theorem Segment.node?_eq {t : Recency κ ν} {l : List (Cell κ ν)} {p q : Option Nat}
    (h : t.Segment p l q) {c : Cell κ ν} (hc : c ∈ l) :
    ∃ newer older, t.node? c.slot = some ⟨c.key, c.value, newer, older⟩ := by
  induction l generalizing p with
  | nil => exact absurd hc List.not_mem_nil
  | cons d l ih =>
    rcases List.mem_cons.mp hc with rfl | hc
    · exact ⟨p, headSlot l q, h.1⟩
    · exact ih h.2 hc

theorem Segment.content?_eq {t : Recency κ ν} {l : List (Cell κ ν)} {p q : Option Nat}
    (h : t.Segment p l q) {c : Cell κ ν} (hc : c ∈ l) : t.content? c.slot = some c.entry := by
  obtain ⟨newer, older, hn⟩ := h.node?_eq hc
  rw [content?, hn]
  rfl

/-- Redirecting the first cell's link to the newer side redirects the segment. -/
theorem Segment.setNewer {t : Recency κ ν} {c : Cell κ ν} {l : List (Cell κ ν)} {p q : Option Nat}
    (h : t.Segment p (c :: l) q) (hc : c.slot ∉ slotsOf l) (p' : Option Nat) :
    (t.adjust c.slot fun m => { m with newer := p' }).Segment p' (c :: l) q := by
  refine ⟨?_, h.2.frame fun i hi => ?_⟩
  · rw [node?_adjust, if_pos rfl, h.1]
    rfl
  · exact node?_adjust_of_ne (fun hci : c.slot = i => hc (hci ▸ hi)) t _

/-- Redirecting the last cell's link to the older side redirects the segment. -/
theorem Segment.setOlder {t : Recency κ ν} {c : Cell κ ν} {l : List (Cell κ ν)} {p q : Option Nat}
    (h : t.Segment p (l ++ [c]) q) (hc : c.slot ∉ slotsOf l) (q' : Option Nat) :
    (t.adjust c.slot fun m => { m with older := q' }).Segment p (l ++ [c]) q' := by
  obtain ⟨hl, hlast⟩ := segment_append.mp h
  refine segment_append.mpr ⟨?_, ?_, trivial⟩
  · refine hl.frame fun i hi => ?_
    exact node?_adjust_of_ne (fun hci : c.slot = i => hc (hci ▸ hi)) t _
  · rw [node?_adjust, if_pos rfl, hlast.1]
    rfl

/-- Walking from the first cell towards the older ones meets all of them. -/
theorem Segment.walk_older {t : Recency κ ν} {l : List (Cell κ ν)} {p : Option Nat}
    (h : t.Segment p l none) {fuel : Nat} (hfuel : l.length ≤ fuel) :
    t.walk Node.older fuel (headSlot l none) = l.map Cell.entry := by
  induction l generalizing p fuel with
  | nil => cases fuel <;> rfl
  | cons c l ih =>
    obtain ⟨fuel, rfl⟩ : ∃ n, fuel = n + 1 := ⟨fuel - 1, by simp at hfuel; omega⟩
    rw [headSlot_cons, walk, h.1]
    exact congrArg (c.entry :: ·) (ih h.2 (by simpa using hfuel))

/-- Walking from the last cell towards the newer ones meets all of them. -/
theorem Segment.walk_newer {t : Recency κ ν} {l : List (Cell κ ν)} {q : Option Nat}
    (h : t.Segment none l q) {fuel : Nat} (hfuel : l.length ≤ fuel) :
    t.walk Node.newer fuel (lastSlot l none) = (l.map Cell.entry).reverse := by
  -- the walk starts at the oldest cell, so the cells are taken off at that end
  induction l using List.reverseRecOn generalizing q fuel with
  | nil => cases fuel <;> rfl
  | append_singleton l c ih =>
    obtain ⟨fuel, rfl⟩ : ∃ n, fuel = n + 1 := ⟨fuel - 1, by simp at hfuel; omega⟩
    obtain ⟨hl, hc, -⟩ := segment_append.mp h
    rw [lastSlot_append, lastSlot_cons, lastSlot_nil, walk, hc, List.map_append,
      List.reverse_append]
    exact congrArg (c.entry :: ·) (ih hl (by simpa using hfuel))

/-! ## Turning a link -/

/-- Makes `q` what follows slot `p`; what follows no slot is the newest. -/
def setOlderAt (p q : Option Nat) (t : Recency κ ν) : Recency κ ν :=
  match p with
  | some j => t.adjust j fun m => { m with older := q }
  | none => { t with newest := q }

/-- Makes `p` what precedes slot `q`; what precedes no slot is the oldest. -/
def setNewerAt (q p : Option Nat) (t : Recency κ ν) : Recency κ ν :=
  match q with
  | some j => t.adjust j fun m => { m with newer := p }
  | none => { t with oldest := p }

theorem unlink_eq {t : Recency κ ν} {i : Nat} {n : Node κ ν} (h : t.node? i = some n) :
    t.unlink i = (t.setOlderAt n.newer n.older).setNewerAt n.older n.newer := by
  rw [unlink, h]
  rfl

theorem linkNewest_eq (t : Recency κ ν) (i : Nat) :
    t.linkNewest i =
      { (t.adjust i fun m => { m with newer := none, older := t.newest }).setNewerAt
          t.newest (some i) with newest := some i } := rfl

@[simp] theorem oldest_setOlderAt (t : Recency κ ν) (p q : Option Nat) :
    (t.setOlderAt p q).oldest = t.oldest := by
  cases p <;> rfl

@[simp] theorem newest_setNewerAt (t : Recency κ ν) (q p : Option Nat) :
    (t.setNewerAt q p).newest = t.newest := by
  cases q <;> rfl

theorem node?_setOlderAt {p : Option Nat} {i : Nat} (h : p ≠ some i) (t : Recency κ ν)
    (q : Option Nat) : (t.setOlderAt p q).node? i = t.node? i := by
  cases p with
  | none => rfl
  | some j => exact node?_adjust_of_ne (fun hji => h (congrArg some hji)) t _

theorem node?_setNewerAt {q : Option Nat} {i : Nat} (h : q ≠ some i) (t : Recency κ ν)
    (p : Option Nat) : (t.setNewerAt q p).node? i = t.node? i := by
  cases q with
  | none => rfl
  | some j => exact node?_adjust_of_ne (fun hji => h (congrArg some hji)) t _

/-! ## What no change of links touches -/

/-- The second list holds the same entries in the same slots as the first, whatever the order. -/
structure LinksOnly (t t' : Recency κ ν) : Prop where
  index : t'.index = t.index
  slots_size : t'.slots.size = t.slots.size
  free : t'.free = t.free
  capacity : t'.capacity = t.capacity
  content? : ∀ i, t'.content? i = t.content? i

theorem LinksOnly.refl (t : Recency κ ν) : LinksOnly t t := ⟨rfl, rfl, rfl, rfl, fun _ => rfl⟩

theorem LinksOnly.trans {t₁ t₂ t₃ : Recency κ ν} (h : LinksOnly t₁ t₂) (h' : LinksOnly t₂ t₃) :
    LinksOnly t₁ t₃ where
  index := h'.index.trans h.index
  slots_size := h'.slots_size.trans h.slots_size
  free := h'.free.trans h.free
  capacity := h'.capacity.trans h.capacity
  content? i := (h'.content? i).trans (h.content? i)

theorem linksOnly_adjust {f : Node κ ν → Node κ ν} (hk : ∀ n, (f n).key = n.key)
    (hv : ∀ n, (f n).value = n.value) (t : Recency κ ν) (j : Nat) :
    LinksOnly t (t.adjust j f) where
  index := rfl
  slots_size := by simp [adjust]
  free := rfl
  capacity := rfl
  content? i := by
    rw [content?, node?_adjust]
    split
    · rw [content?, Option.map_map]
      congr 1
      funext n
      simp [hk, hv]
    · rfl

theorem linksOnly_setOlderAt (t : Recency κ ν) (p q : Option Nat) :
    LinksOnly t (t.setOlderAt p q) := by
  cases p with
  | none => exact ⟨rfl, rfl, rfl, rfl, fun _ => rfl⟩
  | some j =>
    exact linksOnly_adjust (f := fun m => { m with older := q }) (fun _ => rfl) (fun _ => rfl) t j

theorem linksOnly_setNewerAt (t : Recency κ ν) (q p : Option Nat) :
    LinksOnly t (t.setNewerAt q p) := by
  cases q with
  | none => exact ⟨rfl, rfl, rfl, rfl, fun _ => rfl⟩
  | some j =>
    exact linksOnly_adjust (f := fun m => { m with newer := p }) (fun _ => rfl) (fun _ => rfl) t j

theorem linksOnly_unlink (t : Recency κ ν) (i : Nat) : LinksOnly t (t.unlink i) := by
  cases hn : t.node? i with
  | none =>
    rw [unlink, hn]
    exact .refl t
  | some n =>
    rw [unlink_eq hn]
    exact (linksOnly_setOlderAt ..).trans (linksOnly_setNewerAt ..)

theorem linksOnly_linkNewest (t : Recency κ ν) (i : Nat) : LinksOnly t (t.linkNewest i) := by
  rw [linkNewest_eq]
  have h := (linksOnly_adjust (f := fun m => { m with newer := none, older := t.newest })
    (fun _ => rfl) (fun _ => rfl) t i).trans (linksOnly_setNewerAt _ t.newest (some i))
  exact ⟨h.index, h.slots_size, h.free, h.capacity, h.content?⟩

theorem linksOnly_promote (t : Recency κ ν) (i : Nat) : LinksOnly t (t.promote i) := by
  rw [promote]
  split
  · exact .refl t
  · exact (linksOnly_unlink t i).trans (linksOnly_linkNewest _ i)

/-! ## The whole order -/

/-- The links of a recency list tell the order of these cells, the newest first. -/
structure Linked (t : Recency κ ν) (l : List (Cell κ ν)) : Prop where
  slots_nodup : (slotsOf l).Nodup
  segment : t.Segment none l none
  newest : t.newest = headSlot l none
  oldest : t.oldest = lastSlot l none

/-- A slot belongs to one cell. -/
theorem Linked.slot_notin {t : Recency κ ν} {l₁ l₂ : List (Cell κ ν)} {c : Cell κ ν}
    (h : t.Linked (l₁ ++ c :: l₂)) : c.slot ∉ slotsOf (l₁ ++ l₂) :=
  (List.nodup_cons.mp ((List.perm_middle.map Cell.slot).nodup_iff.mp h.slots_nodup)).1

theorem Linked.slot_notin_before {t : Recency κ ν} {l₁ l₂ : List (Cell κ ν)} {c : Cell κ ν}
    (h : t.Linked (l₁ ++ c :: l₂)) : c.slot ∉ slotsOf l₁ := fun hc =>
  h.slot_notin (by simpa [slotsOf] using Or.inl hc)

theorem Linked.slot_notin_after {t : Recency κ ν} {l₁ l₂ : List (Cell κ ν)} {c : Cell κ ν}
    (h : t.Linked (l₁ ++ c :: l₂)) : c.slot ∉ slotsOf l₂ := fun hc =>
  h.slot_notin (by simpa [slotsOf] using Or.inr hc)

/-- What follows the newest cells can be exchanged. -/
theorem Segment.setOlderAt {t : Recency κ ν} {l : List (Cell κ ν)} {q : Option Nat}
    (h : t.Segment none l q) (hnodup : (slotsOf l).Nodup) (hnew : t.newest = headSlot l q)
    (q' : Option Nat) :
    (t.setOlderAt (lastSlot l none) q').Segment none l q' ∧
      (t.setOlderAt (lastSlot l none) q').newest = headSlot l q' := by
  rcases List.eq_nil_or_concat l with rfl | ⟨l, c, rfl⟩
  · exact ⟨trivial, rfl⟩
  · rw [List.concat_eq_append] at *
    have hlast : lastSlot (l ++ [c]) none = some c.slot := by rw [lastSlot_append]; rfl
    have hc : c.slot ∉ slotsOf l := by
      intro hmem
      rw [slotsOf, List.map_append, List.nodup_append] at hnodup
      exact hnodup.2.2 _ hmem _ (by simp) rfl
    rw [hlast]
    refine ⟨h.setOlder hc q', ?_⟩
    show t.newest = _
    rw [hnew, headSlot_append, headSlot_append]
    rfl

/-- What precedes the oldest cells can be exchanged. -/
theorem Segment.setNewerAt {t : Recency κ ν} {l : List (Cell κ ν)} {p : Option Nat}
    (h : t.Segment p l none) (hnodup : (slotsOf l).Nodup) (hold : t.oldest = lastSlot l p)
    (p' : Option Nat) :
    (t.setNewerAt (headSlot l none) p').Segment p' l none ∧
      (t.setNewerAt (headSlot l none) p').oldest = lastSlot l p' := by
  cases l with
  | nil => exact ⟨trivial, rfl⟩
  | cons c l => exact ⟨h.setNewer (List.nodup_cons.mp hnodup).1 p', hold⟩

/-- A cell leaves the order: the cells before it are followed by those after it. -/
theorem Linked.unlink {t : Recency κ ν} {l₁ l₂ : List (Cell κ ν)} {c : Cell κ ν}
    (h : t.Linked (l₁ ++ c :: l₂)) : (t.unlink c.slot).Linked (l₁ ++ l₂) := by
  obtain ⟨hnodup, hseg, hnew, hold⟩ := h
  obtain ⟨h₁, hc, h₂⟩ := segment_append.mp hseg
  rw [slotsOf, List.map_append, List.map_cons, List.nodup_append] at hnodup
  obtain ⟨hnodup₁, hnodup₂, hdisj⟩ := hnodup
  have hnodup₂ := (List.nodup_cons.mp hnodup₂).2
  have hdisj : ∀ i ∈ slotsOf l₁, i ∉ slotsOf l₂ := fun i hi₁ hi₂ =>
    hdisj i hi₁ i (List.mem_cons_of_mem _ hi₂) rfl
  rw [unlink_eq hc]
  -- first the newer neighbour is turned to the older one, then the other way round
  obtain ⟨h₁, hnew⟩ := h₁.setOlderAt hnodup₁ (by rw [hnew, headSlot_append]) (headSlot l₂ none)
  have h₂ := h₂.frame fun i hi =>
    node?_setOlderAt (lastSlot_ne fun hi₁ => hdisj i hi₁ hi) t (headSlot l₂ none)
  rw [lastSlot_append, lastSlot_cons] at hold
  obtain ⟨h₂, hold⟩ := h₂.setNewerAt hnodup₂ ((oldest_setOlderAt ..).trans hold) (lastSlot l₁ none)
  refine { slots_nodup := ?_, segment := segment_append.mpr ⟨?_, h₂⟩, newest := ?_, oldest := ?_ }
  · rw [slotsOf, List.map_append, List.nodup_append]
    exact ⟨hnodup₁, hnodup₂, fun i hi₁ j hj₂ hij => hdisj i hi₁ (hij ▸ hj₂)⟩
  · exact h₁.frame fun i hi => node?_setNewerAt (headSlot_ne (hdisj i hi)) _ _
  · rw [newest_setNewerAt, hnew, headSlot_append]
  · rw [hold, lastSlot_append]

/-- A cell outside the order enters it as the newest. -/
theorem Linked.linkNewest {t : Recency κ ν} {l : List (Cell κ ν)} {c : Cell κ ν}
    (h : t.Linked l) (hc : c.slot ∉ slotsOf l) (he : t.content? c.slot = some c.entry) :
    (t.linkNewest c.slot).Linked (c :: l) := by
  obtain ⟨hnodup, hseg, hnew, hold⟩ := h
  obtain ⟨n, hn, hentry⟩ := Option.map_eq_some_iff.mp he
  obtain ⟨hkey, hvalue⟩ := Prod.mk.inj hentry
  rw [linkNewest_eq]
  -- the new cell's own links are set before the newest cell so far is turned to it
  generalize ht' : t.adjust c.slot (fun m => { m with newer := none, older := t.newest }) = t'
  have hself : t'.node? c.slot = some ⟨c.key, c.value, none, headSlot l none⟩ := by
    rw [← ht', node?_adjust, if_pos rfl, hn, hnew, ← hkey, ← hvalue]
    rfl
  have hseg : t'.Segment none l none := by
    refine hseg.frame fun i hi => ?_
    rw [← ht']
    exact node?_adjust_of_ne (fun hci : c.slot = i => hc (hci ▸ hi)) t _
  have hold : t'.oldest = lastSlot l none := by
    rw [← ht']
    exact hold
  obtain ⟨hseg, hold⟩ := hseg.setNewerAt hnodup hold (some c.slot)
  rw [← hnew] at hseg hold
  exact {
    slots_nodup := List.nodup_cons.mpr ⟨hc, hnodup⟩
    segment := ⟨(node?_setNewerAt (hnew ▸ headSlot_ne hc) t' _).trans hself,
      hseg.frame fun _ _ => rfl⟩
    newest := rfl
    oldest := hold }

/-- A cell of the order becomes the newest. -/
theorem Linked.promote {t : Recency κ ν} {l₁ l₂ : List (Cell κ ν)} {c : Cell κ ν}
    (h : t.Linked (l₁ ++ c :: l₂)) : (t.promote c.slot).Linked (c :: (l₁ ++ l₂)) := by
  rw [Recency.promote]
  split
  · -- nothing is done for the newest cell, and that can only be the first
    rename_i hnew
    cases l₁ with
    | nil => exact h
    | cons d l₁ =>
      rw [h.newest] at hnew
      exact absurd (by simp [Option.some.inj hnew]) h.slot_notin_before
  · refine h.unlink.linkNewest h.slot_notin ?_
    rw [(linksOnly_unlink t c.slot).content?]
    exact h.segment.content?_eq (by simp)

end Recency

end SoftTier
