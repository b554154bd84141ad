import SoftTier.Proofs.Reclaimer.Tracking

/-!
# What the operations of a reclaimer leave

Each operation of a reclaimer comes down to a change of what is retained, with what that pushes out
released, and then perhaps a sweep. So all of them are told in the same words: what is followed
afterwards, and what may be retained.

- `Reclaimer.release_tracked`: what is pushed out of retention is still followed.
- `Reclaimer.shrink_settled`, `Reclaimer.setCapacity_settled`, `Reclaimer.retain_settled`,
  `Reclaimer.refresh_settled`: the operations that can end in a sweep.
- `Reclaimer.forget_settled`, `Reclaimer.reset_settled`: those that stop following.
-/

namespace SoftTier

namespace Reclaimer

variable {κ : Type} [Ord κ]

theorem ofCapacity_zero : (ofCapacity 0 : Except Fault (Reclaimer κ)) =
    .error (.failure .softCapacityZero) := rfl

theorem ofCapacity_eq {n : Nat} (hn : 0 < n) : (ofCapacity n : Except Fault (Reclaimer κ)) =
    .ok ⟨⟨∅, #[], none, none, [], n⟩, [], [], 0⟩ := by
  rw [ofCapacity, if_neg (by omega), Recency.ofCapacity_eq hn]

variable [DecidableEq κ]

/-- What is followed once a key has been brought to the front. -/
theorem get?_front (k k' : κ) (v : Value) (r : Reclaimer κ) :
    (Assoc.get? k' ((k, v) :: Assoc.erase k r.kept)).or
      (Assoc.get? k' (Assoc.erase k r.released)) = Function.update r.tracked k (some v) k' := by
  rw [Function.update_apply, tracked, Assoc.get?, Assoc.get?_erase, Assoc.get?_erase]
  by_cases hk : k = k'
  · simp [hk]
  · simp [hk, Ne.symm hk]

theorem mem_keys_front {r : Reclaimer κ} {k' : κ} (hk' : k' ∈ r.kept.keys) (k : κ) (v : Value) :
    k' ∈ Assoc.keys ((k, v) :: Assoc.erase k r.kept) := by
  by_cases heq : k' = k
  · exact heq ▸ List.mem_cons_self
  · exact List.mem_cons_of_mem _ (Assoc.mem_keys_erase.mpr ⟨hk', heq⟩)

variable [Std.TransOrd κ]

/-! ## Pushing values out of retention -/

/-- What retention gives up is still followed, as released. The entries `es` may come from anywhere:
a ranking that was cut, or an insertion that pushed one out. -/
theorem release_tracked {r : Reclaimer κ} {retained : Recency κ Value} {R : Ranking κ Value}
    (hr : retained.Ranks R) (hpos : 0 < R.capacity) (hbound : R.entries.length ≤ R.capacity)
    {es : List (κ × Value)} (hes : (Assoc.keys (R.entries ++ es)).Nodup)
    (hrel : r.released.keys.Nodup)
    (hdisj : ∀ k ∈ Assoc.keys (R.entries ++ es), k ∉ r.released.keys) :
    ({ r with retained }.release es.reverse).Sound ∧
      ∀ k, ({ r with retained }.release es.reverse).tracked k =
        (Assoc.get? k (R.entries ++ es)).or (Assoc.get? k r.released) := by
  have hkept : ({ r with retained }.release es.reverse).kept = R.entries := hr.toList_eq
  have hcap : ({ r with retained }.release es.reverse).softCapacity = R.capacity := hr.capacity_eq
  have hget : ∀ k, Assoc.get? k ({ r with retained }.release es.reverse).released =
      (Assoc.get? k es).or (Assoc.get? k r.released) := by
    intro k
    rw [release, Assoc.get?_foldl_insert, List.reverse_reverse]
  constructor
  · refine { ranks := ?_, capacity_pos := ?_, bounded := ?_, released_nodup := ?_, disjoint := ?_ }
    · rw [hkept]
      exact ⟨hr.layout, rfl⟩
    · rwa [hcap]
    · rwa [hkept, hcap]
    · exact Assoc.nodup_keys_foldl_insert _ hrel
    · intro k hk
      rw [hkept] at hk
      have hkes : k ∉ Assoc.keys es := by
        rw [Assoc.keys, List.map_append] at hes
        exact (List.disjoint_of_nodup_append hes) hk
      have hkrel : k ∉ r.released.keys := by
        refine hdisj k ?_
        rw [Assoc.keys, List.map_append]
        exact List.mem_append_left _ hk
      rw [← Assoc.get?_eq_none_iff, hget, Assoc.get?_eq_none_iff.mpr hkes,
        Assoc.get?_eq_none_iff.mpr hkrel]
      rfl
  · intro k
    rw [tracked, hkept, hget, Assoc.get?_append, Option.or_assoc]

/-- A change of what is retained, with nothing given up. -/
theorem retained_tracked {r : Reclaimer κ} {retained : Recency κ Value} {R : Ranking κ Value}
    (hr : retained.Ranks R) (hpos : 0 < R.capacity) (hbound : R.entries.length ≤ R.capacity)
    (hrel : r.released.keys.Nodup) (hdisj : ∀ k ∈ Assoc.keys R.entries, k ∉ r.released.keys) :
    ({ r with retained } : Reclaimer κ).Sound ∧
      ∀ k, ({ r with retained } : Reclaimer κ).tracked k =
        (Assoc.get? k R.entries).or (Assoc.get? k r.released) := by
  have hnil : R.entries ++ [] = R.entries := List.append_nil _
  have h := release_tracked hr hpos hbound (hnil.symm ▸ hr.keys_nodup) hrel (hnil.symm ▸ hdisj)
  rwa [hnil] at h

/-- A ranking that was cut, followed by what was cut off, is the ranking. -/
theorem release_cut_tracked {r : Reclaimer κ} (h : r.Sound) {capacity n : Nat} (hpos : 0 < capacity)
    (hlen : (r.kept.take n).length ≤ capacity) {retained : Recency κ Value}
    (hr : retained.Ranks ⟨r.kept.take n, capacity⟩) :
    ({ r with retained }.release (r.kept.drop n).reverse).Sound ∧
      ∀ k, ({ r with retained }.release (r.kept.drop n).reverse).tracked k = r.tracked k := by
  have hes : (Assoc.keys (r.kept.take n ++ r.kept.drop n)).Nodup := by
    rw [List.take_append_drop]
    exact h.kept_nodup
  have hdisj : ∀ k ∈ Assoc.keys (r.kept.take n ++ r.kept.drop n), k ∉ r.released.keys := by
    rw [List.take_append_drop]
    exact h.disjoint
  have hrel := release_tracked hr hpos hlen hes h.released_nodup hdisj
  rw [List.take_append_drop] at hrel
  exact hrel

/-- Cutting a ranking and sweeping. -/
theorem cut_settled {r : Reclaimer κ} (h : r.Sound) {capacity n : Nat} (hpos : 0 < capacity)
    (hlen : (r.kept.take n).length ≤ capacity) {retained : Recency κ Value}
    (hr : retained.Ranks ⟨r.kept.take n, capacity⟩) (env : Ambient) :
    ∃ dead, Settled env r.posted r.tracked (keeps r · = true)
      (({ r with retained }.release (r.kept.drop n).reverse).sweep env).2 dead := by
  obtain ⟨hsound, htracked⟩ := release_cut_tracked h hpos hlen hr
  exact ⟨_, sweep_settled env hsound rfl htracked fun v hv =>
    h.keeps_of_subset hr (fun e he => List.mem_of_mem_take he) hv⟩

/-! ## Bringing a key to the front -/

theorem front_nodup {r : Reclaimer κ} (h : r.Sound) (k : κ) (v : Value) :
    (Assoc.keys ((k, v) :: Assoc.erase k r.kept)).Nodup := by
  refine List.nodup_cons.mpr ⟨fun hmem => ?_, Assoc.nodup_keys_erase h.kept_nodup k⟩
  exact (Assoc.mem_keys_erase.mp hmem).2 rfl

theorem front_disjoint {r : Reclaimer κ} (h : r.Sound) (k : κ) (v : Value) :
    ∀ k' ∈ Assoc.keys ((k, v) :: Assoc.erase k r.kept),
      k' ∉ Assoc.keys (Assoc.erase k r.released) := by
  intro k' hk' hrel
  obtain ⟨hrel, hne⟩ := Assoc.mem_keys_erase.mp hrel
  have hkept := (List.mem_cons.mp hk').resolve_left hne
  exact h.disjoint k' (Assoc.mem_keys_erase.mp hkept).1 hrel

/-! ## The operations -/

theorem shrink_eq (env : Ambient) (target : Nat) (r : Reclaimer κ) :
    r.shrink env target = ({ r with retained := (r.retained.trim target).2 }.release
      (r.retained.trim target).1).sweep env := rfl

theorem setCapacity_zero (env : Ambient) (r : Reclaimer κ) :
    r.setCapacity env 0 = .error (.failure .softCapacityZero) := rfl

theorem setCapacity_eq {env : Ambient} {n : Nat} (hn : 0 < n) {r : Reclaimer κ}
    {evicted : List (κ × Value)} {retained : Recency κ Value}
    (h : r.retained.resize n = .ok (evicted, retained)) :
    r.setCapacity env n = .ok (if evicted = [] then (0, { r with retained })
      else ({ r with retained }.release evicted).sweep env) := by
  rw [setCapacity, if_neg (by omega), h]
  cases evicted <;> rfl

theorem retain_eq {env : Ambient} {k : κ} {v : Value} {r : Reclaimer κ} {es : List (κ × Value)}
    (hes : es.length ≤ 1) (h : (r.retained.insert k v).1 = es.head?) :
    r.retain env k v =
      let r' := { r with
        retained := (r.retained.insert k v).2
        released := Assoc.erase k r.released }
      if es = [] then (0, r') else (r'.release es).sweep env := by
  rw [retain]
  generalize r.retained.insert k v = p at h
  obtain ⟨e?, retained⟩ := p
  rcases es with _ | ⟨e, _ | ⟨e', es⟩⟩
  · subst h
    rfl
  · subst h
    rfl
  · simp at hes

/-- Only the released values are swept. -/
theorem retained_retain (env : Ambient) (k : κ) (v : Value) (r : Reclaimer κ) :
    (r.retain env k v).2.retained = (r.retained.insert k v).2 := by
  rw [retain]
  dsimp only
  split
  · rfl
  · rw [sweep_eq]
    rfl

theorem refresh_eq (env : Ambient) (k : κ) (v : Value) (r : Reclaimer κ) :
    r.refresh env k v = if (r.retained.touch k).1 then
      (0, { r with retained := (r.retained.touch k).2 })
    else { r with retained := (r.retained.touch k).2 }.retain env k v := rfl

/-- Looking for a key that retention does not have changes nothing. -/
theorem touch_of_notin {r : Reclaimer κ} (h : r.Sound) {k : κ} (hk : k ∉ r.kept.keys) :
    r.retained.touch k = (false, r.retained) := by
  have hcontains : r.retained.contains k = Assoc.has k r.kept := h.ranks.contains k
  rw [Assoc.has_eq_false_iff.mpr hk, Recency.contains,
    Std.ExtTreeMap.contains_eq_isSome_getElem?, Option.isSome_eq_false_iff,
    Option.isNone_iff_eq_none] at hcontains
  rw [Recency.touch, hcontains]

/-- Reading a value that is not retained retains it. -/
theorem refresh_of_notin {r : Reclaimer κ} (h : r.Sound) (env : Ambient) {k : κ}
    (hk : k ∉ r.kept.keys) (v : Value) : r.refresh env k v = r.retain env k v := by
  rw [refresh_eq, touch_of_notin h hk]
  rfl

/-- Reading a retained value brings it to the front, whatever value was read. -/
theorem refresh_of_mem {r : Reclaimer κ} (h : r.Sound) (env : Ambient) {k : κ} {w : Value}
    (hmem : (k, w) ∈ r.kept) (v : Value) :
    ∃ retained : Recency κ Value, r.refresh env k v = (0, { r with retained }) ∧
      retained.Ranks ⟨(k, w) :: Assoc.erase k r.kept, r.softCapacity⟩ := by
  obtain ⟨hfound, hr⟩ := h.ranks.touch k
  rw [Ranking.touch, (Assoc.get?_eq_some_iff h.kept_nodup).mpr hmem] at hfound hr
  exact ⟨_, by rw [refresh_eq, if_pos hfound], hr⟩

/-- Using a retained value brings it to the front. -/
theorem touch_settled {r : Reclaimer κ} (h : r.Sound) (env : Ambient) {k : κ} {v : Value}
    (hmem : (k, v) ∈ r.kept) {retained : Recency κ Value}
    (hr : retained.Ranks ⟨(k, v) :: Assoc.erase k r.kept, r.softCapacity⟩) :
    (k, v) ∈ ({ r with retained } : Reclaimer κ).kept ∧
      Settled env r.posted r.tracked (keeps r · = true) { r with retained } [] := by
  have hk : k ∉ r.released.keys := h.disjoint k (Assoc.mem_keys_of_mem hmem)
  have hlen : ((k, v) :: Assoc.erase k r.kept).length ≤ r.softCapacity :=
    Nat.le_trans (Assoc.length_erase_lt (Assoc.mem_keys_of_mem hmem)) h.bounded
  have hdisj := front_disjoint h k v
  have hfront := fun k' => get?_front k k' v r
  rw [Assoc.erase_eq_self hk] at hdisj hfront
  obtain ⟨hsound, htracked⟩ := retained_tracked hr h.capacity_pos hlen h.released_nodup hdisj
  have hsame : Function.update r.tracked k (some v) = r.tracked := by
    rw [← tracked_of_mem_kept h hmem]
    exact Function.update_eq_self k r.tracked
  constructor
  · show (k, v) ∈ retained.toList
    rw [hr.toList_eq]
    exact List.mem_cons_self
  · refine .unswept hsound rfl (fun k' => ?_) fun w hw => h.keeps_of_subset hr (fun e he => ?_) hw
    · rw [htracked, hfront, hsame]
    · rcases List.mem_cons.mp he with rfl | he
      · exact hmem
      · exact (Assoc.mem_erase.mp he).1

/-- Nothing is followed after a reset. -/
theorem reset_settled {r : Reclaimer κ} (h : r.Sound) (env : Ambient) :
    Settled env r.posted (fun _ => none) (fun _ => False) r.reset [] := by
  obtain ⟨hsound, htracked⟩ := retained_tracked (r := { r with released := [] }) h.ranks.clear
    h.capacity_pos (Nat.zero_le _) List.nodup_nil (fun k hk => absurd hk List.not_mem_nil)
  refine .unswept hsound rfl htracked fun v hv => ?_
  obtain ⟨k, hmem⟩ := hsound.keeps_iff.mp hv
  have hkept : r.reset.kept = [] := h.ranks.clear.toList_eq
  exact absurd (hkept ▸ hmem) List.not_mem_nil

/-- A new reclaimer follows nothing. -/
theorem ofCapacity_sound {n : Nat} {r : Reclaimer κ} (h : ofCapacity n = .ok r) :
    r.Sound ∧ r.posted = [] ∧ ∀ k, r.tracked k = none := by
  rcases Nat.eq_zero_or_pos n with rfl | hn
  · rw [ofCapacity_zero] at h
    exact absurd h (by simp)
  · rw [ofCapacity_eq hn] at h
    cases h
    have hr : Recency.Ranks (⟨∅, #[], none, none, [], n⟩ : Recency κ Value) ⟨[], n⟩ :=
      Recency.ranks_empty n
    obtain ⟨hsound, htracked⟩ := retained_tracked (r := ⟨⟨∅, #[], none, none, [], n⟩, [], [], 0⟩)
      hr hn (Nat.zero_le n) List.nodup_nil (fun k hk => absurd hk List.not_mem_nil)
    exact ⟨hsound, rfl, htracked⟩

variable [Std.LawfulEqOrd κ]

theorem shrink_settled {r : Reclaimer κ} (h : r.Sound) (env : Ambient) (target : Nat) :
    ∃ dead, Settled env r.posted r.tracked (keeps r · = true) (r.shrink env target).2 dead := by
  obtain ⟨hes, hr⟩ := h.ranks.trim target
  have hlen : (r.kept.take target).length ≤ r.softCapacity :=
    Nat.le_trans (List.length_take_le' ..) h.bounded
  rw [shrink_eq, hes]
  exact cut_settled h h.capacity_pos hlen hr env

theorem setCapacity_settled {r : Reclaimer κ} (h : r.Sound) (env : Ambient) {n : Nat}
    (hn : 0 < n) :
    ∃ p dead, r.setCapacity env n = .ok p ∧
      Settled env r.posted r.tracked (keeps r · = true) p.2 dead := by
  obtain ⟨retained, hresize, hr⟩ := h.ranks.resize hn
  have hlen : (r.kept.take n).length ≤ n := List.length_take_le ..
  by_cases hcut : r.kept.drop n = []
  · obtain ⟨hsound, htracked⟩ := release_cut_tracked h hn hlen hr
    rw [hcut] at hsound htracked
    refine ⟨(0, { r with retained }), [], ?_, ?_⟩
    · rw [setCapacity_eq hn hresize]
      simp [Ranking.resize, Ranking.trim, hcut]
    · exact .unswept hsound rfl htracked fun v hv =>
        h.keeps_of_subset hr (fun e he => List.mem_of_mem_take he) hv
  · obtain ⟨dead, hdead⟩ := cut_settled h hn hlen hr env
    refine ⟨_, dead, ?_, hdead⟩
    rw [setCapacity_eq hn hresize]
    simp [Ranking.resize, Ranking.trim, hcut]

/-- A value that is retained is followed, whatever is pushed out for it. -/
theorem retain_settled {r : Reclaimer κ} (h : r.Sound) (env : Ambient) (k : κ) (v : Value) :
    (k, v) ∈ (r.retain env k v).2.kept ∧
      ∃ dead, Settled env r.posted (Function.update r.tracked k (some v))
        (fun w => w = v ∨ keeps r w = true) (r.retain env k v).2 dead := by
  obtain ⟨l, es, hinsert, hes, happend, hlen⟩ :=
    Ranking.insert_cases (r := ⟨r.kept, r.softCapacity⟩) h.capacity_pos h.bounded k v
  obtain ⟨hevicted, hr⟩ := h.ranks.insert k v
  rw [hinsert] at hevicted hr
  dsimp only at hevicted hr happend
  -- with what is pushed out, the ranking is the old one with the key brought to the front
  have hfront : (k, v) :: l ++ es = (k, v) :: Assoc.erase k r.kept := by
    rw [List.cons_append, happend]
  have hrev : es.reverse = es := by
    rcases es with _ | ⟨e, _ | ⟨e', es⟩⟩
    · rfl
    · rfl
    · simp at hes
  have hrelease := release_tracked (r := { r with released := Assoc.erase k r.released })
    hr h.capacity_pos hlen (hfront ▸ front_nodup h k v) (Assoc.nodup_keys_erase h.released_nodup k)
    (hfront ▸ front_disjoint h k v)
  rw [hrev] at hrelease
  obtain ⟨hsound, htracked⟩ := hrelease
  dsimp only at htracked
  rw [hfront] at htracked
  have hwith := fun k' => (htracked k').trans (get?_front k k' v r)
  have hkeeps : ∀ w, (r.retained.insert k v).2.any (· == w) = true →
      w = v ∨ keeps r w = true := by
    intro w hw
    obtain ⟨k', he⟩ := exists_mem_of_any hr hw
    have hmem : (k', w) ∈ (k, v) :: Assoc.erase k r.kept := hfront ▸ List.mem_append_left es he
    rcases List.mem_cons.mp hmem with heq | hmem
    · exact .inl (Prod.mk.inj heq).2
    · exact .inr (h.keeps_iff.mpr ⟨k', (Assoc.mem_erase.mp hmem).1⟩)
  have hmem : (k, v) ∈ (r.retained.insert k v).2.toList := by
    rw [hr.toList_eq]
    exact List.mem_cons_self
  rw [retain_eq hes hevicted]
  dsimp only
  split
  · rename_i hnil
    subst hnil
    exact ⟨hmem, [], .unswept hsound rfl hwith hkeeps⟩
  · rw [kept_sweep]
    exact ⟨hmem, _, sweep_settled env hsound rfl hwith hkeeps⟩

/-- What is retained after a value has been put to the front: as much as fits. -/
theorem kept_retain {r : Reclaimer κ} (h : r.Sound) (env : Ambient) (k : κ) (v : Value) :
    (r.retain env k v).2.kept = ((k, v) :: Assoc.erase k r.kept).take r.softCapacity := by
  obtain ⟨-, hr⟩ := h.ranks.insert k v
  rw [Ranking.insert_eq h.capacity_pos h.bounded] at hr
  rw [kept, retained_retain]
  exact hr.toList_eq

theorem softCapacity_retain {r : Reclaimer κ} (h : r.Sound) (env : Ambient) (k : κ) (v : Value) :
    (r.retain env k v).2.softCapacity = r.softCapacity := by
  obtain ⟨-, hr⟩ := h.ranks.insert k v
  rw [Ranking.insert_eq h.capacity_pos h.bounded] at hr
  rw [softCapacity, retained_retain]
  exact hr.capacity_eq

/-- Retaining a value gives up the one that was retained under the key, or else the one unused for
longest when the bound is reached. -/
theorem keeps_retain {r : Reclaimer κ} (h : r.Sound) (env : Ambient) {k : κ} {v w : Value}
    (hw : keeps r w = true) :
    keeps (r.retain env k v).2 w = true ∨ (k, w) ∈ r.kept ∨
      k ∉ r.kept.keys ∧ r.kept.length = r.softCapacity ∧ ∃ k', r.kept.getLast? = some (k', w) := by
  obtain ⟨-, dead, hs⟩ := retain_settled h env k v
  obtain ⟨k', hmem⟩ := h.keeps_iff.mp hw
  rcases Ranking.mem_insert_of_mem (r := ⟨r.kept, r.softCapacity⟩) h.bounded k v hmem with
    hin | rfl | ⟨hnew, hfull, hlast⟩
  · rw [Ranking.insert_eq h.capacity_pos h.bounded, ← kept_retain h env] at hin
    exact .inl (hs.sound.keeps_iff.mpr ⟨k', hin⟩)
  · exact .inr (.inl hmem)
  · exact .inr (.inr ⟨hnew, hfull, k', hlast⟩)

/-- Reading brings a retained value to the front, whatever value was read. A value under a key that
retention does not have is retained from then on. -/
theorem refresh_cases {r : Reclaimer κ} (h : r.Sound) (env : Ambient) (k : κ) (v : Value) :
    (∃ w, (k, w) ∈ r.kept ∧ (k, w) ∈ (r.refresh env k v).2.kept ∧
      Settled env r.posted r.tracked (keeps r · = true) (r.refresh env k v).2 []) ∨
    (k, v) ∈ (r.refresh env k v).2.kept ∧
      ∃ dead, Settled env r.posted (Function.update r.tracked k (some v))
        (fun w => w = v ∨ keeps r w = true) (r.refresh env k v).2 dead := by
  by_cases hk : k ∈ r.kept.keys
  · obtain ⟨w, hmem⟩ := Assoc.mem_keys.mp hk
    obtain ⟨retained, heq, hr⟩ := refresh_of_mem h env hmem v
    obtain ⟨hmem', hs⟩ := touch_settled h env hmem hr
    rw [heq]
    exact .inl ⟨w, hmem, hmem', hs⟩
  · rw [refresh_of_notin h env hk]
    exact .inr (retain_settled h env k v)

/-- A value that is followed still is when it has been read, and is retained from then on. -/
theorem refresh_settled {r : Reclaimer κ} (h : r.Sound) (env : Ambient) {k : κ} {v : Value}
    (hv : r.tracked k = some v) :
    (k, v) ∈ (r.refresh env k v).2.kept ∧
      ∃ dead, Settled env r.posted r.tracked (fun w => w = v ∨ keeps r w = true)
        (r.refresh env k v).2 dead := by
  rcases refresh_cases h env k v with ⟨w, hmem, hmem', hs⟩ | ⟨hmem, dead, hs⟩
  · have hw : w = v := Option.some.inj ((tracked_of_mem_kept h hmem).symm.trans hv)
    subst hw
    exact ⟨hmem', [], hs.imp fun x hx => .inr hx⟩
  · have hsame : Function.update r.tracked k (some v) = r.tracked := by
      rw [← hv]
      exact Function.update_eq_self k r.tracked
    rw [hsame] at hs
    exact ⟨hmem, dead, hs⟩

/-- What is retained after a value that is followed has been read: it is in front. -/
theorem kept_refresh {r : Reclaimer κ} (h : r.Sound) (env : Ambient) {k : κ} {v : Value}
    (hv : r.tracked k = some v) :
    (r.refresh env k v).2.kept = ((k, v) :: Assoc.erase k r.kept).take r.softCapacity ∧
      (r.refresh env k v).2.softCapacity = r.softCapacity := by
  by_cases hk : k ∈ r.kept.keys
  · obtain ⟨w, hmem⟩ := Assoc.mem_keys.mp hk
    obtain rfl : w = v := Option.some.inj ((tracked_of_mem_kept h hmem).symm.trans hv)
    obtain ⟨retained, heq, hr⟩ := refresh_of_mem h env hmem w
    obtain ⟨-, hs⟩ := touch_settled h env hmem hr
    have hkept : ({ r with retained } : Reclaimer κ).kept = (k, w) :: Assoc.erase k r.kept :=
      hr.toList_eq
    have hcap : ({ r with retained } : Reclaimer κ).softCapacity = r.softCapacity := hr.capacity_eq
    have hlen := hs.sound.bounded
    rw [hkept, hcap] at hlen
    rw [heq, List.take_of_length_le hlen]
    exact ⟨hkept, hcap⟩
  · rw [refresh_of_notin h env hk]
    exact ⟨kept_retain h env k v, softCapacity_retain h env k v⟩

/-- Forgetting a key gives up the value that was retained under it. -/
theorem keeps_forget {r : Reclaimer κ} (h : r.Sound) {k : κ} {w : Value} (hw : keeps r w = true) :
    keeps (r.forget k) w = true ∨ (k, w) ∈ r.kept := by
  obtain ⟨-, hr⟩ := h.ranks.erase k
  obtain ⟨k', hmem⟩ := h.keeps_iff.mp hw
  by_cases heq : k' = k
  · exact .inr (heq ▸ hmem)
  · refine .inl ?_
    have hany : keeps (r.forget k) w = (Assoc.erase k r.kept).any fun e => e.2 == w :=
      hr.any_eq (· == w)
    rw [hany, List.any_eq_true]
    exact ⟨(k', w), Assoc.mem_erase.mpr ⟨hmem, heq⟩, beq_self_eq_true w⟩

theorem kept_forget {r : Reclaimer κ} (h : r.Sound) (k : κ) :
    (r.forget k).kept = Assoc.erase k r.kept := (h.ranks.erase k).2.toList_eq

theorem softCapacity_forget {r : Reclaimer κ} (h : r.Sound) (k : κ) :
    (r.forget k).softCapacity = r.softCapacity := (h.ranks.erase k).2.capacity_eq

/-- A key that is forgotten is not followed. -/
theorem forget_settled {r : Reclaimer κ} (h : r.Sound) (env : Ambient) (k : κ) :
    Settled env r.posted (Function.update r.tracked k none) (keeps r · = true) (r.forget k) [] := by
  obtain ⟨-, hr⟩ := h.ranks.erase k
  rw [Ranking.erase] at hr
  have hlen : (Assoc.erase k r.kept).length ≤ r.softCapacity :=
    Nat.le_trans (List.length_filter_le ..) h.bounded
  have hdisj : ∀ k' ∈ (Assoc.erase k r.kept).keys, k' ∉ (Assoc.erase k r.released).keys :=
    fun k' hkept hrel =>
      h.disjoint k' (Assoc.mem_keys_erase.mp hkept).1 (Assoc.mem_keys_erase.mp hrel).1
  obtain ⟨hsound, htracked⟩ := retained_tracked (r := { r with
    released := Assoc.erase k r.released }) hr h.capacity_pos hlen
    (Assoc.nodup_keys_erase h.released_nodup k) hdisj
  refine .unswept hsound rfl (fun k' => ?_) fun v hv => ?_
  · refine (htracked k').trans ?_
    rw [Assoc.get?_erase, Assoc.get?_erase, Function.update_apply, tracked]
    by_cases hk : k = k'
    · simp [hk]
    · simp [hk, Ne.symm hk]
  · exact h.keeps_of_subset hr (fun e he => (Assoc.mem_erase.mp he).1) hv

end Reclaimer

end SoftTier
