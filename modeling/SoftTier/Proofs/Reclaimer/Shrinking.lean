import SoftTier.Proofs.Reclaimer.Postings

/-!
# Two ways of giving up retention

Retention is given up by asking for fewer values to be left, or by lowering its bound. The one takes
the oldest entries out of the recency list one by one, the other has the list resized; what they
take out is then released and swept. As long as there is something to take out they come to the
same. A lowered bound also stays lowered.

- `Reclaimer.sweep_perm`, `Reclaimer.release_sweep_agrees`: what a sweep does to the same released
  values, whatever the bound is.
- `Reclaimer.recent`: the keys used so far, in the order of their last use, told from the record.
- `Reclaimer.kept_sublist_recent`: retention is in that order.
- `Reclaimer.shrink_cut`, `Reclaimer.setCapacity_cut`: both cut retention at the same place.
- `Reclaimer.shrink_agrees_setCapacity`: the two come to the same.
-/

namespace SoftTier

namespace Reclaimer

/-! ## Sweeping the same values -/

section Sweeping

variable {κ : Type} [Ord κ]

/-- Sweeps find the same values dead and the same alive, each in the order of its own visit. -/
theorem sweep_perm {r₁ r₂ : Reclaimer κ} {env₁ env₂ : Ambient}
    (halive : ∀ v, r₂.alive env₂ v = r₁.alive env₁ v) (hreleased : r₂.released = r₁.released) :
    (r₂.dying env₂).Perm (r₁.dying env₁) ∧ (r₂.lasting env₂).Perm (r₁.lasting env₁) := by
  have hvisits : (env₂.visit.arrange r₂.released).Perm (env₁.visit.arrange r₁.released) := by
    rw [hreleased]
    exact (env₂.visit.arrange_perm _).trans (env₁.visit.arrange_perm _).symm
  simp only [dying, lasting, halive]
  exact ⟨hvisits.filter _, hvisits.filter _⟩

variable [DecidableEq κ] [Std.TransOrd κ]

/-- Recency lists with the same entries, of whatever bounds: once the same values have been released
and swept, only the bounds differ. -/
theorem release_sweep_agrees {r : Reclaimer κ} {retained₁ retained₂ : Recency κ Value}
    {l : List (κ × Value)} {c₁ c₂ : Nat} (h₁ : retained₁.Ranks ⟨l, c₁⟩)
    (h₂ : retained₂.Ranks ⟨l, c₂⟩) (es : List (κ × Value)) (held : Value → Bool)
    (visit₁ visit₂ : Visit) :
    let r₁ := (({ r with retained := retained₁ }.release es).sweep ⟨held, visit₁⟩).2
    let r₂ := (({ r with retained := retained₂ }.release es).sweep ⟨held, visit₂⟩).2
    r₂.kept = r₁.kept ∧ r₂.released.Perm r₁.released ∧
      (∃ posts₁ posts₂, r₁.posted = r.posted ++ posts₁ ∧ r₂.posted = r.posted ++ posts₂ ∧
        posts₂.Perm posts₁) ∧ r₂.reclaimed = r₁.reclaimed ∧ r₁.softCapacity = c₁ ∧
      r₂.softCapacity = c₂ := by
  have halive : ∀ v, ({ r with retained := retained₂ }.release es).alive ⟨held, visit₂⟩ v =
      ({ r with retained := retained₁ }.release es).alive ⟨held, visit₁⟩ v := by
    intro v
    show (held v || retained₂.any (· == v)) = (held v || retained₁.any (· == v))
    rw [h₁.any_eq, h₂.any_eq]
  have hkept : ({ r with retained := retained₂ } : Reclaimer κ).kept =
      ({ r with retained := retained₁ } : Reclaimer κ).kept := h₂.toList_eq.trans h₁.toList_eq.symm
  obtain ⟨hdying, hlasting⟩ := sweep_perm halive rfl
  intro r₁ r₂
  have hr₁ : r₁ = _ := congrArg Prod.snd (sweep_eq ..)
  have hr₂ : r₂ = _ := congrArg Prod.snd (sweep_eq ..)
  rw [hr₁, hr₂]
  refine ⟨hkept, hlasting, ⟨_, _, rfl, rfl, hdying.map Prod.fst⟩, ?_, h₁.capacity_eq,
    h₂.capacity_eq⟩
  exact congrArg (fun n : Nat => r.reclaimed + n.toUInt64) hdying.length_eq

end Sweeping

variable {κ : Type} [DecidableEq κ] [Ord κ]

/-! ## The order of use -/

section Use

/-- A key that is retained or read comes to the front of the keys used. -/
def Request.uses (keys : List κ) : Request κ → List κ
  | .retain k _ | .refresh k _ => k :: keys.filter (· ≠ k)
  | _ => keys

/-- The keys that were retained or read, the one used last first. -/
def recent : List (Episode κ) → List κ
  | [] => []
  | e :: past => e.request.uses (recent past)

theorem nodup_recent (past : List (Episode κ)) : (recent past).Nodup := by
  have hfront : ∀ (k : κ) {keys : List κ}, keys.Nodup → (k :: keys.filter (· ≠ k)).Nodup := by
    intro k keys hkeys
    exact List.nodup_cons.mpr ⟨by simp, hkeys.filter _⟩
  induction past with
  | nil => exact List.nodup_nil
  | cons e past ih =>
    rw [recent]
    cases e.request with
    | retain k v => exact hfront k ih
    | refresh k v => exact hfront k ih
    | _ => exact ih

/-- What stands in front is in order with the rest behind it. -/
theorem front_sublist {r : Reclaimer κ} {keys : List κ} (hkeys : r.kept.keys.Sublist keys) (k : κ)
    (v : Value) :
    (Assoc.keys ((k, v) :: Assoc.erase k r.kept)).Sublist (k :: keys.filter (· ≠ k)) := by
  have herase : (Assoc.erase k r.kept).keys.Sublist (keys.filter (· ≠ k)) := by
    rw [Assoc.keys_erase]
    exact hkeys.filter _
  exact herase.cons_cons k

variable [Std.TransOrd κ] [Std.LawfulEqOrd κ]

/-- Every request leaves what is retained in the order of use. -/
theorem serve_sublist {r : Reclaimer κ} (h : r.Sound) (env : Ambient) {keys : List κ}
    (hkeys : r.kept.keys.Sublist keys) (q : Request κ) :
    (r.serve env q).2.kept.keys.Sublist (q.uses keys) := by
  have htake : ∀ {r' : Reclaimer κ} {n : Nat}, r'.kept = r.kept.take n →
      r'.kept.keys.Sublist keys := by
    intro r' n hkept
    rw [hkept]
    exact ((List.take_sublist ..).map _).trans hkeys
  have hretain : ∀ k v, (r.retain env k v).2.kept.keys.Sublist (k :: keys.filter (· ≠ k)) := by
    intro k v
    rw [kept_retain h]
    exact ((List.take_sublist ..).map _).trans (front_sublist hkeys k v)
  have hforget : ∀ k, (r.forget k).kept.keys.Sublist keys := by
    intro k
    rw [kept_forget h]
    exact (List.filter_sublist.map _).trans hkeys
  cases q with
  | retain k v => exact hretain k v
  | refresh k v =>
    by_cases hk : k ∈ r.kept.keys
    · obtain ⟨w, hmem⟩ := Assoc.mem_keys.mp hk
      obtain ⟨retained, heq, hr⟩ := refresh_of_mem h env hmem v
      have hkept : ({ r with retained } : Reclaimer κ).kept = (k, w) :: Assoc.erase k r.kept :=
        hr.toList_eq
      rw [serve, heq, hkept]
      exact front_sublist hkeys k w
    · rw [serve, refresh_of_notin h env hk]
      exact hretain k v
  | forget k => exact hforget k
  | miss k => exact hforget k
  | sweep => exact kept_sweep env r ▸ hkeys
  | shrink n => exact htake (kept_shrink h env n)
  | setCapacity n =>
    rcases Nat.eq_zero_or_pos n with rfl | hn
    · exact hkeys
    · obtain ⟨p, -, hp, -⟩ := setCapacity_settled h env hn
      rw [serve, hp]
      exact htake (setCapacity_ends h hn hp).1
  | reset =>
    have hkept : r.reset.kept = [] := h.ranks.clear.toList_eq
    rw [serve, hkept]
    exact List.nil_sublist _
  | next =>
    obtain ⟨found, posted, hnext, -⟩ := next?_spec env r
    rw [serve, hnext]
    exact hkeys

/-- What is retained stands in the order of use. -/
theorem kept_sublist_recent {r₀ r : Reclaimer κ} {past : List (Episode κ)} (hstart : r₀.kept = [])
    (h : Leads r₀ past r) : r.kept.keys.Sublist (recent past) := by
  induction past generalizing r with
  | nil =>
    rw [show r = r₀ from h, hstart]
    exact .slnil
  | cons e past ih =>
    obtain ⟨rfl, ⟨hsound, heq⟩, hbefore⟩ := h
    rw [recent, heq]
    exact serve_sublist hsound _ (ih hbefore) _

omit [Std.LawfulEqOrd κ] in
/-- The keys retained are those of the keys used that are still retained. -/
theorem keys_kept_eq {r : Reclaimer κ} (h : r.Sound) {past : List (Episode κ)}
    (horder : r.kept.keys.Sublist (recent past)) :
    (recent past).filter (r.retained.contains ·) = r.kept.keys := by
  have hfound := filter_mem_map_of_sublist id horder (by simpa using nodup_recent past)
  rw [List.map_id] at hfound
  refine (List.filter_congr fun k _ => ?_).trans hfound
  have hcontains : r.retained.contains k = Assoc.has k r.kept := h.ranks.contains k
  rw [hcontains]
  exact Bool.eq_iff_iff.mpr (Assoc.has_iff.trans (by simp))

end Use

/-! ## Cutting retention -/

section Cutting

variable [Std.TransOrd κ] [Std.LawfulEqOrd κ]

/-- Asking for fewer values cuts retention and sweeps. -/
theorem shrink_cut {r : Reclaimer κ} (h : r.Sound) (env : Ambient) (n : Nat) :
    ∃ retained : Recency κ Value, retained.Ranks ⟨r.kept.take n, r.softCapacity⟩ ∧
      r.shrink env n = ({ r with retained }.release (r.kept.drop n).reverse).sweep env := by
  obtain ⟨hes, hr⟩ := h.ranks.trim n
  exact ⟨_, hr, by rw [shrink_eq, hes]; rfl⟩

/-- A lower bound cuts retention at the same place, and sweeps if that takes something out. -/
theorem setCapacity_cut {r : Reclaimer κ} (h : r.Sound) (env : Ambient) {n : Nat} (hn : 0 < n)
    (hlt : n < r.retainedSize) :
    ∃ retained : Recency κ Value, retained.Ranks ⟨r.kept.take n, n⟩ ∧
      r.setCapacity env n =
        .ok (({ r with retained }.release (r.kept.drop n).reverse).sweep env) := by
  obtain ⟨retained, hresize, hr⟩ := h.ranks.resize hn
  have hcut : (r.kept.drop n).reverse ≠ [] := by
    rw [h.retainedSize_eq] at hlt
    rw [ne_eq, List.reverse_eq_nil_iff, List.drop_eq_nil_iff]
    omega
  refine ⟨retained, hr, ?_⟩
  rw [setCapacity_eq hn hresize]
  exact congrArg _ (if_neg hcut)

end Cutting

/-! ## Both together -/

variable [Std.TransOrd κ] [Std.LawfulEqOrd κ]

/-- **The two ways of giving up retention agree.** In any state that a reclaimer can come to, take a
number of values that is less than what is retained, but not zero. To ask for that many values to be
left, or to make it the bound, with the same values held: either leaves the same values retained in
the same order, the same values released under the same keys, and the same count, and posts the same
keys behind those posted before, in the order of its visit. Only the bound differs. What is retained
is what was retained under the keys used last. -/
theorem shrink_agrees_setCapacity {n₀ : Nat} (hn₀ : 0 < n₀) :
    ∃ r₀ : Reclaimer κ, ofCapacity n₀ = .ok r₀ ∧
      ∀ (requests : List (Ambient × Request κ)) (n : Nat),
        let w := (Watched.start r₀).run requests
        0 < n → n < w.now.retainedSize → ∀ (held : Value → Bool) (visit₁ visit₂ : Visit),
          let shrunk := (w.now.shrink ⟨held, visit₁⟩ n).2
          ∃ count bounded, w.now.setCapacity ⟨held, visit₂⟩ n = .ok (count, bounded) ∧
            bounded.kept = shrunk.kept ∧ bounded.released.Perm shrunk.released ∧
            (∃ posts₁ posts₂, shrunk.posted = w.now.posted ++ posts₁ ∧
              bounded.posted = w.now.posted ++ posts₂ ∧ posts₂.Perm posts₁) ∧
            bounded.reclaimed = shrunk.reclaimed ∧
            shrunk.softCapacity = w.now.softCapacity ∧ bounded.softCapacity = n ∧
            shrunk.kept = w.now.kept.take n ∧
            shrunk.kept.keys = ((recent w.past).filter (w.now.retained.contains ·)).take n := by
  have hr₀ := ofCapacity_eq (κ := κ) hn₀
  obtain ⟨hsound, -, -⟩ := ofCapacity_sound hr₀
  refine ⟨_, hr₀, fun requests n => ?_⟩
  intro w hn hlt held visit₁ visit₂ shrunk
  obtain ⟨hleads, hnow⟩ := leads_run (w := .start _) rfl hsound requests
  obtain ⟨retained₁, hranks₁, hshrink⟩ := shrink_cut hnow ⟨held, visit₁⟩ n
  obtain ⟨retained₂, hranks₂, hbound⟩ := setCapacity_cut hnow ⟨held, visit₂⟩ hn hlt
  obtain ⟨hkept, hreleased, hposted, hreclaimed, hcapacity₁, hcapacity₂⟩ := release_sweep_agrees
    (r := w.now) hranks₁ hranks₂ (w.now.kept.drop n).reverse held visit₁ visit₂
  have hshrunk : shrunk = _ := congrArg Prod.snd hshrink
  have htake : shrunk.kept = w.now.kept.take n := kept_shrink hnow ⟨held, visit₁⟩ n
  rw [← hshrunk] at hkept hreleased hposted hreclaimed hcapacity₁
  refine ⟨_, _, hbound, hkept, hreleased, hposted, hreclaimed, hcapacity₁, hcapacity₂, htake, ?_⟩
  rw [keys_kept_eq hnow (kept_sublist_recent rfl hleads), htake]
  exact List.map_take

/-- One value is released while it is held and let go before retention is given up, one is retained
under two keys and held, and one is held by nobody. Two sweeps in opposite orders find the same. -/
theorem shrink_to_one_agrees :
    let a : Value := ⟨0, "a"⟩
    let b : Value := ⟨1, "b"⟩
    let c : Value := ⟨2, "c"⟩
    let d : Value := ⟨3, "d"⟩
    let holdingB : Ambient := ⟨(· == b), .asListed⟩
    let backwards : Visit := ⟨List.reverse, List.reverse_perm⟩
    0 < 4 ∧ ∃ r₀ : Reclaimer Nat, ofCapacity 4 = .ok r₀ ∧
      let w := (Watched.start r₀).run
        ([.retain 1 a, .retain 2 b, .retain 3 c, .retain 4 a, .refresh 1 a, .retain 5 d].map
          (holdingB, ·))
      let shrunk := (w.now.shrink ⟨(· == a), .asListed⟩ 1).2
      w.now.released = [(2, b)] ∧ 0 < 1 ∧ 1 < w.now.retainedSize ∧
        shrunk.posted = [2, 3] ∧ shrunk.released = [(4, a), (1, a)] ∧
        ∃ count bounded, w.now.setCapacity ⟨(· == a), backwards⟩ 1 = .ok (count, bounded) ∧
          bounded.posted = [3, 2] ∧ bounded.released = [(1, a), (4, a)] ∧
          bounded.kept = shrunk.kept ∧ shrunk.kept.keys = [5] := by
  intro a b c d holdingB backwards
  have hn₀ : 0 < 4 := by decide
  obtain ⟨r₀, hr₀, h⟩ := shrink_agrees_setCapacity (κ := Nat) hn₀
  refine ⟨hn₀, r₀, hr₀, ?_⟩
  intro w shrunk
  have hfacts : w.now.released = [(2, b)] ∧ 1 < w.now.retainedSize ∧ shrunk.posted = [2, 3] ∧
      shrunk.released = [(4, a), (1, a)] ∧ shrunk.kept.keys = [5] := by
    cases Except.ok.inj hr₀
    exact ⟨by decide +kernel, by decide +kernel, by decide +kernel, by decide +kernel,
      by decide +kernel⟩
  obtain ⟨hreleased, hlt, hposted, hleft, hkeys⟩ := hfacts
  obtain ⟨count, bounded, hbound, hkept, -⟩ :=
    h _ 1 (by decide) hlt (· == a) .asListed backwards
  have hrun : (w.now.setCapacity ⟨(· == a), backwards⟩ 1).map
      (fun p => (p.2.posted, p.2.released)) = .ok ([3, 2], [(1, a), (4, a)]) := by
    cases Except.ok.inj hr₀
    decide +kernel
  rw [hbound] at hrun
  obtain ⟨hposted', hreleased'⟩ := Prod.mk.inj (Except.ok.inj hrun)
  exact ⟨hreleased, by decide, hlt, hposted, hleft, count, bounded, hbound, hposted', hreleased',
    hkept, hkeys⟩

end Reclaimer

end SoftTier
