import SoftTier.Proofs.Reclaimer.History

/-!
# What one request does

Whatever is asked of a reclaimer, the same things can be said of what is followed, retained, posted
and counted afterwards, in terms of what the request admits and drops. So each kind of request is
looked at once, here, and everything about runs of them is told from one structure.

- `Reclaimer.Ends`: an operation that can push values out ends with a sweep, or has pushed out
  nothing and posts nothing.
- `Episode.Regular`: what every request does.
- `Reclaimer.episode_regular`: every request of a sound reclaimer does that.
- `Reclaimer.refused_iff`, `Reclaimer.next?_spec`: what is answered when a bound is refused, and
  when a posted key is asked for.
- `Reclaimer.retain_held`, `Reclaimer.retain_room`, `Reclaimer.shrink_zero`: while all values are
  held or fit nothing is reclaimed, and once none is held, everything can be.
-/

namespace SoftTier

namespace Reclaimer

variable {κ : Type} [Ord κ]

/-- How an operation ends that can push values out of retention. -/
inductive Ends (env : Ambient) (r after : Reclaimer κ) : Prop where
  /-- Nothing is pushed out, and there is no sweep. -/
  | still (posted_eq : after.posted = r.posted) (reclaimed_eq : after.reclaimed = r.reclaimed)
      (stays : ∀ k ∈ r.kept.keys, k ∈ after.kept.keys)
  /-- Something is pushed out, and a sweep follows. -/
  | swept {r' : Reclaimer κ} (after_eq : after = (r'.sweep env).2)
      (posted_eq : r'.posted = r.posted) (reclaimed_eq : r'.reclaimed = r.reclaimed)
      (pushed : ∃ k ∈ r.kept.keys, k ∉ r'.kept.keys)

variable [DecidableEq κ]

/-! ## How each operation ends -/

section Endings

variable [Std.TransOrd κ] [Std.LawfulEqOrd κ]

/-- Retaining a value pushes one out if there is no room, and sweeps exactly then. -/
theorem retain_ends {r : Reclaimer κ} (h : r.Sound) (env : Ambient) (k : κ) (v : Value) :
    Ends env r (r.retain env k v).2 := by
  obtain ⟨hevicted, hr⟩ := h.ranks.insert k v
  rw [Ranking.insert_eq h.capacity_pos h.bounded] at hevicted hr
  dsimp only at hevicted hr
  rw [retain]
  generalize r.retained.insert k v = p at hevicted hr
  obtain ⟨evicted, retained⟩ := p
  dsimp only at hevicted hr ⊢
  have hkept : retained.toList = ((k, v) :: Assoc.erase k r.kept).take r.softCapacity :=
    hr.toList_eq
  cases evicted with
  | none =>
    -- all of the ranking fits
    have hdrop := List.head?_eq_none_iff.mp hevicted.symm
    refine .still rfl rfl fun k' hk' => ?_
    show k' ∈ Assoc.keys retained.toList
    rw [hkept, List.take_of_length_le (List.drop_eq_nil_iff.mp hdrop)]
    exact mem_keys_front hk' k v
  | some x =>
    have hx := List.mem_of_head? hevicted.symm
    refine .swept rfl rfl rfl ⟨x.1, ?_, ?_⟩
    · -- the entry in front fits, so it is not the one pushed out
      obtain ⟨n, hn⟩ := Nat.exists_eq_add_one_of_ne_zero (Nat.ne_of_gt h.capacity_pos)
      rw [hn, List.drop_succ_cons] at hx
      exact List.mem_map_of_mem (Assoc.mem_erase.mp (List.mem_of_mem_drop hx)).1
    · show x.1 ∉ Assoc.keys retained.toList
      rw [hkept]
      exact Assoc.notin_keys_take_of_mem_drop (front_nodup h k v) hx

/-- Reading a retained value pushes nothing out. -/
theorem refresh_ends {r : Reclaimer κ} (h : r.Sound) (env : Ambient) (k : κ) (v : Value) :
    Ends env r (r.refresh env k v).2 := by
  by_cases hk : k ∈ r.kept.keys
  · obtain ⟨w, hmem⟩ := Assoc.mem_keys.mp hk
    obtain ⟨retained, heq, hr⟩ := refresh_of_mem h env hmem v
    rw [heq]
    refine .still rfl rfl fun k' hk' => ?_
    show k' ∈ Assoc.keys retained.toList
    rw [hr.toList_eq]
    exact mem_keys_front hk' k w
  · rw [refresh_of_notin h env hk]
    exact retain_ends h env k v

/-- A changed bound leaves what fits, and sweeps if that is not everything. -/
theorem setCapacity_ends {r : Reclaimer κ} (h : r.Sound) {env : Ambient} {n : Nat} (hn : 0 < n)
    {p : Nat × Reclaimer κ} (hp : r.setCapacity env n = .ok p) :
    p.2.kept = r.kept.take n ∧ Ends env r p.2 := by
  obtain ⟨retained, hresize, hr⟩ := h.ranks.resize hn
  have hkept : retained.toList = r.kept.take n := hr.toList_eq
  rw [setCapacity_eq hn hresize] at hp
  cases hp
  split
  · rename_i hcut
    have hdrop : r.kept.drop n = [] := List.reverse_eq_nil_iff.mp hcut
    refine ⟨hkept, .still rfl rfl fun k hk => ?_⟩
    show k ∈ Assoc.keys retained.toList
    rwa [hkept, List.take_of_length_le (List.drop_eq_nil_iff.mp hdrop)]
  · rename_i hcut
    obtain ⟨x, hx⟩ := List.exists_mem_of_ne_nil _ hcut
    have hx' : x ∈ r.kept.drop n := List.mem_reverse.mp hx
    refine ⟨(kept_sweep ..).trans hkept, .swept rfl rfl rfl ⟨x.1, ?_, ?_⟩⟩
    · exact List.mem_map_of_mem (List.mem_of_mem_drop hx')
    · show x.1 ∉ Assoc.keys retained.toList
      rw [hkept]
      exact Assoc.notin_keys_take_of_mem_drop h.kept_nodup hx'

theorem kept_shrink {r : Reclaimer κ} (h : r.Sound) (env : Ambient) (n : Nat) :
    (r.shrink env n).2.kept = r.kept.take n := by
  obtain ⟨-, hr⟩ := h.ranks.trim n
  rw [shrink_eq, kept_sweep]
  exact hr.toList_eq

end Endings

/-- The first posted key without a live value is handed out; those before it are passed over. -/
theorem next?_spec [Std.TransOrd κ] (env : Ambient) (r : Reclaimer κ) :
    ∃ found posted, r.next? env = (found, { r with posted }) ∧
      r.posted = r.posted.takeWhile (r.hasLive env) ++ found.toList ++ posted ∧
      (∀ k, found = some k → r.hasLive env k = false) ∧ (found = none → posted = []) := by
  have hcut := List.takeWhile_append_dropWhile (p := (r.hasLive env ·)) (l := r.posted)
  have hhead := List.head?_dropWhile_not (r.hasLive env ·) r.posted
  rw [next?]
  generalize r.posted.dropWhile (r.hasLive env ·) = rest at hcut hhead
  cases rest with
  | nil =>
    refine ⟨none, [], rfl, ?_, fun k hk => absurd hk (by simp), fun _ => rfl⟩
    rw [Option.toList_none, List.append_nil]
    exact hcut.symm
  | cons k posted =>
    refine ⟨some k, posted, rfl, ?_, fun k' hk' => ?_, fun h => absurd h (by simp)⟩
    · rw [Option.toList_some, List.append_assoc, List.singleton_append]
      exact hcut.symm
    · exact Option.some.inj hk' ▸ hhead

/-! ## What is posted and counted -/

/-- What was posted stands behind what was posted before, and the count follows. -/
structure Posting (e : Episode κ) : Prop where
  grows : ∃ dead, e.after.posted = e.before.posted ++ dead ∧
    e.after.reclaimed = e.before.reclaimed + dead.length.toUInt64
  still : e.sweeps = false → e.after.posted = e.before.posted
  swept : e.sweeps = true → ∀ x ∈ e.after.released, e.after.alive e.env x.2 = true

theorem Posting.of_still {e : Episode κ} (hposted : e.after.posted = e.before.posted)
    (hreclaimed : e.after.reclaimed = e.before.reclaimed) (hsweeps : e.sweeps = false) :
    Posting e where
  grows := ⟨[], hposted.trans (List.append_nil _).symm, hreclaimed.trans (UInt64.add_zero _).symm⟩
  still _ := hposted
  swept h := absurd (hsweeps.symm.trans h) (by simp)

theorem Posting.of_sweep {e : Episode κ} {r : Reclaimer κ} (hafter : e.after = (r.sweep e.env).2)
    (hposted : r.posted = e.before.posted) (hreclaimed : r.reclaimed = e.before.reclaimed)
    (hsweeps : e.sweeps = true) : Posting e where
  grows := by
    rw [hafter, sweep_eq, ← hposted, ← hreclaimed]
    refine ⟨(r.dying e.env).keys, rfl, ?_⟩
    rw [Assoc.keys, List.length_map]
  still h := absurd (hsweeps.symm.trans h) (by simp)
  swept _ x hx := by
    rw [hafter] at hx ⊢
    exact alive_of_mem_released_sweep hx

/-- Where every key that was retained and is not dropped stays so, nothing is swept. -/
theorem sweeps_eq_false {e : Episode κ} (hsweeps : e.sweeps = !e.pushed.isEmpty)
    (hstays : ∀ k ∈ e.before.kept.keys, e.drops k = false → k ∈ e.after.kept.keys) :
    e.sweeps = false := by
  rw [hsweeps, Bool.not_eq_false', List.isEmpty_iff]
  refine List.eq_nil_iff_forall_not_mem.mpr fun x hx => ?_
  obtain ⟨hkept, hout, hdrops⟩ := Episode.mem_pushed.mp hx
  exact hout (hstays x.1 (Assoc.mem_keys_of_mem hkept) hdrops)

/-- A request that drops nothing and can push values out. -/
theorem Posting.of_ends {e : Episode κ} (h : Ends e.env e.before e.after)
    (hsweeps : e.sweeps = !e.pushed.isEmpty) (hdrops : ∀ k, e.drops k = false) : Posting e := by
  cases h with
  | still hposted hreclaimed hstays =>
    exact .of_still hposted hreclaimed (sweeps_eq_false hsweeps fun k hk _ => hstays k hk)
  | swept hafter hposted hreclaimed hpushed =>
    obtain ⟨k, hk, hout⟩ := hpushed
    obtain ⟨v, hkept⟩ := Assoc.mem_keys.mp hk
    have hmem : (k, v) ∈ e.pushed := by
      refine Episode.mem_pushed.mpr ⟨hkept, ?_, hdrops k⟩
      rwa [hafter, kept_sweep]
    exact .of_sweep hafter hposted hreclaimed (Episode.sweeps_of_mem_pushed hmem)

/-! ## What every request does -/

variable [Std.TransOrd κ]

/-- What every request does. A key is posted for a value that was to be followed and is dead; any
other value that was to be followed is. What is admitted is retained, nothing else comes into
retention, and after a sweep nothing dead is left. -/
structure Episode.Regular (e : Episode κ) : Prop where
  sound_before : e.before.Sound
  sound : e.after.Sound
  queue_eq : e.before.posted ++ e.posts = e.takes ++ e.after.posted
  reclaimed_eq : e.after.reclaimed = e.before.reclaimed + e.posts.length.toUInt64
  posts_nodup : e.posts.Nodup
  sweeps_of_posts : ∀ k ∈ e.posts, e.sweeps = true
  gone : ∀ k ∈ e.posts, e.after.tracked k = none ∧
    ∃ v, e.wanted k = some v ∧ e.after.alive e.env v = false
  stays : ∀ k, k ∉ e.posts → e.after.tracked k = e.wanted k
  retains : ∀ k v, e.admits k = some v → (k, v) ∈ e.after.kept
  kept_before : ∀ k ∈ e.after.kept.keys, e.admits k = none → k ∈ e.before.kept.keys
  swept : e.sweeps = true → ∀ x ∈ e.after.released, e.after.alive e.env x.2 = true

namespace Episode.Regular

variable {e : Episode κ}

/-- What is posted was followed before, and the request says nothing about its key. -/
theorem of_mem_posts (h : e.Regular) {k : κ} (hk : k ∈ e.posts) :
    e.admits k = none ∧ e.drops k = false ∧
      ∃ v, e.before.tracked k = some v ∧ e.after.alive e.env v = false := by
  obtain ⟨hgone, v, hwanted, hdead⟩ := h.gone k hk
  have hadmits : e.admits k = none := by
    refine Option.eq_none_iff_forall_ne_some.mpr fun w hw => ?_
    have htracked := tracked_of_mem_kept h.sound (h.retains k w hw)
    exact absurd (hgone.symm.trans htracked) (by simp)
  rw [wanted, hadmits, Option.none_or] at hwanted
  split at hwanted
  · exact absurd hwanted (by simp)
  · rename_i hdrops
    exact ⟨hadmits, by simpa using hdrops, v, hwanted, hdead⟩

/-- What no request says anything about, and is not posted, is followed as before. -/
theorem tracked_eq (h : e.Regular) {k : κ} (hadmits : e.admits k = none)
    (hdrops : e.drops k = false) (hk : k ∉ e.posts) : e.after.tracked k = e.before.tracked k := by
  rw [h.stays k hk, wanted, hadmits, hdrops]
  rfl

/-- While all values that are followed are held, nothing is posted. -/
theorem posts_eq_nil (h : e.Regular)
    (hheld : ∀ k v, e.before.tracked k = some v → e.env.held v = true) : e.posts = [] := by
  refine List.eq_nil_iff_forall_not_mem.mpr fun k hk => ?_
  obtain ⟨-, -, v, hv, hdead⟩ := h.of_mem_posts hk
  rw [alive, hheld k v hv, Bool.true_or] at hdead
  exact absurd hdead (by simp)

/-- If nothing is admitted or dropped and nothing is followed afterwards, all keys that were
followed are posted. -/
theorem posts_perm (h : e.Regular)
    (hadmits : ∀ k, e.admits k = none) (hdrops : ∀ k, e.drops k = false)
    (hafter : ∀ k, e.after.tracked k = none) {followed : Assoc κ Value}
    (hnodup : followed.keys.Nodup) (htracked : ∀ k, e.before.tracked k = Assoc.get? k followed) :
    e.posts.Perm followed.keys := by
  refine (List.perm_ext_iff_of_nodup h.posts_nodup hnodup).mpr fun k => ?_
  constructor
  · intro hk
    obtain ⟨-, -, v, hv, -⟩ := h.of_mem_posts hk
    exact Assoc.mem_keys_of_mem (Assoc.mem_of_get?_eq_some ((htracked k).symm.trans hv))
  · intro hk
    by_contra hposts
    have hsame := h.tracked_eq (hadmits k) (hdrops k) hposts
    rw [hafter, htracked] at hsame
    exact Assoc.get?_eq_none_iff.mp hsame.symm hk

end Episode.Regular

/-! ## Each request -/

namespace Episode.Regular

variable {e : Episode κ}

/-- A request that takes no key off. -/
theorem of_settled {keepable : Value → Prop} {dead : List κ}
    (h : e.before.Sound)
    (hs : Settled e.env e.before.posted (e.wanted ·) keepable e.after dead) (hp : Posting e)
    (hposts : e.posts = e.after.posted.drop e.before.posted.length) (htakes : e.takes = [])
    (hretains : ∀ k v, e.admits k = some v → (k, v) ∈ e.after.kept)
    (hkept : ∀ k ∈ e.after.kept.keys, e.admits k = none → k ∈ e.before.kept.keys) :
    e.Regular := by
  have heq : e.posts = dead := by rw [hposts, hs.posted_eq, List.drop_left]
  refine { sound_before := h, sound := hs.sound, queue_eq := ?_, reclaimed_eq := ?_,
           posts_nodup := heq ▸ hs.nodup, sweeps_of_posts := fun k hk => ?_,
           gone := fun k hk => hs.gone k (heq ▸ hk), stays := fun k hk => hs.stays k (heq ▸ hk),
           retains := hretains, kept_before := hkept, swept := hp.swept }
  · rw [htakes, heq, hs.posted_eq, List.nil_append]
  · obtain ⟨dead', hposted, hreclaimed⟩ := hp.grows
    rw [hs.posted_eq, List.append_cancel_left_eq] at hposted
    rw [heq, hposted, hreclaimed]
  · cases hsweeps : e.sweeps with
    | true => rfl
    | false =>
      rw [hposts, hp.still hsweeps, List.drop_length] at hk
      exact absurd hk List.not_mem_nil

/-- A request that admits and drops nothing. -/
theorem of_kept {keepable : Value → Prop} {dead : List κ} (h : e.before.Sound)
    (hs : Settled e.env e.before.posted e.before.tracked keepable e.after dead) (hp : Posting e)
    (hposts : e.posts = e.after.posted.drop e.before.posted.length) (htakes : e.takes = [])
    (hadmits : ∀ k, e.admits k = none) (hdrops : ∀ k, e.drops k = false)
    (hkept : ∀ k ∈ e.after.kept.keys, k ∈ e.before.kept.keys) : e.Regular := by
  have hwanted : e.before.tracked = (e.wanted ·) := by
    funext k
    rw [wanted, hadmits, hdrops]
    rfl
  refine .of_settled h (hwanted ▸ hs) hp hposts htakes (fun k v hv => ?_) fun k hk _ => hkept k hk
  exact absurd ((hadmits k).symm.trans hv) (by simp)

/-- A request that changes nothing. -/
theorem of_same (h : e.before.Sound) (hafter : e.after = e.before)
    (hsweeps : e.sweeps = !e.pushed.isEmpty)
    (hposts : e.posts = e.after.posted.drop e.before.posted.length) (htakes : e.takes = [])
    (hadmits : ∀ k, e.admits k = none) (hdrops : ∀ k, e.drops k = false) : e.Regular := by
  have hs : Settled e.env e.before.posted e.before.tracked (keeps e.before · = true) e.after
      [] := by
    rw [hafter]
    exact .unswept h rfl (fun _ => rfl) fun _ hv => hv
  have hkept : ∀ k, k ∈ e.after.kept.keys ↔ k ∈ e.before.kept.keys := fun k => by rw [hafter]
  refine .of_kept h hs (.of_still (by rw [hafter]) (by rw [hafter]) ?_) hposts htakes hadmits
    hdrops fun k => (hkept k).mp
  exact sweeps_eq_false hsweeps fun k hk _ => (hkept k).mpr hk

variable [Std.LawfulEqOrd κ]

/-- A request that admits a value. -/
theorem of_retain (h : e.before.Sound) (k : κ) (v : Value)
    (hafter : e.after = (e.before.retain e.env k v).2) (hsweeps : e.sweeps = !e.pushed.isEmpty)
    (hposts : e.posts = e.after.posted.drop e.before.posted.length) (htakes : e.takes = [])
    (hadmits : ∀ k', e.admits k' = if k = k' then some v else none)
    (hdrops : ∀ k', e.drops k' = false) : e.Regular := by
  obtain ⟨hmem, dead, hs⟩ := retain_settled h e.env k v
  have hends := retain_ends h e.env k v
  have hkept := kept_retain h e.env k v
  rw [← hafter] at hmem hs hends hkept
  have hwanted : Function.update e.before.tracked k (some v) = (e.wanted ·) := by
    funext k'
    rw [Function.update_apply, wanted, hadmits, hdrops]
    by_cases hk : k = k'
    · rw [if_pos hk.symm, if_pos hk]
      rfl
    · rw [if_neg (Ne.symm hk), if_neg hk]
      rfl
  refine .of_settled h (hwanted ▸ hs) (.of_ends hends hsweeps hdrops) hposts htakes
    (fun k' w hw => ?_) fun k' hk' hnone => ?_
  · rw [hadmits] at hw
    split at hw
    · rename_i hk
      cases hw
      exact hk ▸ hmem
    · exact absurd hw (by simp)
  · have hne : k' ≠ k := by
      rintro rfl
      rw [hadmits, if_pos rfl] at hnone
      exact absurd hnone (by simp)
    obtain ⟨w, hw⟩ := Assoc.mem_keys.mp hk'
    rw [hkept] at hw
    rcases List.mem_cons.mp (List.mem_of_mem_take hw) with heq | hw
    · exact absurd (Prod.mk.inj heq).1 hne
    · exact Assoc.mem_keys_of_mem (Assoc.mem_erase.mp hw).1

/-- A request that drops a key. -/
theorem of_forget (h : e.before.Sound) (k : κ) (hafter : e.after = e.before.forget k)
    (hsweeps : e.sweeps = !e.pushed.isEmpty)
    (hposts : e.posts = e.after.posted.drop e.before.posted.length) (htakes : e.takes = [])
    (hadmits : ∀ k', e.admits k' = none) (hdrops : ∀ k', e.drops k' = (k = k' : Bool)) :
    e.Regular := by
  have hs := forget_settled h e.env k
  have hkept := kept_forget h k
  rw [← hafter] at hs hkept
  have hwanted : Function.update e.before.tracked k none = (e.wanted ·) := by
    funext k'
    rw [Function.update_apply, wanted, hadmits, hdrops, Option.none_or]
    by_cases hk : k = k'
    · simp [hk]
    · simp [hk, Ne.symm hk]
  have hmem : ∀ k', k' ∈ e.after.kept.keys ↔ k' ∈ e.before.kept.keys ∧ k' ≠ k := fun k' => by
    rw [hkept, Assoc.mem_keys_erase]
  refine .of_settled h (hwanted ▸ hs) (.of_still ?_ ?_ ?_) hposts htakes (fun k' v hv => ?_)
    fun k' hk' _ => ((hmem k').mp hk').1
  · rw [hafter]
    rfl
  · rw [hafter]
    rfl
  · refine sweeps_eq_false hsweeps fun k' hk' hne => (hmem k').mpr ⟨hk', fun heq => ?_⟩
    rw [hdrops, heq] at hne
    exact absurd hne (by simp)
  · exact absurd ((hadmits k').symm.trans hv) (by simp)

end Episode.Regular

variable {r : Reclaimer κ}

theorem reset_regular (h : r.Sound) (env : Ambient) : (r.episode env .reset).Regular := by
  have hs := reset_settled h env
  refine .of_settled h (e := r.episode env .reset) hs (.of_still rfl rfl ?_) rfl rfl
    (fun k v hv => absurd hv (by simp [Episode.admits, episode])) fun k hk _ => ?_
  · exact sweeps_eq_false rfl fun k hk hdrops => absurd hdrops (by simp [Episode.drops, episode])
  · have hkept : r.reset.kept = [] := h.ranks.clear.toList_eq
    have hk' : k ∈ r.reset.kept.keys := hk
    rw [hkept] at hk'
    exact absurd hk' List.not_mem_nil

/-- Taking posted keys off changes nothing else. -/
theorem next_regular (h : r.Sound) (env : Ambient) : (r.episode env .next).Regular := by
  obtain ⟨found, posted, hnext, hposted, -, -⟩ := next?_spec env r
  have hafter : (r.episode env .next).after = { r with posted } := congrArg Prod.snd hnext
  have hhanded : (r.episode env .next).handed = found.toList := by
    rw [Episode.handed, episode, serve, hnext]
  have hkept : (r.episode env .next).after.kept = r.kept := by
    rw [hafter]
    rfl
  have hsweeps : (r.episode env .next).sweeps = false :=
    sweeps_eq_false rfl fun k hk _ => hkept ▸ hk
  refine { sound_before := h, sound := hafter ▸ h.reposted posted, queue_eq := ?_,
           reclaimed_eq := ?_, posts_nodup := List.nodup_nil,
           sweeps_of_posts := fun k hk => absurd hk List.not_mem_nil,
           gone := fun k hk => absurd hk List.not_mem_nil, stays := fun k _ => ?_,
           retains := fun k v hv => absurd hv (by simp [Episode.admits, episode]),
           kept_before := fun k hk _ => hkept ▸ hk,
           swept := fun hs => absurd (hsweeps.symm.trans hs) (by simp) }
  · rw [hafter, Episode.takes, hhanded]
    exact (List.append_nil _).trans hposted
  · rw [hafter]
    exact (UInt64.add_zero _).symm
  · rw [hafter]
    rfl

variable [Std.LawfulEqOrd κ]

theorem refresh_regular (h : r.Sound) (env : Ambient) (k : κ) (v : Value) :
    (r.episode env (.refresh k v)).Regular := by
  have hcontains : r.retained.contains k = Assoc.has k r.kept := h.ranks.contains k
  by_cases hk : k ∈ r.kept.keys
  · obtain ⟨w, hmem⟩ := Assoc.mem_keys.mp hk
    obtain ⟨retained, heq, hr⟩ := refresh_of_mem h env hmem v
    obtain ⟨-, hs⟩ := touch_settled h env hmem hr
    have hafter : (r.episode env (.refresh k v)).after = { r with retained } :=
      congrArg Prod.snd heq
    rw [← hafter] at hs
    refine .of_kept h hs (.of_ends (refresh_ends h env k v) rfl fun _ => rfl) rfl rfl (fun k' => ?_)
      (fun _ => rfl) fun k' hk' => ?_
    · refine if_neg ?_
      rintro ⟨-, hnew⟩
      exact absurd ((hcontains.trans (Assoc.has_iff.mpr hk)).symm.trans hnew) (by simp)
    · have hkept : ({ r with retained } : Reclaimer κ).kept = (k, w) :: Assoc.erase k r.kept :=
        hr.toList_eq
      rw [hafter, hkept] at hk'
      rcases List.mem_cons.mp hk' with heq | hk'
      · exact heq ▸ hk
      · exact (Assoc.mem_keys_erase.mp hk').1
  · refine .of_retain h k v (congrArg Prod.snd (refresh_of_notin h env hk v)) rfl rfl rfl
      (fun k' => ?_) fun _ => rfl
    show (if k = k' ∧ r.retained.contains k = false then some v else none) = _
    rw [hcontains, Assoc.has_eq_false_iff.mpr hk]
    simp

theorem setCapacity_regular (h : r.Sound) (env : Ambient) (n : Nat) :
    (r.episode env (.setCapacity n)).Regular := by
  rcases Nat.eq_zero_or_pos n with rfl | hn
  · exact .of_same h rfl rfl rfl rfl (fun _ => rfl) fun _ => rfl
  · obtain ⟨p, dead, hp, hs⟩ := setCapacity_settled h env hn
    obtain ⟨hkept, hends⟩ := setCapacity_ends h hn hp
    have hserve : r.serve env (.setCapacity n) = (.done, p.2) := by rw [serve, hp]
    have hafter : (r.episode env (.setCapacity n)).after = p.2 := congrArg Prod.snd hserve
    have hhanded : (r.episode env (.setCapacity n)).handed = [] := by
      rw [Episode.handed, episode, hserve]
    rw [← hafter] at hs hends hkept
    refine .of_kept h hs (.of_ends hends rfl fun _ => rfl) rfl hhanded (fun _ => rfl) (fun _ => rfl)
      fun k hk => ?_
    rw [hkept] at hk
    exact List.Sublist.subset ((List.take_sublist ..).map _) hk

theorem shrink_regular (h : r.Sound) (env : Ambient) (n : Nat) :
    (r.episode env (.shrink n)).Regular := by
  obtain ⟨dead, hs⟩ := shrink_settled h env n
  have hafter := congrArg Prod.snd (shrink_eq env n r)
  refine .of_kept h hs (.of_sweep hafter rfl rfl rfl) rfl rfl (fun _ => rfl) (fun _ => rfl)
    fun k hk => ?_
  have hkept : (r.episode env (.shrink n)).after.kept = r.kept.take n := kept_shrink h env n
  rw [hkept] at hk
  exact List.Sublist.subset ((List.take_sublist ..).map _) hk

/-- Only a bound of zero is refused, and that as a matter of configuration. -/
theorem refused_iff (h : r.Sound) {env : Ambient} {request : Request κ} {fault : Fault} :
    (r.serve env request).1 = .refused fault ↔
      request = .setCapacity 0 ∧ fault = .failure .softCapacityZero := by
  constructor
  · intro hreply
    cases request with
    | setCapacity n =>
      rcases Nat.eq_zero_or_pos n with rfl | hn
      · rw [serve, setCapacity_zero] at hreply
        cases hreply
        exact ⟨rfl, rfl⟩
      · obtain ⟨p, -, hp, -⟩ := setCapacity_settled h env hn
        rw [serve, hp] at hreply
        exact absurd hreply (by simp)
    | _ => exact absurd hreply (by simp [serve])
  · rintro ⟨rfl, rfl⟩
    rfl

/-- Every request does what is said of all of them. -/
theorem episode_regular (h : r.Sound) (env : Ambient) (request : Request κ) :
    (r.episode env request).Regular := by
  cases request with
  | retain k v => exact .of_retain h k v rfl rfl rfl rfl (fun _ => rfl) fun _ => rfl
  | refresh k v => exact refresh_regular h env k v
  | forget k => exact .of_forget h k rfl rfl rfl rfl (fun _ => rfl) fun _ => rfl
  | miss k => exact .of_forget h k rfl rfl rfl rfl (fun _ => rfl) fun _ => rfl
  | sweep =>
    have hs := sweep_settled env h rfl (fun _ => rfl) fun _ hv => hv
    have hkept : (r.episode env .sweep).after.kept = r.kept := kept_sweep env r
    exact .of_kept h hs (.of_sweep rfl rfl rfl rfl) rfl rfl (fun _ => rfl) (fun _ => rfl)
      fun k hk => hkept ▸ hk
  | shrink n => exact shrink_regular h env n
  | setCapacity n => exact setCapacity_regular h env n
  | reset => exact reset_regular h env
  | next => exact next_regular h env

/-! ## Values that are held, and values that nobody holds -/

variable {env : Ambient}

/-- Retaining a value without posting anything only makes it followed. -/
theorem retain_of_posts_eq_nil (h : r.Sound) {k : κ} {v : Value}
    (hposts : (r.episode env (.retain k v)).posts = []) :
    (r.retain env k v).2.posted = r.posted ∧ (r.retain env k v).2.reclaimed = r.reclaimed ∧
      (r.retain env k v).2.tracked = Function.update r.tracked k (some v) := by
  have hregular := episode_regular h env (.retain k v)
  have hqueue := hregular.queue_eq
  have hreclaimed := hregular.reclaimed_eq
  rw [hposts] at hqueue hreclaimed
  refine ⟨hqueue.symm.trans (List.append_nil _), hreclaimed.trans (UInt64.add_zero _), ?_⟩
  funext k'
  refine (hregular.stays k' (hposts ▸ List.not_mem_nil)).trans ?_
  rw [Function.update_apply]
  show (if k = k' then some v else none).or (r.tracked k') = _
  by_cases hk : k = k'
  · rw [if_pos hk, if_pos hk.symm]
    rfl
  · rw [if_neg hk, if_neg (Ne.symm hk)]
    rfl

/-- While everything followed is held, retaining a value reclaims nothing, whatever is pushed
out. -/
theorem retain_held (h : r.Sound) (hheld : ∀ k v, r.tracked k = some v → env.held v = true) (k : κ)
    (v : Value) : (r.retain env k v).2.reclaimed = r.reclaimed ∧
      (r.retain env k v).2.tracked = Function.update r.tracked k (some v) :=
  (retain_of_posts_eq_nil h ((episode_regular h env (.retain k v)).posts_eq_nil hheld)).2

/-- While there is room, retaining a value pushes nothing out and posts nothing. -/
theorem retain_room (h : r.Sound) (env : Ambient) {k : κ} (hk : k ∉ r.kept.keys)
    (hroom : r.kept.length < r.softCapacity) (v : Value) :
    (r.retain env k v).2.kept = (k, v) :: r.kept ∧ (r.retain env k v).2.posted = r.posted ∧
      (r.retain env k v).2.tracked = Function.update r.tracked k (some v) := by
  have hkept : (r.retain env k v).2.kept = (k, v) :: r.kept := by
    rw [kept_retain h, Assoc.erase_eq_self hk]
    exact List.take_of_length_le hroom
  have hstays : ∀ k' ∈ r.kept.keys, k' ∈ (r.retain env k v).2.kept.keys := fun k' hk' =>
    hkept ▸ List.mem_cons_of_mem k hk'
  have hsweeps : (r.episode env (.retain k v)).sweeps = false :=
    sweeps_eq_false rfl fun k' hk' _ => hstays k' hk'
  have hposts : (r.episode env (.retain k v)).posts = [] := by
    refine List.eq_nil_iff_forall_not_mem.mpr fun k' hk' => ?_
    exact absurd (hsweeps.symm.trans ((episode_regular h env _).sweeps_of_posts k' hk')) (by simp)
  obtain ⟨hposted, -, htracked⟩ := retain_of_posts_eq_nil h hposts
  exact ⟨hkept, hposted, htracked⟩

/-- Once nothing is held, giving up all retention reclaims everything followed. -/
theorem shrink_zero (h : r.Sound) (hheld : ∀ v, env.held v = false) {followed : Assoc κ Value}
    (hnodup : followed.keys.Nodup) (htracked : ∀ k, r.tracked k = Assoc.get? k followed) :
    (r.shrink env 0).2.reclaimed = r.reclaimed + .ofNat followed.length ∧
      ∀ k, (r.shrink env 0).2.tracked k = none := by
  have hregular := episode_regular h env (.shrink 0)
  have hsound : (r.shrink env 0).2.Sound := hregular.sound
  have hkept : (r.shrink env 0).2.kept = [] := (kept_shrink h env 0).trans (List.take_zero ..)
  have hnone : ∀ k, (r.shrink env 0).2.tracked k = none := by
    intro k
    refine Option.eq_none_iff_forall_ne_some.mpr fun v hv => ?_
    -- nothing is retained any more, and a value left by the sweep would have to be alive
    rcases (tracked_eq_some_iff hsound).mp hv with hmem | hmem
    · rw [hkept] at hmem
      exact absurd hmem List.not_mem_nil
    · have halive : (r.shrink env 0).2.alive env v = true := hregular.swept rfl _ hmem
      rw [alive, hheld, Bool.false_or] at halive
      obtain ⟨k', hmem'⟩ := hsound.keeps_iff.mp halive
      rw [hkept] at hmem'
      exact absurd hmem' List.not_mem_nil
  refine ⟨hregular.reclaimed_eq.trans (congrArg (r.reclaimed + .ofNat ·) ?_), hnone⟩
  have hperm := hregular.posts_perm (fun _ => rfl) (fun _ => rfl) hnone hnodup htracked
  rw [hperm.length_eq, Assoc.keys, List.length_map]

end Reclaimer

end SoftTier
