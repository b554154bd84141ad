import SoftTier.Proofs.Reclaimer.Episodes

/-!
# Which keys are posted, and what becomes of them

Keys are posted for admissions: each posting is for the value admitted last for its key, which was
pushed out of retention, has died, and was not dropped in between. And nothing else is missing: a
sweep posts every key of which that can be said and which was not posted for it already. What is
posted stands in a queue and is taken off in that order, either handed out or passed over.

The record carries the proof. What is followed under a key, and whether it is still retained, is
told by the episodes since it was admitted, so both ends of the claim are read off the state when
the sweep is made.

- `Reclaimer.Leads`: a record leads from one reclaimer to another.
- `Reclaimer.Admitted`: what was admitted for a key and is neither dropped nor posted since.
- `Leads.tracked_iff`, `Leads.kept_iff`: what is followed and what is retained, by the record.
- `Leads.mem_posts_iff`: which keys a request posts.
- `Leads.queue_eq`: what was posted is what was taken off and what is still posted.
- `Reclaimer.postings_exact`: all of this for any requests, whoever holds values meanwhile.
-/

namespace SoftTier

namespace Reclaimer

variable {κ : Type} [DecidableEq κ] [Ord κ] [Std.TransOrd κ]

/-- The episode is that of a request to a sound reclaimer. -/
structure Episode.Served (e : Episode κ) : Prop where
  sound_before : e.before.Sound
  eq_episode : e = e.before.episode e.env e.request

/-- The episodes, the latest first, lead from `r₀` to `r`. -/
def Leads (r₀ : Reclaimer κ) : List (Episode κ) → Reclaimer κ → Prop
  | [], r => r = r₀
  | e :: past, r => r = e.after ∧ e.Served ∧ Leads r₀ past e.before

/-- In the episodes `since`, which are the latest of the record, nothing was done about the value
`v` that was admitted for a key before them: its key was not dropped, admitted again or posted. -/
inductive Admitted (k : κ) (v : Value) : (since past : List (Episode κ)) → Prop where
  | now {e : Episode κ} {past : List (Episode κ)} (hadmits : e.admits k = some v) :
      Admitted k v [] (e :: past)
  | after {e : Episode κ} {since past : List (Episode κ)} (hadmits : e.admits k = none)
      (hdrops : e.drops k = false) (hposts : k ∉ e.posts) (h : Admitted k v since past) :
      Admitted k v (e :: since) (e :: past)

/-- An admission is found in the record, right before the episodes since then. -/
theorem Admitted.split {k : κ} {v : Value} {since past : List (Episode κ)}
    (h : Admitted k v since past) :
    ∃ a old, past = since ++ a :: old ∧ a.admits k = some v ∧ ∀ e ∈ since, k ∉ e.posts := by
  induction h with
  | @now e past hadmits => exact ⟨e, past, rfl, hadmits, fun x hx => absurd hx List.not_mem_nil⟩
  | @after e since past _ _ hposts _ ih =>
    obtain ⟨a, old, rfl, hadmits, hunposted⟩ := ih
    exact ⟨a, old, rfl, hadmits, List.forall_mem_cons.mpr ⟨hposts, hunposted⟩⟩

/-- Of an admission that stands, the latest episode either is the one or leaves the key alone. -/
theorem exists_admitted_cons_iff {k : κ} {v : Value} {e : Episode κ} {past : List (Episode κ)} :
    (∃ since, Admitted k v since (e :: past)) ↔ e.admits k = some v ∨
      e.admits k = none ∧ e.drops k = false ∧ k ∉ e.posts ∧ ∃ since, Admitted k v since past := by
  constructor
  · rintro ⟨since, hs⟩
    cases hs with
    | now hadmits => exact .inl hadmits
    | after hadmits hdrops hposts hs => exact .inr ⟨hadmits, hdrops, hposts, _, hs⟩
  · rintro (hadmits | ⟨hadmits, hdrops, hposts, since, hs⟩)
    · exact ⟨[], .now hadmits⟩
    · exact ⟨e :: since, .after hadmits hdrops hposts hs⟩

/-- A request for a posted key passes over the keys with a live value. -/
theorem Episode.Served.next {e : Episode κ} (h : e.Served) (hnext : e.request = .next) :
    ∃ found, e.reply = .key found ∧
      e.before.posted = e.skipped ++ found.toList ++ e.after.posted ∧
      (∀ k ∈ e.skipped, e.before.hasLive e.env k = true) ∧
      (∀ k, found = some k → e.before.hasLive e.env k = false) ∧
      (found = none → e.after.posted = []) := by
  obtain ⟨request, env, before, reply, after⟩ := e
  subst hnext
  obtain ⟨-, heq⟩ := h
  obtain ⟨found, posted, hserve, hposted, hdead, hnone⟩ := next?_spec env before
  rw [episode, serve, hserve] at heq
  cases heq
  exact ⟨found, rfl, hposted, List.all_eq_true.mp List.all_takeWhile, hdead, hnone⟩

/-- Any other request takes nothing off. -/
theorem Episode.Served.takes_eq_nil {e : Episode κ} (h : e.Served) (hnext : e.request ≠ .next) :
    e.takes = [] := by
  obtain ⟨request, env, before, reply, after⟩ := e
  obtain ⟨-, heq⟩ := h
  rw [heq]
  cases request with
  | next => exact absurd rfl hnext
  | setCapacity n =>
    show [] ++ Episode.handed _ = []
    rw [Episode.handed, episode, serve]
    split
    · rename_i hreply
      split at hreply
      · exact absurd hreply (by simp)
      · exact absurd hreply (by simp)
    · rfl
  | _ => rfl

theorem Leads.split {r₀ r : Reclaimer κ} {later earlier : List (Episode κ)} {e : Episode κ}
    (h : Leads r₀ (later ++ e :: earlier) r) : e.Served ∧ Leads r₀ earlier e.before := by
  induction later generalizing r with
  | nil => exact h.2
  | cons x later ih => exact ih h.2.2

variable [Std.LawfulEqOrd κ]

theorem Episode.Served.regular {e : Episode κ} (h : e.Served) : e.Regular :=
  h.eq_episode ▸ episode_regular h.sound_before e.env e.request

namespace Leads

variable {r₀ r : Reclaimer κ} {past : List (Episode κ)}

/-! ## What is followed and what is retained -/

/-- A value is followed exactly while its admission is neither dropped nor posted. -/
theorem tracked_iff (hstart : ∀ k, r₀.tracked k = none) (h : Leads r₀ past r) {k : κ} {v : Value} :
    r.tracked k = some v ↔ ∃ since, Admitted k v since past := by
  -- along the record; an episode decides what is followed only if it admits, posts or drops the key
  induction past generalizing r with
  | nil =>
    rw [show r = r₀ from h, hstart]
    constructor
    · intro hv
      exact absurd hv (by simp)
    · rintro ⟨since, hs⟩
      cases hs
  | cons e past ih =>
    obtain ⟨rfl, hserved, hbefore⟩ := h
    have he := hserved.regular
    rw [exists_admitted_cons_iff]
    cases hadmits : e.admits k with
    | some w =>
      rw [tracked_of_mem_kept he.sound (he.retains k w hadmits)]
      simp
    | none =>
      by_cases hposts : k ∈ e.posts
      · rw [(he.gone k hposts).1]
        simp [hposts]
      · rw [he.stays k hposts, Episode.wanted, hadmits, Option.none_or, ← ih hbefore]
        cases e.drops k with
        | true => simp
        | false => simp [hposts]

/-- What was admitted is retained until it is pushed out. -/
theorem kept_iff (hstart : ∀ k, r₀.tracked k = none) (h : Leads r₀ past r) {k : κ} {v : Value}
    {since : List (Episode κ)} (hs : Admitted k v since past) :
    (k, v) ∈ r.kept ↔ ∀ e ∈ since, (k, v) ∉ e.pushed := by
  -- along the episodes since the admission, through which the value is followed all the time
  induction hs generalizing r with
  | @now e past hadmits =>
    obtain ⟨rfl, hserved, -⟩ := h
    exact ⟨fun _ e he => absurd he List.not_mem_nil, fun _ => hserved.regular.retains k v hadmits⟩
  | @after e since past hadmits hdrops hposts hs ih =>
    obtain ⟨rfl, hserved, hbefore⟩ := h
    have he := hserved.regular
    have htracked : e.after.tracked k = some v := by
      rw [he.tracked_eq hadmits hdrops hposts]
      exact (tracked_iff hstart hbefore).mpr ⟨since, hs⟩
    rw [List.forall_mem_cons, ← ih hbefore, Episode.mem_pushed]
    constructor
    · intro hkept
      have hk := Assoc.mem_keys_of_mem hkept
      obtain ⟨w, hw⟩ := Assoc.mem_keys.mp (he.kept_before k hk hadmits)
      have hbefore' := tracked_of_mem_kept he.sound_before hw
      rw [← he.tracked_eq hadmits hdrops hposts, htracked] at hbefore'
      exact ⟨fun hmem => hmem.2.1 hk, Option.some.inj hbefore' ▸ hw⟩
    · rintro ⟨hstays, hkept⟩
      have hk : k ∈ e.after.kept.keys := by
        by_contra hout
        exact hstays ⟨hkept, hout, hdrops⟩
      obtain ⟨w, hw⟩ := Assoc.mem_keys.mp hk
      have hafter := tracked_of_mem_kept he.sound hw
      rw [htracked] at hafter
      exact Option.some.inj hafter ▸ hw

/-! ## What is posted -/

/-- A key is posted by a sweep for the value admitted last, if that was pushed out, is dead, and was
neither posted nor dropped before; and for every such value it is posted. -/
theorem mem_posts_iff (hstart : ∀ k, r₀.tracked k = none) {e : Episode κ} (hserved : e.Served)
    (h : Leads r₀ past e.before) {k : κ} :
    k ∈ e.posts ↔ e.sweeps = true ∧ e.admits k = none ∧ e.drops k = false ∧
      ∃ since v, Admitted k v since past ∧ (∃ x ∈ e :: since, (k, v) ∈ x.pushed) ∧
        e.after.alive e.env v = false := by
  have he := hserved.regular
  constructor
  · intro hk
    obtain ⟨hadmits, hdrops, v, htracked, hdead⟩ := he.of_mem_posts hk
    obtain ⟨since, hs⟩ := (tracked_iff hstart h).mp htracked
    refine ⟨he.sweeps_of_posts k hk, hadmits, hdrops, since, v, hs, ?_, hdead⟩
    by_contra hstays
    have hstays' : ∀ x ∈ e :: since, (k, v) ∉ x.pushed := fun x hx hmem => hstays ⟨x, hx, hmem⟩
    obtain ⟨hstill, hsince⟩ := List.forall_mem_cons.mp hstays'
    have hkept := (kept_iff hstart h hs).mpr hsince
    -- it was retained before, so it is still retained, and followed
    have hout : k ∉ e.after.kept.keys := (tracked_eq_none_iff.mp (he.gone k hk).1).1
    exact hstill (Episode.mem_pushed.mpr ⟨hkept, hout, hdrops⟩)
  · rintro ⟨hsweeps, hadmits, hdrops, since, v, hs, ⟨x, hx, hpushed⟩, hdead⟩
    by_contra hk
    -- what is followed and not retained is released, and the sweep left nothing dead there
    have hs' : Admitted k v (e :: since) (e :: past) := .after hadmits hdrops hk hs
    have h' : Leads r₀ (e :: past) e.after := ⟨rfl, hserved, h⟩
    have htracked := (tracked_iff hstart h').mpr ⟨_, hs'⟩
    have hkept : (k, v) ∉ e.after.kept := fun hkept =>
      (kept_iff hstart h' hs').mp hkept x hx hpushed
    have hreleased := ((tracked_eq_some_iff he.sound).mp htracked).resolve_left hkept
    exact absurd (hdead.symm.trans (he.swept hsweeps _ hreleased)) (by simp)

/-- Between two postings of a key a value was admitted for it. -/
theorem admits_between (hstart : ∀ k, r₀.tracked k = none) {e₁ e₂ : Episode κ}
    {between earlier : List (Episode κ)} (hserved : e₂.Served)
    (h : Leads r₀ (between ++ e₁ :: earlier) e₂.before) {k : κ} (h₁ : k ∈ e₁.posts)
    (h₂ : k ∈ e₂.posts) : ∃ x ∈ between, x.admits k ≠ none := by
  obtain ⟨-, -, -, since, v, hs, -, -⟩ := (mem_posts_iff hstart hserved h).mp h₂
  obtain ⟨a, old, hsplit, hadmits, hunposted⟩ := hs.split
  have hne : a.admits k ≠ none := fun hnone => absurd (hadmits.symm.trans hnone) (by simp)
  rcases List.append_eq_append_iff.mp hsplit with ⟨l, hsince, hrest⟩ | ⟨l, hbetween, hrest⟩
  · -- the earlier posting is not since the admission, and is not the admission either
    cases l with
    | nil =>
      cases hrest
      exact absurd (h.split.1.regular.of_mem_posts h₁).1 hne
    | cons x l =>
      cases hrest
      exact absurd h₁ (hunposted _ (hsince ▸ List.mem_append_right _ List.mem_cons_self))
  · cases l with
    | nil =>
      cases hrest
      exact absurd (h.split.1.regular.of_mem_posts h₁).1 hne
    | cons x l =>
      cases hrest
      exact ⟨a, hbetween ▸ List.mem_append_right _ List.mem_cons_self, hne⟩

/-- All that was posted, in order, is what was taken off, in order, and what is still posted. -/
theorem queue_eq (hstart : r₀.posted = []) (h : Leads r₀ past r) :
    past.reverse.flatMap Episode.posts = past.reverse.flatMap Episode.takes ++ r.posted := by
  induction past generalizing r with
  | nil =>
    rw [show r = r₀ from h, hstart]
    rfl
  | cons e past ih =>
    obtain ⟨rfl, hserved, hbefore⟩ := h
    rw [List.reverse_cons, List.flatMap_append, List.flatMap_append, List.flatMap_singleton,
      List.flatMap_singleton, ih hbefore, List.append_assoc, hserved.regular.queue_eq,
      List.append_assoc]

end Leads

/-! ## Any requests -/

/-- What a reclaimer that was watched has on record leads to what it is now. -/
theorem leads_run {r₀ : Reclaimer κ} {w : Watched κ} (h : Leads r₀ w.past w.now)
    (hsound : w.now.Sound) (requests : List (Ambient × Request κ)) :
    Leads r₀ (w.run requests).past (w.run requests).now ∧ (w.run requests).now.Sound := by
  induction requests generalizing w with
  | nil => exact ⟨h, hsound⟩
  | cons q requests ih =>
    have hserved : (w.now.episode q.1 q.2).Served := ⟨hsound, rfl⟩
    exact ih (w := w.step q.1 q.2) ⟨rfl, hserved, h⟩ hserved.regular.sound

/-- **Postings are sound, complete and never repeated.** For any requests to a new reclaimer, with
whatever values held during each of them: a sweep posts a key, and only once, exactly if the value
admitted last for it was pushed out of retention, is dead, and was not dropped or posted before, so
that between two postings of a key there is an admission. What is posted stands in a queue. A
request for a posted key takes keys off its front, passes over those that are retained or have a
live value among the released, and hands out the first that is not and does not; nothing else takes
keys off. -/
theorem postings_exact {n : Nat} (hn : 0 < n) :
    ∃ r₀ : Reclaimer κ, ofCapacity n = .ok r₀ ∧
      ∀ requests : List (Ambient × Request κ),
        let w := (Watched.start r₀).run requests
        (∀ later e earlier, w.past = later ++ e :: earlier →
          e.posts.Nodup ∧
          (∀ k, k ∈ e.posts ↔ e.sweeps = true ∧ e.admits k = none ∧ e.drops k = false ∧
            ∃ since v, Admitted k v since earlier ∧ (∃ x ∈ e :: since, (k, v) ∈ x.pushed) ∧
              e.after.alive e.env v = false) ∧
          (e.request ≠ .next → e.after.posted = e.before.posted ++ e.posts) ∧
          (e.request = .next → ∃ found, e.reply = .key found ∧
            e.before.posted = e.skipped ++ found.toList ++ e.after.posted ∧
            (∀ k ∈ e.skipped, e.before.hasLive e.env k = true) ∧
            (∀ k, found = some k → e.before.hasLive e.env k = false) ∧
            (found = none → e.after.posted = []))) ∧
        (∀ later e₂ between e₁ earlier, w.past = later ++ e₂ :: (between ++ e₁ :: earlier) →
          ∀ k ∈ e₁.posts, k ∈ e₂.posts → ∃ x ∈ between, x.admits k ≠ none) ∧
        w.past.reverse.flatMap Episode.posts =
          w.past.reverse.flatMap Episode.takes ++ w.now.posted := by
  have hr₀ := ofCapacity_eq (κ := κ) hn
  obtain ⟨hsound, hposted, htracked⟩ := ofCapacity_sound hr₀
  refine ⟨_, hr₀, fun requests => ?_⟩
  intro w
  obtain ⟨h, -⟩ := leads_run (w := .start _) rfl hsound requests
  refine ⟨fun later e earlier hpast => ?_, fun later e₂ between e₁ earlier hpast k h₁ h₂ => ?_,
    h.queue_eq hposted⟩
  · obtain ⟨hserved, hbefore⟩ := (hpast ▸ h).split
    refine ⟨hserved.regular.posts_nodup, fun k => hbefore.mem_posts_iff htracked hserved,
      fun hnext => ?_, hserved.next⟩
    have hqueue := hserved.regular.queue_eq
    rw [hserved.takes_eq_nil hnext, List.nil_append] at hqueue
    exact hqueue.symm
  · obtain ⟨hserved, hbefore⟩ := (hpast ▸ h).split
    exact hbefore.admits_between htracked hserved h₁ h₂

/-- One value fits at a time, and nobody holds any. The first key is posted, used again, pushed out
again and posted again, all before anyone asks; the second is retained again when its turn comes and
is passed over. -/
theorem posted_again :
    let a : Value := ⟨0, "a"⟩
    let b : Value := ⟨1, "b"⟩
    let c : Value := ⟨2, "c"⟩
    let d : Value := ⟨3, "d"⟩
    0 < 1 ∧ ∃ r₀ : Reclaimer Nat, ofCapacity 1 = .ok r₀ ∧
      let w := (Watched.start r₀).run
        ([.retain 1 a, .retain 2 b, .retain 1 c, .retain 2 d, .next, .next].map
          (Ambient.alone, ·))
      w.past.reverse.map Episode.posts = [[], [1], [2], [1], [], []] ∧
        w.past.reverse.map Episode.handed = [[], [], [], [], [1], [1]] ∧
        w.past.reverse.map Episode.skipped = [[], [], [], [], [], [2]] ∧
        w.now.posted = [] ∧ w.past.reverse.flatMap Episode.takes = [1, 2, 1] := by
  intro a b c d
  have hn : 0 < 1 := by decide
  obtain ⟨r₀, hr₀, h⟩ := postings_exact (κ := Nat) hn
  refine ⟨hn, r₀, hr₀, ?_⟩
  intro w
  have hfacts : w.past.reverse.map Episode.posts = [[], [1], [2], [1], [], []] ∧
      w.past.reverse.map Episode.handed = [[], [], [], [], [1], [1]] ∧
      w.past.reverse.map Episode.skipped = [[], [], [], [], [], [2]] ∧ w.now.posted = [] := by
    cases Except.ok.inj hr₀
    exact ⟨by decide +kernel, by decide +kernel, by decide +kernel, by decide +kernel⟩
  obtain ⟨hposts, hhanded, hskipped, hposted⟩ := hfacts
  obtain ⟨-, -, hqueue⟩ := h _
  refine ⟨hposts, hhanded, hskipped, hposted, ?_⟩
  have hall : w.past.reverse.flatMap Episode.posts = [1, 2, 1] := by
    rw [List.flatMap_def, hposts]
    rfl
  have htaken : w.past.reverse.flatMap Episode.posts = w.past.reverse.flatMap Episode.takes ++ _ :=
    hqueue
  rw [hposted, List.append_nil] at htaken
  exact htaken.symm.trans hall

end Reclaimer

end SoftTier
