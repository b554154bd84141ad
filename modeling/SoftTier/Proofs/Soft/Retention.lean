import Mathlib.Data.List.Dedup
import SoftTier.Proofs.Soft.Reachability

/-!
# How long a value is retained

A reclaimer gives up the values that were used least recently. So a value stays while fewer other
keys are used than there is room for. Entries that are removed only make room; a value that was
released and is retained again counts as used.

- `Reclaimer.Recent`: a value is retained, and all that is retained before it was used since.
- `Reclaimer.Recent.use`, `Reclaimer.Recent.used`, `Reclaimer.Recent.forget`: another key is used,
  the key itself is used, another key is forgotten.
- `Custody.used`, `Custody.usedBeside`: what the record says about the keys used.
- `Custody.Valid.kept_read`: what a lookup does to retention.
- `Custody.Remembers`: what is so of a value while only such acts are done that spare it.
- `Custody.recent_value_found`: it is found again, after any acts.
-/

namespace SoftTier

namespace Reclaimer

variable {κ : Type} [Ord κ] {r r' : Reclaimer κ} {k k' : κ} {v v' : Value} {keys : List κ} {n : Nat}

/-- A value is retained, and those retained before it stand under the keys listed. -/
def Recent (r : Reclaimer κ) (k : κ) (v : Value) (keys : List κ) : Prop :=
  ∃ front rest, r.kept = front ++ (k, v) :: rest ∧ Assoc.keys front ⊆ keys

namespace Recent

theorem mem_kept (h : r.Recent k v keys) : (k, v) ∈ r.kept := by
  obtain ⟨front, rest, heq, -⟩ := h
  rw [heq]
  exact List.mem_append_right _ List.mem_cons_self

theorem of_kept_eq (h : r.Recent k v keys) (heq : r'.kept = r.kept) : r'.Recent k v keys := by
  rw [Recent, heq]
  exact h

/-- A value that is brought to the front has nothing before it. -/
theorem used {entries : Assoc κ Value} (hn : 0 < n)
    (hkept : r'.kept = ((k, v) :: entries).take n) : r'.Recent k v keys := by
  obtain ⟨m, rfl⟩ := Nat.exists_eq_add_one_of_ne_zero (Nat.ne_of_gt hn)
  exact ⟨[], entries.take m, hkept, List.nil_subset _⟩

variable [DecidableEq κ]

/-- Forgetting another key makes room. -/
theorem forget (h : r.Recent k v keys) (hne : k ≠ k') (hkept : r'.kept = Assoc.erase k' r.kept) :
    r'.Recent k v keys := by
  obtain ⟨front, rest, heq, hsub⟩ := h
  refine ⟨Assoc.erase k' front, Assoc.erase k' rest, ?_, fun x hx => ?_⟩
  · rw [hkept, heq, Assoc.erase_append]
    congr 1
    exact List.filter_cons_of_pos (decide_eq_true hne)
  · exact hsub (Assoc.mem_keys_erase.mp hx).1

/-- Another key is used. While the keys used are fewer than there is room for, the value stays. -/
theorem use (h : r.Recent k v keys) (hr : r.kept.keys.Nodup) (hne : k ≠ k')
    (hkept : r'.kept = ((k', v') :: Assoc.erase k' r.kept).take n)
    (hroom : ((k' :: keys).filter (· ≠ k)).dedup.length < n) : r'.Recent k v (k' :: keys) := by
  obtain ⟨front, rest, heq, hsub⟩ := h
  rw [heq] at hr
  have hk : k ∉ Assoc.keys front := (Assoc.notin_keys_of_nodup hr).1
  have hfront : (Assoc.keys front).Nodup := by
    rw [Assoc.keys, List.map_append] at hr
    exact (List.nodup_append.mp hr).1
  -- what stands before the value are different keys that were used
  have hnodup : (Assoc.keys ((k', v') :: Assoc.erase k' front)).Nodup := by
    refine List.nodup_cons.mpr ⟨fun hmem => ?_, Assoc.nodup_keys_erase hfront k'⟩
    exact (Assoc.mem_keys_erase.mp hmem).2 rfl
  have hbefore : Assoc.keys ((k', v') :: Assoc.erase k' front) ⊆
      ((k' :: keys).filter (· ≠ k)).dedup := by
    intro x hx
    rw [List.mem_dedup, List.mem_filter, decide_eq_true_eq]
    rcases List.mem_cons.mp hx with rfl | hx
    · exact ⟨List.mem_cons_self, Ne.symm hne⟩
    · have hx := (Assoc.mem_keys_erase.mp hx).1
      exact ⟨List.mem_cons_of_mem _ (hsub hx), fun hxk => hk (hxk ▸ hx)⟩
  have hlen := (hnodup.subperm hbefore).length_le
  rw [Assoc.keys, List.length_map] at hlen
  obtain ⟨m, hm⟩ : ∃ m, n - ((k', v') :: Assoc.erase k' front).length = m + 1 :=
    Nat.exists_eq_add_one_of_ne_zero (by omega)
  refine ⟨(k', v') :: Assoc.erase k' front, (Assoc.erase k' rest).take m, ?_, fun x hx => ?_⟩
  · have herase : (k', v') :: Assoc.erase k' r.kept =
        ((k', v') :: Assoc.erase k' front) ++ (k, v) :: Assoc.erase k' rest := by
      rw [heq, Assoc.erase_append, List.cons_append]
      congr 2
      exact List.filter_cons_of_pos (decide_eq_true hne)
    rw [hkept, herase, List.take_append, List.take_of_length_le (by omega), hm,
      List.take_succ_cons]
  · rcases List.mem_cons.mp hx with rfl | hx
    · exact List.mem_cons_self
    · exact List.mem_cons_of_mem _ (hsub (Assoc.mem_keys_erase.mp hx).1)

end Recent

end Reclaimer

namespace Custody

/-! ## What the record says about use -/

section Record

variable {κ : Type}

/-- The keys under which a value was written or found. -/
def used : Record κ → List κ
  | [] => []
  | (.write k _, .done) :: past => k :: used past
  | (.read k _, .found (some _)) :: past => k :: used past
  | _ :: past => used past

/-- An act that neither gives up retention nor changes what is stored under the key. -/
def Act.Spares (k : κ) : Act κ → Prop
  | .write k' _ => k ≠ k'
  | .writeMiss k' => k ≠ k'
  | .erase k' _ => k ≠ k'
  | .clear | .shrink _ | .setCapacity _ => False
  | .make _ | .keep _ | .drop _ | .read .. | .size | .setPinCapacity _ | .sweep => True

/-- An act and its answer by which a value is used under a key. -/
inductive Uses (k : κ) (v : Value) : Act κ → Answer → Prop
  | write : Uses k v (.write k v) .done
  | read (hold : Bool) : Uses k v (.read k hold) (.found (some v))

theorem used_append (new past : Record κ) : used (new ++ past) = used new ++ used past := by
  induction new using used.induct with
  | case1 => rfl
  | case2 k v new ih => rw [List.cons_append, used, used, ih, List.cons_append]
  | case3 k hold v new ih => rw [List.cons_append, used, used, ih, List.cons_append]
  | case4 entry new hwrite hread ih =>
    rw [List.cons_append, used.eq_4 _ _ hwrite hread, used.eq_4 _ _ hwrite hread, ih]

variable [DecidableEq κ]

/-- The number of keys other than `k` under which a value was written or found. -/
def usedBeside (k : κ) (past : Record κ) : Nat := ((used past).filter (· ≠ k)).dedup.length

/-- The number only grows. -/
theorem usedBeside_le (k : κ) (new past : Record κ) :
    usedBeside k past ≤ usedBeside k (new ++ past) := by
  rw [usedBeside, usedBeside, used_append]
  refine ((List.nodup_dedup _).subperm fun x hx => ?_).length_le
  rw [List.mem_dedup] at hx ⊢
  rw [List.filter_append]
  exact List.mem_append_right _ hx

end Record

variable {κ : Type} [DecidableEq κ] [Ord κ] [Std.TransOrd κ]

/-! ## What is found and what is retained -/

namespace Valid

variable {c : Custody κ (Table κ Handle)} {k : κ} {v : Value}

/-- A value that is retained was written and is alive. -/
theorem written_of_mem_kept (h : c.Valid) (hmem : (k, v) ∈ c.layer.reclaimer.kept) :
    (written k c.past).filter c.alive = some v := by
  have hsound := h.coherent.sound
  have htracked := Reclaimer.tracked_of_mem_kept hsound hmem
  have halive : c.alive v = true := alive_of_keeps c (hsound.keeps_iff.mpr ⟨k, hmem⟩)
  obtain ⟨-, hwritten⟩ := h.coherent.entry_of_tracked htracked
  rw [hwritten, Option.filter_some, if_pos halive]

variable [Std.LawfulEqOrd κ]

/-- A lookup brings the value that it finds to the front. If it finds none, what is retained stays
as it is, for an entry that it takes out was not retained. -/
theorem kept_read (h : c.Valid) (visit : Visit) (k : κ) (hold : Bool) :
    let r := c.layer.reclaimer
    let r' := (c.step visit (.read k hold)).layer.reclaimer
    r'.softCapacity = r.softCapacity ∧
      r'.kept = match (written k c.past).filter c.alive with
        | some v => ((k, v) :: Assoc.erase k r.kept).take r.softCapacity
        | none => r.kept := by
  intro r r'
  have hsound : r.Sound := h.coherent.sound
  have hentry := h.coherent.upgrade_entry k
  have hr' : r' = (c.step visit (.read k hold)).layer.reclaimer := rfl
  rw [Custody.step] at hr'
  rw [hr', ← hentry]
  cases hval : c.layer.below.value? k with
  | none =>
    rw [performFinding_eq (Soft.read_yields_absent hval), Option.bind_none]
    exact ⟨rfl, rfl⟩
  | some handle =>
    rw [hval, Option.bind_some] at hentry
    rw [Option.bind_some]
    cases hup : handle.upgrade c.alive with
    | none =>
      rw [performFinding_eq (Soft.read_yields_dead hval hup)]
      refine ⟨Reclaimer.softCapacity_forget hsound k, ?_⟩
      have hk : k ∉ r.kept.keys := by
        intro hk
        obtain ⟨v, hmem⟩ := Assoc.mem_keys.mp hk
        rw [hup, h.written_of_mem_kept hmem] at hentry
        exact absurd hentry (by simp)
      exact (Reclaimer.kept_forget hsound k).trans (Assoc.erase_eq_self hk)
    | some v =>
      rw [hup] at hentry
      obtain ⟨hwritten, halive⟩ := Option.filter_eq_some_iff.mp hentry.symm
      obtain ⟨-, htracked, -, -⟩ := h.coherent.followed_of_alive hwritten halive
      obtain ⟨hkept, hcap⟩ := Reclaimer.kept_refresh hsound
        ((c.around visit).also c.layer.pinned) htracked
      rw [performFinding_eq (Soft.read_yields_live hval hup)]
      exact ⟨hcap, hkept⟩

end Valid

/-! ## A value that was used -/

/-- A value was used, and only acts that spare it have been done `since`: the room is the same, and
while the other keys used are fewer, the value is retained. -/
structure Remembers (k : κ) (v : Value) (room : Nat) (since : Record κ)
    (c : Custody κ (Table κ Handle)) : Prop where
  valid : c.Valid
  room_eq : c.layer.reclaimer.softCapacity = room
  recent : usedBeside k since < room → c.layer.reclaimer.Recent k v (used since)

namespace Remembers

variable {k : κ} {v : Value} {room : Nat} {since : Record κ} {c c' : Custody κ (Table κ Handle)}

/-- One act more. -/
theorem extend (h : Remembers k v room since c) (new : Record κ) (hvalid : c'.Valid)
    (hroom : c'.layer.reclaimer.softCapacity = c.layer.reclaimer.softCapacity)
    (hrecent : usedBeside k (new ++ since) < c.layer.reclaimer.softCapacity →
      c.layer.reclaimer.Recent k v (used since) →
      c'.layer.reclaimer.Recent k v (used (new ++ since))) :
    Remembers k v room (new ++ since) c' := by
  refine { valid := hvalid, room_eq := hroom.trans h.room_eq, recent := fun hlt => ?_ }
  refine hrecent (h.room_eq ▸ hlt) (h.recent ?_)
  exact Nat.lt_of_le_of_lt (usedBeside_le k new since) hlt

/-- An act by which no key is used and nothing retained is changed. -/
theorem still (h : Remembers k v room since c) (new : Record κ) (hvalid : c'.Valid)
    (hused : used new = []) (hkept : c'.layer.reclaimer.kept = c.layer.reclaimer.kept)
    (hroom : c'.layer.reclaimer.softCapacity = c.layer.reclaimer.softCapacity) :
    Remembers k v room (new ++ since) c' := by
  refine h.extend new hvalid hroom fun _ hrecent => ?_
  rw [used_append, hused, List.nil_append]
  exact hrecent.of_kept_eq hkept

/-- An act by which another key is forgotten. -/
theorem forget (h : Remembers k v room since c) (new : Record κ) (hvalid : c'.Valid)
    (hused : used new = []) {k' : κ} (hne : k ≠ k')
    (hkept : c'.layer.reclaimer.kept = Assoc.erase k' c.layer.reclaimer.kept)
    (hroom : c'.layer.reclaimer.softCapacity = c.layer.reclaimer.softCapacity) :
    Remembers k v room (new ++ since) c' := by
  refine h.extend new hvalid hroom fun _ hrecent => ?_
  rw [used_append, hused, List.nil_append]
  exact hrecent.forget hne hkept

/-- While the value is remembered, the key reads as that value. -/
theorem found (h : Remembers k v room since c) (hlt : usedBeside k since < room) (visit : Visit)
    (hold : Bool) :
    (c.step visit (.read k hold)).past = (.read k hold, .found (some v)) :: c.past := by
  have hmem := (h.recent hlt).mem_kept
  rw [h.valid.read_record visit k hold, h.valid.written_of_mem_kept hmem]

variable [Std.LawfulEqOrd κ]

/-- A lookup uses what it finds, be it this value or that of another key. -/
theorem read (h : Remembers k v room since c) (visit : Visit) (k' : κ) (hold : Bool) :
    ∃ new, (c.step visit (.read k' hold)).past = new ++ c.past ∧
      Remembers k v room (new ++ since) (c.step visit (.read k' hold)) := by
  have hsound := h.valid.coherent.sound
  have hvalid := h.valid.read visit k' hold
  obtain ⟨hcap, hkept⟩ := h.valid.kept_read visit k' hold
  refine ⟨[(.read k' hold, .found ((written k' c.past).filter c.alive))],
    h.valid.read_record visit k' hold, ?_⟩
  cases hfound : (written k' c.past).filter c.alive with
  | none =>
    rw [hfound] at hkept
    exact h.still _ hvalid rfl hkept hcap
  | some w =>
    rw [hfound] at hkept
    refine h.extend _ hvalid hcap fun hlt hrecent => ?_
    by_cases hne : k = k'
    · -- the value found is the one retained under the key
      subst hne
      cases hfound.symm.trans (h.valid.written_of_mem_kept hrecent.mem_kept)
      exact .used hsound.capacity_pos hkept
    · exact hrecent.use hsound.kept_nodup hne hkept hlt

/-- A value written under another key is retained before this one. -/
theorem write (h : Remembers k v room since c) (visit : Visit) {k' : κ} (hne : k ≠ k') (w : Value) :
    ∃ new, (c.step visit (.write k' w)).past = new ++ c.past ∧
      Remembers k v room (new ++ since) (c.step visit (.write k' w)) := by
  have hvalid := h.valid.write visit k' w
  have hsound : (c.layer.drained ((c.around visit).also w)).reclaimer.Sound :=
    h.valid.coherent.sound.reposted []
  revert hvalid
  rw [step]
  split
  · rw [perform_eq (Soft.write_yields k' w)]
    intro hvalid
    refine ⟨[_], rfl, h.extend [_] hvalid ?_ fun hlt hrecent => ?_⟩
    · exact Reclaimer.softCapacity_retain hsound ..
    · exact hrecent.use hsound.kept_nodup hne (Reclaimer.kept_retain hsound ..) hlt
  · exact fun hvalid => ⟨[], rfl, h⟩

/-- **Step.** A value that is remembered still is after an act that spares it. -/
theorem step (h : Remembers k v room since c) (visit : Visit) {act : Act κ} (hact : act.Spares k) :
    ∃ new, (c.step visit act).past = new ++ c.past ∧
      Remembers k v room (new ++ since) (c.step visit act) := by
  have hvalid := valid_step h.valid visit act
  cases act with
  | make text => exact ⟨[_], rfl, h.still [_] hvalid rfl rfl rfl⟩
  | keep w =>
    rw [Custody.step] at hvalid ⊢
    split at hvalid
    · rename_i hheld
      rw [if_pos hheld]
      exact ⟨[_], rfl, h.still [_] hvalid rfl rfl rfl⟩
    · rename_i hheld
      rw [if_neg hheld]
      exact ⟨[], rfl, h⟩
  | drop w => exact ⟨[_], rfl, h.still [_] hvalid rfl rfl rfl⟩
  | write k' w => exact h.write visit hact w
  | writeMiss k' =>
    have hsound : (c.layer.drained (c.around visit)).reclaimer.Sound :=
      h.valid.coherent.sound.reposted []
    rw [Custody.step, perform_eq (Soft.writeMiss_yields k')] at hvalid ⊢
    exact ⟨[_], rfl, h.forget [_] hvalid rfl hact (Reclaimer.kept_forget hsound k')
      (Reclaimer.softCapacity_forget hsound k')⟩
  | read k' hold => exact h.read visit k' hold
  | erase k' hold =>
    have hsound : (c.layer.drained (c.around visit)).reclaimer.Sound :=
      h.valid.coherent.sound.reposted []
    rw [Custody.step, performFinding_eq (Soft.erase_yields k')] at hvalid ⊢
    exact ⟨[_], rfl, h.forget [_] hvalid rfl hact (Reclaimer.kept_forget hsound k')
      (Reclaimer.softCapacity_forget hsound k')⟩
  | clear => exact absurd hact id
  | size =>
    rw [Custody.step, perform_eq Soft.size_yields] at hvalid ⊢
    exact ⟨[_], rfl, h.still [_] hvalid rfl rfl rfl⟩
  | setPinCapacity n => exact ⟨[_], rfl, h.still [_] hvalid rfl rfl rfl⟩
  | sweep =>
    rw [Custody.step, perform_eq Soft.sweep_yields] at hvalid ⊢
    refine ⟨[_], rfl, h.still [_] hvalid rfl (Reclaimer.kept_sweep ..) ?_⟩
    rw [Reclaimer.sweep_eq]
    rfl
  | shrink n => exact absurd hact id
  | setCapacity n => exact absurd hact id

/-- **Run.** Whatever acts that spare it are done. -/
theorem run (h : Remembers k v room since c) {acts : List (Visit × Act κ)}
    (hacts : ∀ a ∈ acts, a.2.Spares k) :
    ∃ new, (c.run acts).past = new ++ c.past ∧ Remembers k v room (new ++ since) (c.run acts) := by
  induction acts generalizing c since with
  | nil => exact ⟨[], rfl, h⟩
  | cons a acts ih =>
    obtain ⟨new, hpast, hstep⟩ := h.step a.1 (hacts a List.mem_cons_self)
    obtain ⟨newer, hpast', hrun⟩ := ih hstep fun b hb => hacts b (List.mem_cons_of_mem a hb)
    refine ⟨newer ++ new, ?_, ?_⟩
    · show ((c.step a.1 a.2).run acts).past = _
      rw [hpast', hpast, List.append_assoc]
    · rw [List.append_assoc]
      exact hrun

end Remembers

/-- A value that is used is retained in front of all others. -/
theorem Valid.remembers [Std.LawfulEqOrd κ] {c : Custody κ (Table κ Handle)} (h : c.Valid)
    {visit : Visit} {act : Act κ} {answer : Answer} {k : κ} {v : Value}
    (hpast : (c.step visit act).past = (act, answer) :: c.past) (huse : Uses k v act answer) :
    Remembers k v c.layer.reclaimer.softCapacity [] (c.step visit act) := by
  have hvalid := valid_step h visit act
  have hpos := h.coherent.sound.capacity_pos
  cases huse with
  | write =>
    have hsound : (c.layer.drained ((c.around visit).also v)).reclaimer.Sound :=
      h.coherent.sound.reposted []
    rw [Custody.step] at hvalid hpast ⊢
    split at hpast
    · rename_i hheld
      rw [if_pos hheld, perform_eq (Soft.write_yields k v)] at hvalid ⊢
      exact { valid := hvalid, room_eq := Reclaimer.softCapacity_retain hsound ..,
              recent := fun _ => .used hpos (Reclaimer.kept_retain hsound ..) }
    · -- nothing is put on record for who does not hold the value
      exact absurd (congrArg List.length hpast) (by simp)
  | read hold =>
    have hfound : (written k c.past).filter c.alive = some v := by
      rw [h.read_record visit k hold] at hpast
      exact Answer.found.inj (Prod.mk.inj (List.cons.inj hpast).1).2
    obtain ⟨hcap, hkept⟩ := h.kept_read visit k hold
    rw [hfound] at hkept
    exact { valid := hvalid, room_eq := hcap, recent := fun _ => .used hpos hkept }

/-- **Recently used values are found.** Whatever callers have done with a soft layer over a base
store, once a value is written under a key or found there: while nobody writes or removes that key,
clears the layer or gives up retention, and the values written and found since belong to fewer other
keys than retention has room for, the key reads as that value. It need not be pinned, and nobody
else has to hold it. -/
theorem recent_value_found [Std.LawfulEqOrd κ] {settings : SoftSettings}
    (hcap : 0 < settings.softCapacity) (name : String) :
    ∃ c₀ : Custody κ (Table κ Handle), start settings (Table.named name) = .ok c₀ ∧
      ∀ (before : List (Visit × Act κ)) (visit : Visit) (act : Act κ) (answer : Answer) (k : κ)
        (v : Value),
        let c := c₀.run before
        let c₁ := c.step visit act
        c₁.past = (act, answer) :: c.past → Uses k v act answer →
          ∀ acts : List (Visit × Act κ), (∀ a ∈ acts, a.2.Spares k) →
            let c₂ := c₁.run acts
            ∃ since, c₂.past = since ++ c₁.past ∧
              (usedBeside k since < c.layer.reclaimer.softCapacity →
                ∀ visit hold, (c₂.step visit (.read k hold)).past =
                  (.read k hold, .found (some v)) :: c₂.past) := by
  obtain ⟨c₀, hstart, -⟩ := start_eq (κ := κ) hcap (Table.named name : Table κ Handle)
  refine ⟨c₀, hstart, fun before visit act answer k v => ?_⟩
  intro c c₁ hpast huse acts hacts c₂
  have h : c.Valid := valid_run (valid_start hstart) before
  obtain ⟨since, hsince, hrun⟩ := (h.remembers hpast huse).run hacts
  rw [List.append_nil] at hrun
  refine ⟨since, hsince, fun hlt visit' hold => ?_⟩
  exact hrun.found hlt visit' hold

/-- There is room for two values and none is pinned. A value is read that nobody holds; then one
other key is written, removed and written again, which is one key only. -/
theorem recent_value_survives :
    let a : Value := ⟨0, "a"⟩
    let b : Value := ⟨1, "b"⟩
    0 < 2 ∧ ∃ c₀ : Custody Nat (Table Nat Handle),
      start ⟨0, 2⟩ (Table.named "users") = .ok c₀ ∧
        let c := c₀.run ([.make "a", .make "b", .write 1 a, .write 2 b, .drop a].map
          (Visit.asListed, ·))
        let c₂ := (c.step .asListed (.read 1 false)).run ([.write 2 b, .erase 2 false,
          .read 3 false, .size, .write 2 b].map (Visit.asListed, ·))
        c₂.held = [b] ∧ c₂.layer.pinned = [] ∧
          (c₂.step .asListed (.read 1 false)).past.head? =
            some (.read 1 false, .found (some a)) := by
  intro a b
  have hcap : 0 < (⟨0, 2⟩ : SoftSettings).softCapacity := by decide
  obtain ⟨c₀, hstart, hall⟩ := recent_value_found (κ := Nat) hcap "users"
  refine ⟨hcap, c₀, hstart, ?_⟩
  have hfound := hall ([.make "a", .make "b", .write 1 a, .write 2 b, .drop a].map
    (Visit.asListed, ·)) .asListed (.read 1 false) (.found (some a)) 1 a
  dsimp only at hfound ⊢
  generalize hrun : c₀.run _ = c at hfound ⊢
  have hpast : (c.step .asListed (.read 1 false)).past =
      (.read 1 false, .found (some a)) :: c.past := by
    cases Except.ok.inj hstart
    rw [← hrun]
    decide +kernel
  obtain ⟨since, hsince, hread⟩ := hfound hpast (.read false)
    ([.write 2 b, .erase 2 false, .read 3 false, .size, .write 2 b].map (Visit.asListed, ·))
    (by simp [Act.Spares])
  generalize hrun' : (c.step _ _).run _ = c₂ at hsince hread ⊢
  have hfacts : c₂.held = [b] ∧ c₂.layer.pinned = [] ∧ c.layer.reclaimer.softCapacity = 2 ∧
      c₂.past = [(.write 2 b, .done), (.size, .count 1), (.read 3 false, .found none),
        (.erase 2 false, .found (some b)), (.write 2 b, .done)] ++
          (c.step .asListed (.read 1 false)).past := by
    cases Except.ok.inj hstart
    rw [← hrun', ← hrun]
    exact ⟨by decide +kernel, by decide +kernel, by decide +kernel, by decide +kernel⟩
  obtain ⟨hheld, hpinned, hroom, hnew⟩ := hfacts
  rw [List.append_cancel_right (hsince.symm.trans hnew), hroom] at hread
  refine ⟨hheld, hpinned, ?_⟩
  rw [hread (by decide) .asListed false]
  rfl

end Custody

end SoftTier
