import Mathlib.Data.Multiset.AddSub
import SoftTier.Proofs.Soft.Publishing
import SoftTier.Proofs.Soft.Validity

/-!
# What outlasts a commit over a soft layer

While a session sends a soft layer what it has gathered, its buffer keeps all those values alive.
Each write may push a value out of retention that was sent before, but none is reclaimed. Once the
session has let go, just those values are left that retention still has: the ones sent last, as many
as fit. A lookup of one of them brings it to the front and pushes nothing out, and a lookup of
another finds it dead, so lookups in any order find the same.

- `Buffer.written`, `Buffer.values`: the values that wait in a buffer.
- `Buffer.lastSent`: the keys of the last values that a commit sends.
- `Custody.commit`: a session among those who hold values commits.
- `Custody.underway`: the layer in the middle of a commit.
- `Custody.Sole`: the values that wait in a buffer are different ones that nothing else holds.
- `Custody.Surviving`: which of the values written are left, as long as nothing is done but lookups.
- `Custody.commit_survivors`: as many values as fit outlast a commit, and lookups find just those.
-/

namespace SoftTier

namespace Buffer

variable {κ : Type}

/-- The values that wait in a buffer, with their keys. -/
def written (b : Buffer κ Value) : Assoc κ Value := b.pending.valued

/-- The values that wait in a buffer. -/
def values (b : Buffer κ Value) : List Value := b.written.map (·.2)

theorem keeps_of_mem_values {b : Buffer κ Value} {v : Value} (h : v ∈ b.values) :
    keeps b v = true := by
  obtain ⟨⟨k, w⟩, hmem, rfl⟩ := List.mem_map.mp h
  exact keeps_iff.mpr ⟨k, Assoc.mem_valued.mp hmem⟩

theorem Sound.written_nodup {b : Buffer κ Value} (h : b.Sound) : b.written.keys.Nodup :=
  (Assoc.keys_valued_sublist _).nodup h.pending_nodup

variable [DecidableEq κ]

/-- Of values, a commit sends just those that wait, in some order. -/
theorem valued_sends_perm (visit : Visit) (b : Buffer κ Value) :
    (Assoc.valued (b.sends visit).reverse).Perm b.written := by
  have hmisses : Assoc.valued ((b.due visit).map (·, (none : Option Value))) = [] := by
    simp [Assoc.valued]
  have hsends : Assoc.valued (b.sends visit) = Assoc.valued (visit.arrange b.pending) := by
    rw [sends, Assoc.valued_append, hmisses, List.append_nil]
  rw [Assoc.valued, List.filterMap_reverse]
  refine (List.reverse_perm _).trans ?_
  rw [← Assoc.valued, hsends]
  exact (visit.arrange_perm b.pending).filterMap _

/-- The keys of the last `n` values that a commit sends. -/
def lastSent (visit : Visit) (n : Nat) (b : Buffer κ Value) : List κ :=
  Assoc.keys ((Assoc.valued (b.sends visit).reverse).take n)

section LastSent

variable {b : Buffer κ Value} {visit : Visit} {n : Nat}

theorem exists_written_of_mem_lastSent {k : κ} (hk : k ∈ b.lastSent visit n) :
    ∃ v, (k, v) ∈ (Assoc.valued (b.sends visit).reverse).take n ∧ (k, v) ∈ b.written := by
  obtain ⟨v, hv⟩ := Assoc.mem_keys.mp hk
  exact ⟨v, hv, (b.valued_sends_perm visit).mem_iff.mp (List.mem_of_mem_take hv)⟩

theorem Sound.nodup_lastSent (h : b.Sound) : (b.lastSent visit n).Nodup := by
  have hperm := (b.valued_sends_perm visit).map Prod.fst
  exact ((List.take_sublist ..).map Prod.fst).nodup (hperm.nodup_iff.mpr h.written_nodup)

theorem length_lastSent : (b.lastSent visit n).length = min b.values.length n := by
  rw [lastSent, Assoc.keys, List.length_map, List.length_take,
    (b.valued_sends_perm visit).length_eq, values, List.length_map, Nat.min_comm]

end LastSent

end Buffer

namespace Custody

variable {κ σ : Type} [Ord κ]

/-- What surrounds the layer while a session commits. The references that the session has are those
in its buffer, and they last as long as the buffer does. -/
def committing (visit : Visit) (b : Buffer κ Value) (c : Custody κ σ) : Ambient :=
  (⟨keeps (c.held.diff b.values), visit⟩ : Ambient).also b

/-- The values in the buffer are different ones, and nothing but the buffer holds any of them. -/
structure Sole (b : Buffer κ Value) (c : Custody κ σ) : Prop where
  values_nodup : b.values.Nodup
  held_once : ∀ v ∈ b.values, c.held.count v = 1
  notin_pinned : ∀ v ∈ b.values, v ∉ c.layer.pinned
  not_kept : ∀ v ∈ b.values, keeps c.layer.reclaimer v = false

/-- Whoever lets go of a buffer leaves nobody who holds its values. -/
theorem Sole.notin_others {b : Buffer κ Value} {c : Custody κ σ} (h : c.Sole b) {v : Value}
    (hv : v ∈ b.values) : v ∉ c.held.diff b.values := by
  intro hmem
  rw [← Multiset.mem_coe, ← Multiset.coe_sub, Multiset.mem_sub, Multiset.coe_count,
    Multiset.coe_count, h.held_once v hv] at hmem
  exact absurd (List.count_pos_iff.mpr hv) (by omega)

variable [DecidableEq κ] [Std.TransOrd κ] [Store σ κ Handle]

/-- A session commits whose buffer has its references among those held. What it answers, what it
has gathered afterwards, and those who hold values then. -/
def commit (visit : Visit) (b : Buffer κ Value) (c : Custody κ σ) :
    Except Failure Unit × Buffer κ Value × Custody κ σ :=
  let others := c.held.diff b.values
  let o := (Session.commit : Op (Session κ Value (Soft κ σ)) Unit) ⟨keeps others, visit⟩
    ⟨b, c.layer⟩
  (o.result, o.state.buffer,
    { c with layer := o.state.below, held := o.state.buffer.values ++ others })

/-- The layer in the middle of a commit, when it has been cleared if need be and been sent what is
in `done`. -/
def underway (visit : Visit) (b : Buffer κ Value) (done : Assoc κ (Option Value))
    (c : Custody κ σ) : Soft κ σ :=
  let env := c.committing visit b
  let cleared := if b.clears then (Store.clear env c.layer : Outcome (Soft κ σ) Unit).state
    else c.layer
  (Op.each Buffer.send done env cleared).state

section Committing

variable {c : Custody κ (Table κ Handle)} {b : Buffer κ Value}

/-- The layer when a commit has cleared it, if it does. -/
def opened (visit : Visit) (b : Buffer κ Value) (c : Custody κ (Table κ Handle)) :
    Soft κ (Table κ Handle) :=
  if b.clears then c.layer.wiped (c.committing visit b) else c.layer

theorem underway_eq (visit : Visit) (done : Assoc κ (Option Value)) :
    c.underway visit b done =
      done.foldl (Soft.sent (c.committing visit b)) (c.opened visit b) := by
  have hcleared : (if b.clears then
      (Store.clear (c.committing visit b) c.layer : Outcome (Soft κ (Table κ Handle)) Unit).state
      else c.layer) = c.opened visit b := by
    rw [opened]
    split
    · exact (Soft.wiped_yields c.layer).state_eq
    · rfl
  show (Op.each Buffer.send done _ (if b.clears then _ else _)).state = _
  rw [hcleared]
  exact (Op.yields_each Soft.send_yields done _).state_eq

/-- A commit sends everything and forgets it, and nothing that it does fails. -/
theorem commit_eq (visit : Visit) :
    c.commit visit b = (.ok (), {}, { c with
      layer := c.underway visit b (b.sends visit)
      held := c.held.diff b.values }) := by
  have hclear : if b.clears then Op.Yields (Store.clear : Op (Soft κ (Table κ Handle)) Unit)
      (c.committing visit b) c.layer () (c.opened visit b) else c.opened visit b = c.layer := by
    rw [opened]
    split
    · exact Soft.wiped_yields c.layer
    · rfl
  have hcommit : Op.Yields Session.commit ⟨keeps (c.held.diff b.values), visit⟩ ⟨b, c.layer⟩ () _ :=
    Session.commit_yields_of (Buffer.flush_yields_of Soft.send_yields b hclear)
      (Buffer.freeMissed_yields_of Soft.send_yields b _)
  rw [commit, hcommit.result_eq, hcommit.state_eq, underway_eq, Buffer.sends, List.foldl_append]
  rfl

/-- What is retained and pinned when a commit begins was so before. -/
theorem opened_spec (h : c.layer.reclaimer.Sound) (visit : Visit) :
    (c.opened visit b).reclaimer.Sound ∧
      (c.opened visit b).reclaimer.softCapacity = c.layer.reclaimer.softCapacity ∧
      (∀ e ∈ (c.opened visit b).reclaimer.kept, e ∈ c.layer.reclaimer.kept) ∧
      ∀ v ∈ (c.opened visit b).pinned, v ∈ c.layer.pinned := by
  rw [opened]
  split
  · obtain ⟨hsound, hkept, hcap⟩ := Soft.wiped_reclaimer (c.committing visit b) h
    refine ⟨hsound, hcap, fun e he => ?_, fun v hv => absurd hv List.not_mem_nil⟩
    rw [hkept] at he
    exact absurd he List.not_mem_nil
  · exact ⟨h, rfl, fun e he => he, fun v hv => hv⟩

variable [Std.LawfulEqOrd κ]

/-- What is so of the layer at any point of a commit. -/
theorem sent_underway (h : c.layer.reclaimer.Sound) (hb : b.Sound) {visit : Visit}
    {done rest : Assoc κ (Option Value)} (hsends : b.sends visit = done ++ rest) :
    Soft.Sent (c.committing visit b) (c.opened visit b) done (c.underway visit b done) := by
  have hnodup : (Assoc.keys (done ++ rest)).Nodup := hsends ▸ hb.sends_nodup visit
  have hdone : (Assoc.keys ([] ++ done)).Nodup :=
    ((List.sublist_append_left done rest).map Prod.fst).nodup hnodup
  rw [underway_eq]
  exact Soft.sent_all (Soft.sent_nil (opened_spec h visit).1) done hdone

end Committing

/-! ## Lookups -/

/-- Of the values `written`, those under the keys `kept` are left and the others are dead, whether
or not their entries have been taken out. -/
structure Surviving (written : Assoc κ Value) (kept : List κ) (c : Custody κ (Table κ Handle)) :
    Prop where
  sound : c.layer.reclaimer.Sound
  left : ∀ k v, (k, v) ∈ written → k ∈ kept → (k, v) ∈ c.layer.reclaimer.kept ∧
    c.layer.below.entries[k]? = some (some (.ofValue v))
  lost : ∀ k v, (k, v) ∈ written → k ∉ kept → c.alive v = false ∧
    (c.layer.below.entries[k]? = some (some (.ofValue v)) ∨ c.layer.below.entries[k]? = none)

namespace Surviving

variable {written : Assoc κ Value} {kept : List κ} {c : Custody κ (Table κ Handle)} {k : κ}
  {v : Value}

/-- A lookup of a value that is left finds it, and brings it to the front. -/
theorem read_left (h : c.Surviving written kept) (hmem : (k, v) ∈ written) (hk : k ∈ kept)
    (visit : Visit) (hold : Bool) :
    (c.step visit (.read k hold)).past = (.read k hold, .found (some v)) :: c.past ∧
      (c.step visit (.read k hold)).Surviving written kept := by
  obtain ⟨hkept, hentry⟩ := h.left k v hmem hk
  have hlive : c.alive v = true := alive_of_keeps c (h.sound.keeps_iff.mpr ⟨k, hkept⟩)
  have hval : c.layer.below.value? k = some (.ofValue v) := Table.value?_eq hentry
  have hup : (Handle.ofValue v).upgrade (c.layer.alive (c.around visit)) = some v := by
    rw [Handle.upgrade_ofValue]
    exact if_pos hlive
  obtain ⟨retained, heq, hr⟩ :=
    Reclaimer.refresh_of_mem h.sound ((c.around visit).also c.layer.pinned) hkept v
  obtain ⟨-, hs⟩ :=
    Reclaimer.touch_settled h.sound ((c.around visit).also c.layer.pinned) hkept hr
  have hyields := Soft.read_yields_live hval hup
  rw [heq] at hyields
  rw [step, performFinding_eq hyields]
  refine ⟨rfl, hs.sound, fun k' v' hmem' hk' => ?_, fun k' v' hmem' hk' => ?_⟩
  · -- the key read moves to the front, and the others stay behind it
    obtain ⟨hkept', hentry'⟩ := h.left k' v' hmem' hk'
    refine ⟨?_, hentry'⟩
    show (k', v') ∈ retained.toList
    rw [hr.toList_eq]
    by_cases hne : k' = k
    · exact List.inj_on_of_nodup_map h.sound.kept_nodup hkept' hkept hne ▸ List.mem_cons_self
    · exact List.mem_cons_of_mem _ (Assoc.mem_erase.mpr ⟨hkept', hne⟩)
  · -- the value found is the only one that is pinned or held in addition, and it was alive
    obtain ⟨hdead, hentry'⟩ := h.lost k' v' hmem' hk'
    refine ⟨Bool.eq_false_iff.mpr fun hlive' => ne_true_of_eq_false hdead ?_, hentry'⟩
    exact alive_of_found rfl rfl (fun hw => .inr (hs.keeps_only v' hw)) hlive hlive'

variable [Std.LawfulEqOrd κ]

/-- A lookup of a value that is lost finds nothing, and takes its entry out if it is still there. -/
theorem read_lost (h : c.Surviving written kept) (hmem : (k, v) ∈ written) (hk : k ∉ kept)
    (visit : Visit) (hold : Bool) :
    (c.step visit (.read k hold)).past = (.read k hold, .found none) :: c.past ∧
      (c.step visit (.read k hold)).Surviving written kept := by
  obtain ⟨hdead, hentry | hentry⟩ := h.lost k v hmem hk
  · have hval : c.layer.below.value? k = some (.ofValue v) := Table.value?_eq hentry
    have hup : (Handle.ofValue v).upgrade (c.layer.alive (c.around visit)) = none := by
      rw [Handle.upgrade_ofValue]
      exact if_neg (ne_true_of_eq_false hdead)
    have hs := Reclaimer.forget_settled h.sound .alone k
    rw [step, performFinding_eq (Soft.read_yields_dead hval hup), held_found_none]
    refine ⟨rfl, hs.sound, fun k' v' hmem' hk' => ?_, fun k' v' hmem' hk' => ?_⟩
    · obtain ⟨hkept', hentry'⟩ := h.left k' v' hmem' hk'
      have hne : k' ≠ k := fun heq => hk (heq ▸ hk')
      constructor
      · show (k', v') ∈ (c.layer.reclaimer.forget k).kept
        rw [Reclaimer.kept_forget h.sound]
        exact Assoc.mem_erase.mpr ⟨hkept', hne⟩
      · rw [← hentry']
        exact (Table.getElem?_remove ..).trans (if_neg (Ne.symm hne))
    · obtain ⟨hdead', hentry'⟩ := h.lost k' v' hmem' hk'
      refine ⟨Bool.eq_false_iff.mpr fun hlive' => ne_true_of_eq_false hdead' ?_, ?_⟩
      · exact alive_of hlive' (alive_of_mem_held c) (alive_of_mem_pinned c) fun hkeeps =>
          alive_of_keeps c (hs.keeps_only v' hkeeps)
      · show (c.layer.below.remove k).entries[k']? = _ ∨
          (c.layer.below.remove k).entries[k']? = none
        rw [Table.getElem?_remove]
        split
        · exact .inr rfl
        · exact hentry'
  · have hval : c.layer.below.value? k = none := Table.value?_eq hentry
    rw [step, performFinding_eq (Soft.read_yields_absent hval), held_found_none]
    exact ⟨rfl, h.sound, h.left, h.lost⟩

/-- A lookup finds what is left, and changes nothing about that. -/
theorem read (h : c.Surviving written kept) (hnodup : written.keys.Nodup) (hk : k ∈ written.keys)
    (visit : Visit) (hold : Bool) :
    (c.step visit (.read k hold)).past =
        (.read k hold, .found (if k ∈ kept then Assoc.get? k written else none)) :: c.past ∧
      (c.step visit (.read k hold)).Surviving written kept := by
  obtain ⟨v, hmem⟩ := Assoc.mem_keys.mp hk
  split
  · rename_i hkept
    rw [(Assoc.get?_eq_some_iff hnodup).mpr hmem]
    exact h.read_left hmem hkept visit hold
  · rename_i hkept
    exact h.read_lost hmem hkept visit hold

/-- Lookups in any order. -/
theorem reads (h : c.Surviving written kept) (hnodup : written.keys.Nodup)
    (l : List (Visit × κ × Bool)) (hl : ∀ q ∈ l, q.2.1 ∈ written.keys) :
    (c.run (l.map fun q => (q.1, .read q.2.1 q.2.2))).past =
      (l.map fun q => (.read q.2.1 q.2.2,
        .found (if q.2.1 ∈ kept then Assoc.get? q.2.1 written else none))).reverse ++ c.past := by
  -- along the lookups, with the same keys left throughout
  induction l generalizing c with
  | nil => rfl
  | cons q l ih =>
    obtain ⟨hpast, hstep⟩ := h.read hnodup (hl q List.mem_cons_self) q.1 q.2.2
    have hrest := ih hstep fun q' hq' => hl q' (List.mem_cons_of_mem _ hq')
    rw [hpast] at hrest
    rw [List.map_cons, List.map_cons, List.reverse_cons, List.append_assoc]
    exact hrest

end Surviving

/-! ## After a commit -/

section Survivors

variable [Std.LawfulEqOrd κ] {c : Custody κ (Table κ Handle)} {b : Buffer κ Value} {visit : Visit}
  {k : κ}

/-- Retention has the values sent last, and nobody holds any other that was sent. -/
theorem surviving_commit (h : c.layer.reclaimer.Sound) (hb : b.Sound) (hsole : c.Sole b) :
    Surviving b.written (b.lastSent visit c.layer.reclaimer.softCapacity) { c with
      layer := c.underway visit b (b.sends visit)
      held := c.held.diff b.values } := by
  have hsent := sent_underway h hb (List.append_nil (b.sends visit)).symm
  obtain ⟨-, hcap, hopened, hpinned⟩ := opened_spec (b := b) h visit
  obtain ⟨old, hold, hkept⟩ := hsent.kept_eq
  rw [hcap] at hkept
  have hvalue : ∀ k v, (k, v) ∈ b.written → v ∈ b.values := fun k v hmem =>
    List.mem_map_of_mem hmem
  have hentry : ∀ k v, (k, v) ∈ b.written →
      (c.underway visit b (b.sends visit)).below.entries[k]? = some (some (.ofValue v)) := by
    intro k v hmem
    refine hsent.entry_eq k v ?_ ?_
    · simp [committing, Buffer.keeps_of_mem_values (hvalue k v hmem)]
    · exact List.mem_reverse.mp
        (Assoc.mem_valued.mp ((b.valued_sends_perm visit).mem_iff.mpr hmem))
  -- no entry has been taken out yet, so the two sorts of keys differ in what holds their values
  refine { sound := hsent.sound, left := fun k v hmem hk => ⟨?_, hentry k v hmem⟩,
           lost := fun k v hmem hk => ⟨?_, .inl (hentry k v hmem)⟩ }
  · obtain ⟨w, htake, hmem'⟩ := Buffer.exists_written_of_mem_lastSent hk
    rw [hkept]
    exact List.mem_append_left _
      (List.inj_on_of_nodup_map hb.written_nodup hmem' hmem rfl ▸ htake)
  · have hv := hvalue k v hmem
    refine Bool.eq_false_iff.mpr fun hlive => ?_
    rcases alive_iff.mp hlive with hheld | hpin | hkeeps
    · exact hsole.notin_others hv hheld
    · exact hsole.notin_pinned v hv (hpinned v (hsent.pinned_eq ▸ hpin))
    · obtain ⟨k', hmem'⟩ := hsent.sound.keeps_iff.mp hkeeps
      rw [hkept] at hmem'
      rcases List.mem_append.mp hmem' with htake | hmem'
      · -- the value was sent under one key only, and not among the last
        have hwritten := (b.valued_sends_perm visit).mem_iff.mp (List.mem_of_mem_take htake)
        have heq := List.inj_on_of_nodup_map hsole.values_nodup hwritten hmem rfl
        exact hk (Assoc.mem_keys_of_mem (heq ▸ htake))
      · have hbefore := h.keeps_iff.mpr ⟨k', hopened _ (hold _ hmem')⟩
        exact ne_true_of_eq_false (hsole.not_kept v hv) hbefore

/-- While a commit is under way, a value in the buffer is followed from when it is sent, and before
that if it was. -/
theorem tracked_underway (h : c.layer.reclaimer.Sound) (hb : b.Sound)
    {done rest : Assoc κ (Option Value)} (hsends : b.sends visit = done ++ rest) {v : Value}
    (hv : v ∈ b.values) (hmem : (k, some v) ∈ done ∨
      k ∉ done.keys ∧ b.clears = false ∧ c.layer.reclaimer.tracked k = some v) :
    (c.underway visit b done).reclaimer.tracked k = some v := by
  have hsent := sent_underway h hb hsends
  have hheld : (c.committing visit b).held v = true := by
    simp [committing, Buffer.keeps_of_mem_values hv]
  rcases hmem with hmem | ⟨hk, hclears, htracked⟩
  · exact hsent.sent_tracked k v hheld hmem
  · refine hsent.others_tracked k v hheld hk ?_
    rw [opened, if_neg (ne_true_of_eq_false hclears)]
    exact htracked

end Survivors

variable [Std.LawfulEqOrd κ]

/-- **As many values as fit outlast a commit.** Whatever was done with a soft layer before, let a
session commit whose buffer has values that are different ones and that nothing else holds. Whatever
else waits in the buffer and in whatever order things are visited, the commit succeeds and reclaims
none of the values on the way. Lookups of their keys, in any order and with nothing else in between,
then find the values of just as many keys as there are values or as retention has room for, if that
is less, and nothing under the others. -/
theorem commit_survivors {settings : SoftSettings} (hcap : 0 < settings.softCapacity)
    (name : String) :
    ∃ c₀ : Custody κ (Table κ Handle), start settings (Table.named name) = .ok c₀ ∧
      ∀ (acts : List (Visit × Act κ)) (b : Buffer κ Value) (visit : Visit),
        let c := c₀.run acts
        b.Sound → c.Sole b →
          ∃ c', c.commit visit b = (.ok (), {}, c') ∧
            c'.layer = c.underway visit b (b.sends visit) ∧
            (∀ done rest, b.sends visit = done ++ rest → ∀ k, ∀ v ∈ b.values,
              (k, some v) ∈ done ∨
                  k ∉ done.keys ∧ b.clears = false ∧ c.layer.reclaimer.tracked k = some v →
                (c.underway visit b done).reclaimer.tracked k = some v) ∧
            ∃ left : List κ, left.Nodup ∧ (∀ k ∈ left, k ∈ b.written.keys) ∧
              left.length = min b.values.length c.layer.reclaimer.softCapacity ∧
              ∀ reads : List (Visit × κ × Bool), (∀ q ∈ reads, q.2.1 ∈ b.written.keys) →
                (c'.run (reads.map fun q => (q.1, .read q.2.1 q.2.2))).past =
                  (reads.map fun q => (.read q.2.1 q.2.2,
                    .found (if q.2.1 ∈ left then Assoc.get? q.2.1 b.written else none))).reverse ++
                    c'.past := by
  obtain ⟨c₀, hstart, -⟩ := start_eq (κ := κ) hcap (Table.named name : Table κ Handle)
  refine ⟨c₀, hstart, fun acts b visit => ?_⟩
  intro c hb hsole
  have hsound : c.layer.reclaimer.Sound := (valid_run (valid_start hstart) acts).coherent.sound
  refine ⟨_, commit_eq visit, rfl, fun done rest hsends k v hv hmem => ?_,
    b.lastSent visit c.layer.reclaimer.softCapacity, hb.nodup_lastSent, fun k hk => ?_,
    Buffer.length_lastSent, ?_⟩
  · exact tracked_underway hsound hb hsends hv hmem
  · obtain ⟨v, -, hmem⟩ := Buffer.exists_written_of_mem_lastSent hk
    exact Assoc.mem_keys_of_mem hmem
  · exact (surviving_commit hsound hb hsole).reads hb.written_nodup

/-- Retention has room for one value. A value from before makes way for the first of the two in the
buffer, and that one for the second. -/
theorem commit_leaves_one :
    let a : Value := ⟨1, "a"⟩
    let b : Value := ⟨2, "b"⟩
    let buffer : Buffer Nat Value :=
      { pending := [(1, some a), (2, some b), (4, none)], missed := [3] }
    0 < 1 ∧ ∃ c₀ : Custody Nat (Table Nat Handle),
      start ⟨0, 1⟩ (Table.named "users") = .ok c₀ ∧
        let c := c₀.run ([.make "x", .write 9 ⟨0, "x"⟩, .make "a", .make "b"].map
          (Visit.asListed, ·))
        buffer.Sound ∧ c.Sole buffer ∧
          ∃ c', c.commit .asListed buffer = (.ok (), {}, c') ∧
            ∃ left : List Nat, left.length = 1 ∧
              (c'.run ([.read 1 false, .read 2 false].map (Visit.asListed, ·))).past =
                [(.read 2 false, .found (if 2 ∈ left then some b else none)),
                  (.read 1 false, .found (if 1 ∈ left then some a else none))] ++ c'.past := by
  intro a b buffer
  have hcap : 0 < (⟨0, 1⟩ : SoftSettings).softCapacity := by decide
  obtain ⟨c₀, hstart, h⟩ := commit_survivors (κ := Nat) hcap "users"
  refine ⟨hcap, c₀, hstart, ?_⟩
  intro c
  have hb : buffer.Sound := ⟨by decide, by decide⟩
  have hfacts : c.Sole buffer ∧ c.layer.reclaimer.softCapacity = 1 := by
    cases Except.ok.inj hstart
    exact ⟨⟨by decide, by decide +kernel, by decide +kernel, by decide +kernel⟩, by decide +kernel⟩
  obtain ⟨hsole, hroom⟩ := hfacts
  obtain ⟨c', hcommit, -, -, left, -, -, hlength, hreads⟩ := h _ buffer .asListed hb hsole
  refine ⟨hb, hsole, c', hcommit, left, ?_, ?_⟩
  · rw [hlength, hroom]
    rfl
  · exact hreads [(.asListed, 1, false), (.asListed, 2, false)] (by decide)

end Custody

end SoftTier
