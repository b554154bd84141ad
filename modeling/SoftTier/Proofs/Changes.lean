import SoftTier.Proofs.Probe

/-!
# Changes asked of a store that may fail

A session ends by asking its store for a number of changes, one after the other. Over a store under
observation the first of them that fails ends the row, and what came before it stays done.

- `Change`: clearing a store, or putting a value or a miss under a key.
- `Faults.first`: the first failure among a row of calls.
- `Probe.change`: what becomes of a store that is asked for changes.
- `Probe.Makes`: an operation that asks for these changes and does nothing else.
-/

namespace SoftTier

/-- A change asked of a store; `none` puts a miss. -/
inductive Change (κ ν : Type) where
  | clear
  | put (k : κ) (entry : Option ν)

namespace Change

variable {κ ν : Type}

/-- The call by which the change is asked for. -/
def call : Change κ ν → Call κ
  | clear => .clear
  | put k (some _) => .write k
  | put k none => .writeMiss k

/-- What the change does to the entries. -/
def apply [Ord κ] [Std.TransOrd κ] (t : Table κ ν) : Change κ ν → Table κ ν
  | clear => { t with entries := ∅ }
  | put k entry => t.put k entry

theorem name_apply [Ord κ] [Std.TransOrd κ] (t : Table κ ν) (c : Change κ ν) :
    (c.apply t).name = t.name := by
  cases c <;> rfl

theorem name_foldl_apply [Ord κ] [Std.TransOrd κ] (cs : List (Change κ ν)) (t : Table κ ν) :
    (cs.foldl apply t).name = t.name := by
  induction cs generalizing t with
  | nil => rfl
  | cons c cs ih => exact (ih (c.apply t)).trans (name_apply t c)

section Entries

variable [DecidableEq κ] [Ord κ] [Std.TransOrd κ] [Std.LawfulEqOrd κ]

theorem getElem?_apply (c : Change κ ν) (t : Table κ ν) (k : κ) :
    (c.apply t).entries[k]? = match c with
      | clear => none
      | put k' entry => if k' = k then some entry else t.entries[k]? := by
  cases c with
  | clear => exact Std.ExtTreeMap.getElem?_empty
  | put k' entry => exact Table.getElem?_put k' k entry t

/-- What changes make of a key depends on no other key. -/
theorem foldl_apply_congr (cs : List (Change κ ν)) {t t' : Table κ ν} {k : κ}
    (h : t.entries[k]? = t'.entries[k]?) :
    (cs.foldl apply t).entries[k]? = (cs.foldl apply t').entries[k]? := by
  induction cs generalizing t t' with
  | nil => exact h
  | cons c cs ih =>
    refine ih ?_
    rw [getElem?_apply, getElem?_apply, h]

/-- An entry that is there after changes was put by one of them or was there before. -/
theorem entry_of_foldl_apply {cs : List (Change κ ν)} {t : Table κ ν} {k : κ} {entry : Option ν}
    (h : (cs.foldl apply t).entries[k]? = some entry) :
    t.entries[k]? = some entry ∨ put k entry ∈ cs := by
  induction cs generalizing t with
  | nil => exact .inl h
  | cons c cs ih =>
    rcases ih h with hentry | hmem
    · rw [getElem?_apply] at hentry
      cases c with
      | clear => exact absurd hentry (by simp)
      | put k' entry' =>
        dsimp only at hentry
        split at hentry
        · rename_i heq
          cases hentry
          exact .inr (heq ▸ List.mem_cons_self)
        · exact .inl hentry
    · exact .inr (List.mem_cons_of_mem c hmem)

/-- An entry outlasts changes that neither clear nor put anything under its key. -/
theorem foldl_apply_untouched {cs : List (Change κ ν)} {k : κ} (hclear : clear ∉ cs)
    (hput : ∀ entry, put k entry ∉ cs) (t : Table κ ν) :
    (cs.foldl apply t).entries[k]? = t.entries[k]? := by
  induction cs generalizing t with
  | nil => rfl
  | cons c cs ih =>
    have hrest := ih (fun hmem => hclear (List.mem_cons_of_mem c hmem))
      fun entry hmem => hput entry (List.mem_cons_of_mem c hmem)
    rw [List.foldl_cons, hrest, getElem?_apply]
    cases c with
    | clear => exact absurd List.mem_cons_self hclear
    | put k' entry =>
      refine if_neg ?_
      rintro rfl
      exact hput entry List.mem_cons_self

end Entries

end Change

namespace Faults

variable {κ : Type} (faults : Faults κ)

/-- The failure of the first among some calls that fails. There have been `n` calls before. -/
def first : Nat → List (Call κ) → Option Failure
  | _, [] => none
  | n, c :: cs => (faults n c).or (first (n + 1) cs)

theorem first_append (n : Nat) (cs cs' : List (Call κ)) :
    first faults n (cs ++ cs') = (first faults n cs).or (first faults (n + cs.length) cs') := by
  induction cs generalizing n with
  | nil => rfl
  | cons c cs ih =>
    have hlen : n + (c :: cs).length = n + 1 + cs.length := by
      rw [List.length_cons]
      omega
    rw [List.cons_append, first, first, ih, hlen, Option.or_assoc]

/-- What someone is told for whom the failure, if there is one, is the answer. -/
def answer : Option Failure → Except Failure Unit
  | some e => .error e
  | none => .ok ()

end Faults

namespace Probe

variable {κ ν : Type} [DecidableEq κ] [Ord κ] [Std.TransOrd κ]

/-- The store when it has made a change. -/
def changed (p : Probe κ ν) (c : Change κ ν) : Probe κ ν :=
  match c with
  | .clear => { p.noted .clear with table := { p.table with entries := ∅ } }
  | .put k entry => (p.noted (Change.put k entry).call).stored k entry

theorem table_changed (p : Probe κ ν) (c : Change κ ν) : (p.changed c).table = c.apply p.table := by
  cases c <;> rfl

theorem faults_changed (p : Probe κ ν) (c : Change κ ν) : (p.changed c).faults = p.faults := by
  cases c <;> rfl

theorem count_changed (p : Probe κ ν) (c : Change κ ν) : (p.changed c).count = p.count + 1 := by
  cases c <;> rfl

/-- Asks for changes one after the other, up to the first failure. -/
def change : List (Change κ ν) → Probe κ ν → Except Failure Unit × Probe κ ν
  | [], p => (.ok (), p)
  | c :: cs, p =>
    match p.faults p.count c.call with
    | some e => (.error e, p.noted c.call)
    | none => change cs (p.changed c)

theorem faults_change (cs : List (Change κ ν)) (p : Probe κ ν) :
    (p.change cs).2.faults = p.faults := by
  induction cs generalizing p with
  | nil => rfl
  | cons c cs ih =>
    rw [change]
    split
    · rfl
    · rw [ih, faults_changed]

/-- Changes asked for in two rows. -/
theorem change_append (cs cs' : List (Change κ ν)) (p : Probe κ ν) :
    p.change (cs ++ cs') =
      match p.change cs with
      | (.ok (), p') => p'.change cs'
      | (.error e, p') => (.error e, p') := by
  induction cs generalizing p with
  | nil => rfl
  | cons c cs ih =>
    rw [List.cons_append, change, change]
    split
    · rfl
    · exact ih _

/-- The failure is that of the first call that fails. -/
theorem change_result (cs : List (Change κ ν)) (p : Probe κ ν) :
    (p.change cs).1 = Faults.answer (p.faults.first p.count (cs.map Change.call)) := by
  induction cs generalizing p with
  | nil => rfl
  | cons c cs ih =>
    rw [change, List.map_cons, Faults.first]
    cases hfault : p.faults p.count c.call with
    | some e => rfl
    | none =>
      rw [Option.none_or]
      dsimp only
      rw [ih, faults_changed, count_changed]

/-- The changes of a row that are made: those before the first failure. -/
def made : List (Change κ ν) → Probe κ ν → List (Change κ ν)
  | [], _ => []
  | c :: cs, p =>
    match p.faults p.count c.call with
    | some _ => []
    | none => c :: made cs (p.changed c)

/-- A row is what is made of it and, unless that is all, a change that fails and those after it. -/
theorem made_append (cs : List (Change κ ν)) (p : Probe κ ν) :
    ∃ left, cs = p.made cs ++ left ∧ (left = [] ∧ (p.change cs).1 = .ok () ∨
      ∃ c rest e, left = c :: rest ∧ p.faults (p.count + (p.made cs).length) c.call = some e ∧
        (p.change cs).1 = .error e) := by
  induction cs generalizing p with
  | nil => exact ⟨[], rfl, .inl ⟨rfl, rfl⟩⟩
  | cons c cs ih =>
    rw [made, change]
    cases hfault : p.faults p.count c.call with
    | some e => exact ⟨c :: cs, rfl, .inr ⟨c, cs, e, rfl, hfault, rfl⟩⟩
    | none =>
      obtain ⟨left, hrow, hends⟩ := ih (p.changed c)
      refine ⟨left, congrArg (c :: ·) hrow, hends.imp_right ?_⟩
      rintro ⟨c', rest, e, hleft, hfault', hresult⟩
      have hcount : (p.changed c).count + (made cs (p.changed c)).length =
          p.count + (c :: made cs (p.changed c)).length := by
        rw [count_changed, List.length_cons]
        omega
      rw [faults_changed, hcount] at hfault'
      exact ⟨c', rest, e, hleft, hfault', hresult⟩

/-- The entries after a row are those that the changes made leave. -/
theorem table_change (cs : List (Change κ ν)) (p : Probe κ ν) :
    (p.change cs).2.table = (p.made cs).foldl Change.apply p.table := by
  induction cs generalizing p with
  | nil => rfl
  | cons c cs ih =>
    rw [change, made]
    split
    · rfl
    · rw [ih, table_changed]
      rfl

theorem name_change (cs : List (Change κ ν)) (p : Probe κ ν) :
    (p.change cs).2.table.name = p.table.name := by
  rw [table_change]
  exact Change.name_foldl_apply ..

/-- A store without failures makes every change. -/
theorem change_ok (cs : List (Change κ ν)) {p : Probe κ ν}
    (hp : ∀ count c, p.faults count c = none) : (p.change cs).1 = .ok () := by
  obtain ⟨left, -, ⟨-, hok⟩ | ⟨c, rest, e, -, hfault, -⟩⟩ := made_append cs p
  · exact hok
  · exact absurd ((hp _ _).symm.trans hfault) nofun

/-- If no change fails, all of them are made. -/
theorem change_table {cs : List (Change κ ν)} {p : Probe κ ν} (hok : (p.change cs).1 = .ok ()) :
    (p.change cs).2.table = cs.foldl Change.apply p.table := by
  obtain ⟨left, hrow, ⟨rfl, -⟩ | ⟨c, rest, e, -, -, herror⟩⟩ := made_append cs p
  · rw [List.append_nil] at hrow
    rw [table_change, ← hrow]
  · exact absurd (hok.symm.trans herror) (by simp)

/-- A key is freed by every change that puts something under it. -/
theorem mem_blocked_changed {c : Change κ ν} {p : Probe κ ν} {k : κ} :
    k ∈ (p.changed c).blocked ↔ k ∈ p.blocked ∧ ∀ entry, .put k entry ≠ c := by
  cases c with
  | clear =>
    have hne : ∀ entry : Option ν, Change.put k entry ≠ .clear := fun entry => nofun
    exact (and_iff_left hne).symm
  | put k' entry =>
    show k ∈ p.blocked.filter (· ≠ k') ↔ _
    rw [List.mem_filter, decide_eq_true_eq]
    refine and_congr_right' ⟨fun hne entry' heq => ?_, fun hput heq => ?_⟩
    · cases heq
      exact hne rfl
    · exact hput entry (heq ▸ rfl)

theorem mem_blocked_change {cs : List (Change κ ν)} {p : Probe κ ν} {k : κ} :
    k ∈ (p.change cs).2.blocked ↔ k ∈ p.blocked ∧ ∀ entry, .put k entry ∉ p.made cs := by
  induction cs generalizing p with
  | nil => exact (and_iff_left fun _ => List.not_mem_nil).symm
  | cons c cs ih =>
    rw [change, made]
    split
    · exact (and_iff_left fun _ => List.not_mem_nil).symm
    · simp only [ih, mem_blocked_changed, List.mem_cons, not_or, forall_and, and_assoc, ne_eq]

/-- What each change keeps is kept, whichever of them are made. -/
theorem change_keeps {cs : List (Change κ ν)} {p : Probe κ ν} {kept : Table κ ν → Prop}
    (hkeep : ∀ c ∈ cs, ∀ t, kept t → kept (c.apply t)) (hp : kept p.table) :
    kept (p.change cs).2.table := by
  induction cs generalizing p with
  | nil => exact hp
  | cons c cs ih =>
    rw [change]
    split
    · exact hp
    · refine ih (fun c' hc' => hkeep c' (List.mem_cons_of_mem c hc')) ?_
      rw [table_changed]
      exact hkeep c List.mem_cons_self _ hp

/-! ## Operations that ask for changes -/

variable {env : Ambient}

/-- The operation asks for these changes and does nothing else. -/
def Makes (x : Op (Probe κ ν) Unit) (env : Ambient) (cs : List (Change κ ν)) : Prop :=
  ∀ p, x.Leaves env p fun r p' => (r, p') = p.change cs

theorem makes_pure : Makes (pure () : Op (Probe κ ν) Unit) env [] := fun _ => rfl

theorem makes_one {x : Op (Probe κ ν) Unit} {c : Change κ ν}
    (hx : ∀ p, Answers x c.call env p () (p.changed c)) : Makes x env [c] := by
  intro p
  refine (hx p).leaves (fun e he => ?_) (fun hnone => ?_)
  · rw [change, he]
  · rw [change, hnone]
    rfl

theorem Makes.bind {x y : Op (Probe κ ν) Unit} {cs cs' : List (Change κ ν)} (hx : Makes x env cs)
    (hy : Makes y env cs') : Makes (x >>= fun _ => y) env (cs ++ cs') := by
  intro p
  refine (hx p).bind ?_ ?_
  · intro u p' hp'
    refine (hy p').imp fun r p'' hp'' => ?_
    rw [hp'', change_append, ← hp']
  · intro e p' hp'
    rw [change_append, ← hp']

/-- A step that only looks around asks for nothing. -/
theorem Makes.of_yields {α : Type} {x : Op (Probe κ ν) α} {f : α → Op (Probe κ ν) Unit} {a : α}
    {cs : List (Change κ ν)} (hx : ∀ p, x.Yields env p a p) (hf : Makes (f a) env cs) :
    Makes (x >>= f) env cs := fun p => (hx p).bind_leaves (hf p)

theorem makes_each {α : Type} {f : α → Op (Probe κ ν) Unit} {g : α → Change κ ν}
    (hf : ∀ a, Makes (f a) env [g a]) (l : List α) : Makes (Op.each f l) env (l.map g) := by
  induction l with
  | nil => exact makes_pure
  | cons a l ih =>
    rw [Op.each_cons]
    exact (hf a).bind ih

end Probe

end SoftTier
