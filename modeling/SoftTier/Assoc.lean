/-!
# Association lists

A few entries under unique keys, in the order in which the keys came: the released values of a soft
layer, the writes a session has buffered, the tables of names. `Assoc.insert` overwrites in place,
so an unrepeated key stays unrepeated, and `get?` after any operation is told by one lemma each.
-/

namespace SoftTier

/-- Entries under keys, the oldest key first. -/
abbrev Assoc (κ α : Type) := List (κ × α)

namespace Assoc

variable {κ α : Type} [DecidableEq κ]

/-- The entry under a key. -/
def get? (k : κ) : Assoc κ α → Option α
  | [] => none
  | (k', a) :: l => if k' = k then some a else get? k l

/-- Whether a key has an entry. -/
def has (k : κ) (l : Assoc κ α) : Bool := (get? k l).isSome

/-- Puts an entry under a key, in place of the one that was there. -/
def insert (k : κ) (a : α) : Assoc κ α → Assoc κ α
  | [] => [(k, a)]
  | (k', b) :: l => if k' = k then (k', a) :: l else (k', b) :: insert k a l

/-- Takes a key out. -/
def erase (k : κ) (l : Assoc κ α) : Assoc κ α := l.filter fun e => e.1 ≠ k

/-- The keys, the oldest first. -/
def keys (l : Assoc κ α) : List κ := l.map (·.1)

@[simp] theorem get?_nil (k : κ) : get? k ([] : Assoc κ α) = none := rfl

theorem get?_insert (k k' : κ) (a : α) (l : Assoc κ α) :
    get? k' (insert k a l) = if k = k' then some a else get? k' l := by
  induction l with
  | nil => simp [insert, get?]
  | cons e l ih =>
    obtain ⟨k₁, b⟩ := e
    by_cases h : k₁ = k
    · subst h
      by_cases h' : k₁ = k' <;> simp [insert, get?, h']
    · by_cases h' : k₁ = k'
      · subst h'
        simp [insert, get?, h, Ne.symm h]
      · simp [insert, get?, h, h', ih]

theorem get?_erase (k k' : κ) (l : Assoc κ α) :
    get? k' (erase k l) = if k = k' then none else get? k' l := by
  induction l with
  | nil => simp [erase, get?]
  | cons e l ih =>
    obtain ⟨k₁, b⟩ := e
    simp only [erase] at ih
    by_cases h : k₁ = k
    · subst h
      by_cases h' : k₁ = k' <;> simp_all [erase, get?]
    · by_cases h' : k₁ = k'
      · subst h'
        simp [erase, get?, h, Ne.symm h]
      · simp_all [erase, get?]

end Assoc

end SoftTier
