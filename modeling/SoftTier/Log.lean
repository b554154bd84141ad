/-!
# Lines of the log

A line says which part of the program it comes from and what happened. What happened may quote text
from outside, and a terminal takes some control characters as commands, so those are written as
escapes and a line can be shown anywhere.

- `steers`: the characters that a terminal may take as commands.
- `escape`: a text with those characters written as escapes.
- `infoLine`: a line of the log.
- `not_steers_of_mem_escape`, `escape_eq_self`: no such character is left, and a text without one
  stays as it is.
-/

namespace SoftTier.Log

/-- Whether a terminal may take the character as a command: the bell, backspace, form feed, escape,
delete, and the control characters from U+0080 to U+009F. -/
def steers (c : Char) : Bool :=
  [0x07, 0x08, 0x0C, 0x1B, 0x7F].contains c.toNat || (0x80 ≤ c.toNat && c.toNat ≤ 0x9F)

/-- A number below 256 in two hexadecimal digits. -/
def twoDigits (n : Nat) : List Char := [Nat.digitChar (n / 16), Nat.digitChar (n % 16)]

/-- A character, or the escape that stands for it. -/
def escapeChar (c : Char) : List Char :=
  if steers c then
    if c.toNat < 0x80 then ['\\', 'x'] ++ twoDigits c.toNat
    else ['\\', 'u', '{'] ++ twoDigits c.toNat ++ ['}']
  else [c]

/-- A text with the characters that steer a terminal written as escapes. -/
def escape (l : List Char) : List Char := l.flatMap escapeChar

/-- A line of the log: the part of the program, what happened, and numbers by name. -/
def infoLine (part message : String) (counts : List (String × Nat)) : String :=
  "INFO " ++ part ++ ": " ++ .ofList (escape message.toList) ++
    String.join (counts.map fun (name, n) => " " ++ name ++ "=" ++ toString n)

/-! ## What escaping leaves -/

theorem steers_digitChar {n : Nat} (h : n < 16) : steers (Nat.digitChar n) = false :=
  (show ∀ n : Fin 16, steers (Nat.digitChar n.val) = false by decide) ⟨n, h⟩

/-- A character that steers a terminal has a number that two hexadecimal digits can write. -/
theorem toNat_lt_of_steers {c : Char} (h : steers c = true) : c.toNat < 256 := by
  simp only [steers, Bool.or_eq_true, List.contains_iff_mem, List.mem_cons, List.not_mem_nil,
    or_false, Bool.and_eq_true, decide_eq_true_eq] at h
  omega

theorem not_steers_of_mem_escapeChar {c d : Char} (h : d ∈ escapeChar c) : steers d = false := by
  unfold escapeChar at h
  split at h
  · rename_i hc
    have hlt := toNat_lt_of_steers hc
    have high := steers_digitChar (show c.toNat / 16 < 16 by omega)
    have low := steers_digitChar (show c.toNat % 16 < 16 by omega)
    split at h <;> simp only [twoDigits, List.cons_append, List.nil_append, List.mem_cons,
      List.not_mem_nil, or_false] at h
    · rcases h with rfl | rfl | rfl | rfl
      · decide
      · decide
      · exact high
      · exact low
    · rcases h with rfl | rfl | rfl | rfl | rfl | rfl
      · decide
      · decide
      · decide
      · exact high
      · exact low
      · decide
  · rw [List.mem_singleton] at h
    simp_all

/-- No character that steers a terminal is left. -/
theorem not_steers_of_mem_escape {l : List Char} {d : Char} (h : d ∈ escape l) :
    steers d = false := by
  obtain ⟨c, _, hd⟩ := List.mem_flatMap.1 h
  exact not_steers_of_mem_escapeChar hd

/-- A text without such characters stays as it is. -/
theorem escape_eq_self {l : List Char} (h : ∀ c ∈ l, steers c = false) : escape l = l := by
  induction l with
  | nil => rfl
  | cons c l ih =>
    have hc : escapeChar c = [c] := by simp [escapeChar, h c List.mem_cons_self]
    rw [escape, List.flatMap_cons, hc, List.singleton_append]
    exact congrArg (c :: ·) (ih fun d hd => h d (List.mem_cons_of_mem c hd))

end SoftTier.Log
