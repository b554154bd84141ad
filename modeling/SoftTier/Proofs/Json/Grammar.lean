import SoftTier.Json.Token

/-!
# The grammar of JSON texts

Which texts there are, and what is written in them, told without a reader. A text is a list of
characters; a rule says how it is put together.

- `StringText s cs`: `cs` is a way to write the string `s`, with escapes wherever they are allowed.
- `Text .value cs`: `cs` is a well-formed value, whatever it holds. Its strings may have halves of
  surrogate pairs in them and its numbers may be of any size.
- `ObjectText ms cs`: `cs` is an object with the members `ms` in this order. Their keys are strings
  of characters, for a reader has to know what they say.
- `Writes ms name text a?`: how a field stands among members, if it does.
-/

namespace SoftTier.Json

/-- The characters that may stand around values, keys and marks. -/
def Blank (cs : List Char) : Prop := ∀ c ∈ cs, c ∈ [' ', '\t', '\n', '\r']

/-! ## Strings -/

/-- In a string the character stands for itself. -/
def Plain (c : Char) : Prop := ' ' ≤ c ∧ c ≠ '"' ∧ c ≠ '\\'

instance : DecidablePred Plain := fun c =>
  inferInstanceAs (Decidable (' ' ≤ c ∧ c ≠ '"' ∧ c ≠ '\\'))

/-- The characters that have an escape of one letter, each with the letter. -/
def letterEscapes : List (Char × Char) :=
  [('"', '"'), ('\\', '\\'), ('/', '/'), ('\x08', 'b'), ('\x0c', 'f'), ('\n', 'n'), ('\r', 'r'),
    ('\t', 't')]

/-- The character `d` is a hexadecimal digit of value `x`. -/
def HexDigit (x : Nat) (d : Char) : Prop :=
  "0123456789abcdef".toList[x]? = some d ∨ "0123456789ABCDEF".toList[x]? = some d

/-- The escape of a UTF-16 code unit. -/
inductive UnitEscape : Nat → List Char → Prop where
  | mk {x₃ x₂ x₁ x₀ : Nat} {d₃ d₂ d₁ d₀ : Char} (h₃ : HexDigit x₃ d₃) (h₂ : HexDigit x₂ d₂)
    (h₁ : HexDigit x₁ d₁) (h₀ : HexDigit x₀ d₀) :
    UnitEscape (((x₃ * 16 + x₂) * 16 + x₁) * 16 + x₀) ['\\', 'u', d₃, d₂, d₁, d₀]

/-- The ways to write a character in a string. One outside the first 2^16 is two code units. -/
inductive CharText (c : Char) : List Char → Prop where
  | plain (h : Plain c) : CharText c [c]
  | letter {e : Char} (h : (c, e) ∈ letterEscapes) : CharText c ['\\', e]
  | unit {es : List Char} (hc : c.toNat < 0x10000) (h : UnitEscape c.toNat es) : CharText c es
  | pair {es es' : List Char} (hc : 0x10000 ≤ c.toNat)
    (h : UnitEscape (0xD800 + (c.toNat - 0x10000) / 0x400) es)
    (h' : UnitEscape (0xDC00 + (c.toNat - 0x10000) % 0x400) es') : CharText c (es ++ es')

/-- The ways to write characters one after the other. -/
inductive CharsText : List Char → List Char → Prop where
  | nil : CharsText [] []
  | cons {c : Char} {s cs ds : List Char} (h : CharText c cs) (hs : CharsText s ds) :
    CharsText (c :: s) (cs ++ ds)

/-- The ways to write a string. -/
inductive StringText (s : String) : List Char → Prop where
  | mk {cs : List Char} (h : CharsText s.toList cs) : StringText s ('"' :: (cs ++ ['"']))

/-- What a well-formed string is made of. An escaped code unit need not be part of a character. -/
inductive PieceText : List Char → Prop where
  | plain {c : Char} (h : Plain c) : PieceText [c]
  | letter {c e : Char} (h : (c, e) ∈ letterEscapes) : PieceText ['\\', e]
  | unit {n : Nat} {es : List Char} (h : UnitEscape n es) : PieceText es

/-- Pieces one after the other. -/
inductive PiecesText : List Char → Prop where
  | nil : PiecesText []
  | cons {p ds : List Char} (h : PieceText p) (hs : PiecesText ds) : PiecesText (p ++ ds)

/-- The well-formed strings. -/
inductive AnyString : List Char → Prop where
  | mk {cs : List Char} (h : PiecesText cs) : AnyString ('"' :: (cs ++ ['"']))

/-! ## Numbers -/

/-- Decimal digits, one at least. -/
def Digits (ds : List Char) : Prop := ds ≠ [] ∧ ∀ d ∈ ds, d.isDigit = true

/-- Digits without a needless zero in front. -/
inductive IntegerText : List Char → Prop where
  | zero : IntegerText ['0']
  | digits {d : Char} {ds : List Char} (h : Digits (d :: ds)) (hd : d ≠ '0') :
    IntegerText (d :: ds)

/-- Nothing, or a point with digits. -/
inductive FractionText : List Char → Prop where
  | absent : FractionText []
  | present {ds : List Char} (h : Digits ds) : FractionText ('.' :: ds)

/-- Nothing, or the mark of an exponent with a sign or without one, and digits. -/
inductive ExponentText : List Char → Prop where
  | absent : ExponentText []
  | present {e : Char} {sign ds : List Char} (he : e ∈ ['e', 'E'])
    (hsign : sign ∈ [[], ['+'], ['-']]) (h : Digits ds) : ExponentText (e :: (sign ++ ds))

/-- The well-formed numbers. -/
inductive NumberText : List Char → Prop where
  | mk {sign int frac exp : List Char} (hsign : sign ∈ [[], ['-']]) (hint : IntegerText int)
    (hfrac : FractionText frac) (hexp : ExponentText exp) :
    NumberText (sign ++ (int ++ (frac ++ exp)))

/-- The way to write a natural number below 2^64: its digits. -/
def NaturalText (n : Nat) (cs : List Char) : Prop := n < UInt64.size ∧ cs = (toString n).toList

/-- The way to write a truth value. -/
def BoolText (b : Bool) (cs : List Char) : Prop := cs = (toString b).toList

/-! ## Values of any kind -/

/-- What a rule tells about: a value; a value with blanks around it, and several of them; a key with
such a value, and several of them. -/
inductive Part where
  | value
  | element
  | elements
  | member
  | members

/-- The well-formed texts of each part. -/
inductive Text : Part → List Char → Prop where
  | word {cs : List Char} (h : cs ∈ ["true".toList, "false".toList, "null".toList]) :
    Text .value cs
  | number {cs : List Char} (h : NumberText cs) : Text .value cs
  | string {cs : List Char} (h : AnyString cs) : Text .value cs
  | emptyArray {b : List Char} (hb : Blank b) : Text .value ('[' :: (b ++ [']']))
  | array {es : List Char} (h : Text .elements es) : Text .value ('[' :: (es ++ [']']))
  | emptyObject {b : List Char} (hb : Blank b) : Text .value ('\x7b' :: (b ++ ['\x7d']))
  | object {ms : List Char} (h : Text .members ms) : Text .value ('\x7b' :: (ms ++ ['\x7d']))
  | element {b v b' : List Char} (hb : Blank b) (h : Text .value v) (hb' : Blank b') :
    Text .element (b ++ (v ++ b'))
  | lastElement {e : List Char} (h : Text .element e) : Text .elements e
  | moreElements {e es : List Char} (h : Text .element e) (hs : Text .elements es) :
    Text .elements (e ++ ',' :: es)
  | member {b k b' e : List Char} (hb : Blank b) (hk : AnyString k) (hb' : Blank b')
    (h : Text .element e) : Text .member (b ++ (k ++ (b' ++ ':' :: e)))
  | lastMember {m : List Char} (h : Text .member m) : Text .members m
  | moreMembers {m ms : List Char} (h : Text .member m) (hs : Text .members ms) :
    Text .members (m ++ ',' :: ms)

/-! ## Objects with their members -/

/-- A member of an object: the string that is its key, and the text of its value. -/
structure Member where
  key : String
  value : List Char

/-- The ways to write a member: the key, a colon and the value, with blanks between them. -/
inductive MemberText (m : Member) : List Char → Prop where
  | mk {b₁ k b₂ b₃ b₄ : List Char} (h₁ : Blank b₁) (hk : StringText m.key k) (h₂ : Blank b₂)
    (h₃ : Blank b₃) (h₄ : Blank b₄) :
    MemberText m (b₁ ++ (k ++ (b₂ ++ ':' :: (b₃ ++ (m.value ++ b₄)))))

/-- The ways to write members in their order, with commas between them. -/
inductive MembersText : List Member → List Char → Prop where
  | last {m : Member} {cs : List Char} (h : MemberText m cs) : MembersText [m] cs
  | more {m : Member} {ms : List Member} {cs ds : List Char} (h : MemberText m cs)
    (hs : MembersText ms ds) : MembersText (m :: ms) (cs ++ ',' :: ds)

/-- The ways to write an object with these members. -/
inductive ObjectText : List Member → List Char → Prop where
  | empty {b : List Char} (hb : Blank b) : ObjectText [] ('\x7b' :: (b ++ ['\x7d']))
  | members {ms : List Member} {cs : List Char} (h : MembersText ms cs) :
    ObjectText ms ('\x7b' :: (cs ++ ['\x7d']))

/-- How the field `name` stands among members: not at all, or once and with a text for `a`, where
`text` tells which texts those are. -/
def Writes {α : Type} (ms : List Member) (name : String) (text : α → List Char → Prop) :
    Option α → Prop
  | none => ∀ m ∈ ms, m.key ≠ name
  | some a => ∃ ms₁ v ms₂, ms = ms₁ ++ ⟨name, v⟩ :: ms₂ ∧ text a v ∧
      ∀ m ∈ ms₁ ++ ms₂, m.key ≠ name

/-! ## There are such texts -/

theorem blank_nil : Blank [] := by simp [Blank]

/-- Plain characters may be written as they are. -/
theorem charsText_plain {s : List Char} (h : ∀ c ∈ s, Plain c) : CharsText s s := by
  induction s with
  | nil => exact .nil
  | cons c s ih =>
    obtain ⟨hc, hs⟩ := List.forall_mem_cons.mp h
    exact .cons (.plain hc) (ih hs)

theorem stringText_plain {s : String} (h : ∀ c ∈ s.toList, Plain c) :
    StringText s ('"' :: (s.toList ++ ['"'])) := ⟨charsText_plain h⟩

theorem exists_hexDigit {x : Nat} (hx : x < 16) : ∃ d, HexDigit x d :=
  ⟨_, .inl (List.getElem?_eq_getElem hx)⟩

theorem exists_unitEscape {n : Nat} (hn : n < 0x10000) : ∃ es, UnitEscape n es := by
  obtain ⟨d₃, h₃⟩ := exists_hexDigit (x := n / 4096) (by omega)
  obtain ⟨d₂, h₂⟩ := exists_hexDigit (x := n / 256 % 16) (by omega)
  obtain ⟨d₁, h₁⟩ := exists_hexDigit (x := n / 16 % 16) (by omega)
  obtain ⟨d₀, h₀⟩ := exists_hexDigit (x := n % 16) (by omega)
  have hcode : ((n / 4096 * 16 + n / 256 % 16) * 16 + n / 16 % 16) * 16 + n % 16 = n := by omega
  have h := UnitEscape.mk h₃ h₂ h₁ h₀
  rw [hcode] at h
  exact ⟨_, h⟩

/-- Every character can be written with escapes alone. -/
theorem exists_charText (c : Char) : ∃ cs, CharText c cs := by
  have hvalid : c.toNat < 0xD800 ∨ 0xDFFF < c.toNat ∧ c.toNat < 0x110000 := c.valid
  rcases Nat.lt_or_ge c.toNat 0x10000 with hc | hc
  · obtain ⟨es, h⟩ := exists_unitEscape hc
    exact ⟨es, .unit hc h⟩
  · obtain ⟨es, h⟩ := exists_unitEscape (n := 0xD800 + (c.toNat - 0x10000) / 0x400) (by omega)
    obtain ⟨es', h'⟩ := exists_unitEscape (n := 0xDC00 + (c.toNat - 0x10000) % 0x400) (by omega)
    exact ⟨es ++ es', .pair hc h h'⟩

theorem exists_charsText (s : List Char) : ∃ cs, CharsText s cs := by
  induction s with
  | nil => exact ⟨[], .nil⟩
  | cons c s ih =>
    obtain ⟨cs, h⟩ := exists_charText c
    obtain ⟨ds, hs⟩ := ih
    exact ⟨cs ++ ds, .cons h hs⟩

theorem exists_stringText (s : String) : ∃ cs, StringText s cs := by
  obtain ⟨cs, h⟩ := exists_charsText s.toList
  exact ⟨_, ⟨h⟩⟩

/-- A value needs no blanks around it. -/
theorem element_compact {v : List Char} (h : Text .value v) : Text .element v := by
  simpa using Text.element blank_nil h blank_nil

/-- A member may be written without blanks. -/
theorem memberText_compact {m : Member} {k : List Char} (h : StringText m.key k) :
    MemberText m (k ++ ':' :: m.value) := by
  simpa using MemberText.mk blank_nil h blank_nil blank_nil blank_nil

/-- The key of a member needs no escapes for plain characters. -/
theorem memberText_plain (key : String) (v : List Char) (h : ∀ c ∈ key.toList, Plain c) :
    MemberText ⟨key, v⟩ ('"' :: (key.toList ++ ['"']) ++ ':' :: v) :=
  memberText_compact (m := ⟨key, v⟩) (stringText_plain h)

/-- There is an object with whatever members. -/
theorem exists_objectText (ms : List Member) : ∃ cs, ObjectText ms cs := by
  have hmember : ∀ m : Member, ∃ cs, MemberText m cs := fun m => by
    obtain ⟨k, hk⟩ := exists_stringText m.key
    exact ⟨_, memberText_compact hk⟩
  have hmembers : ∀ m ms, ∃ cs, MembersText (m :: ms) cs := fun m ms => by
    induction ms generalizing m with
    | nil =>
      obtain ⟨cs, h⟩ := hmember m
      exact ⟨cs, .last h⟩
    | cons m' ms ih =>
      obtain ⟨cs, h⟩ := hmember m
      obtain ⟨ds, hs⟩ := ih m'
      exact ⟨_, .more h hs⟩
  cases ms with
  | nil => exact ⟨_, .empty blank_nil⟩
  | cons m ms =>
    obtain ⟨cs, h⟩ := hmembers m ms
    exact ⟨_, .members h⟩

/-! ## Fields among members -/

/-- Where there are no members, no field is written. -/
theorem Writes.eq_none {α : Type} {name : String} {text : α → List Char → Prop} {a? : Option α}
    (h : Writes [] name text a?) : a? = none := by
  cases a? with
  | none => rfl
  | some a =>
    obtain ⟨ms₁, v, ms₂, hms, -⟩ := h
    simp at hms

/-- If the first member is the field, no other is. -/
theorem Writes.head {α : Type} {m : Member} {ms : List Member} {name : String}
    {text : α → List Char → Prop} {a? : Option α} (h : Writes (m :: ms) name text a?)
    (hm : m.key = name) : (∃ a, a? = some a ∧ text a m.value) ∧ Writes ms name text none := by
  cases a? with
  | none => exact absurd hm (List.forall_mem_cons.mp h).1
  | some a =>
    obtain ⟨ms₁, v, ms₂, heq, htext, hother⟩ := h
    cases ms₁ with
    | nil =>
      obtain ⟨rfl, rfl⟩ := List.cons.inj heq
      exact ⟨⟨a, rfl, htext⟩, hother⟩
    | cons m' ms₁ =>
      obtain ⟨rfl, rfl⟩ := List.cons.inj heq
      exact absurd hm (List.forall_mem_cons.mp hother).1

/-- If the first member is not the field, the field stands among the others. -/
theorem Writes.tail {α : Type} {m : Member} {ms : List Member} {name : String}
    {text : α → List Char → Prop} {a? : Option α} (h : Writes (m :: ms) name text a?)
    (hm : m.key ≠ name) : Writes ms name text a? := by
  cases a? with
  | none => exact (List.forall_mem_cons.mp h).2
  | some a =>
    obtain ⟨ms₁, v, ms₂, heq, htext, hother⟩ := h
    cases ms₁ with
    | nil =>
      obtain ⟨rfl, rfl⟩ := List.cons.inj heq
      exact absurd rfl hm
    | cons m' ms₁ =>
      obtain ⟨rfl, rfl⟩ := List.cons.inj heq
      exact ⟨ms₁, v, ms₂, rfl, htext, (List.forall_mem_cons.mp hother).2⟩

end SoftTier.Json
