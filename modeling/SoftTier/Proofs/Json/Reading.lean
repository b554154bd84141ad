import SoftTier.Json.Reader
import SoftTier.Proofs.Json.Cutting

/-!
# How texts of the grammar are read

What a reader takes off the tokens of a text. Skipping passes over every well-formed value, and a
record takes its fields from the members of an object wherever they stand.

- `Takes reader cs a`: the reader takes the text `cs` for `a` and leaves what follows.
- `Text.skips`: a well-formed value of any kind is passed over.
- `TakesAll fields s ms s'`: members are read one after the other.
- `ObjectText.takes`: an object is read as its members are.
-/

namespace SoftTier.Json

/-- The reader takes the text for `a`, whatever tokens follow, and leaves those. -/
def Takes {α : Type} (reader : Reader α) (cs : List Char) (a : α) : Prop :=
  ∃ ts, Cuts cs ts ∧ ∀ rest, reader (ts ++ rest) = some (a, rest)

variable {cs : List Char} {ts : List Token}

/-! ## Values without parts -/

/-- What is made of the value that is read plays no part in how it is read. -/
theorem Takes.map {α β : Type} {reader : Reader α} {a : α} (h : Takes reader cs a) (f : α → β) :
    Takes (fun tokens => do
      let (a, rest) ← reader tokens
      return (f a, rest)) cs (f a) := by
  obtain ⟨ts, hts, hread⟩ := h
  refine ⟨ts, hts, fun rest => ?_⟩
  dsimp only
  rw [hread]
  rfl

/-- A text that holds one value and nothing but blanks around it is read as this value. -/
theorem Takes.parse? {α : Type} {reader : Reader α} {a : α} {b b' : List Char}
    (h : Takes reader cs a) (hb : Blank b) (hb' : Blank b') {text : String}
    (htext : text.toList = b ++ (cs ++ b')) : parse? reader text = some a := by
  obtain ⟨ts, hts, hread⟩ := h
  have htokens : Token.ofText? text = some ts :=
    Cuts.ofText? (htext ▸ Cuts.blank_append hb (hts.append_blank hb'))
  have hall : reader ts = some (a, []) := by simpa using hread []
  rw [Json.parse?, htokens]
  show (reader ts >>= fun p => if p.2.isEmpty then some p.1 else none) = some a
  rw [hall]
  rfl

theorem takes_string {s : String} (h : StringText s cs) : Takes string cs s :=
  ⟨_, (cutsOff_string h).cuts, fun _ => rfl⟩

theorem takes_natural {n : Nat} (h : NaturalText n cs) : Takes natural cs n :=
  ⟨_, cuts_natural h, fun _ => rfl⟩

theorem takes_bool {b : Bool} (h : BoolText b cs) : Takes bool cs b :=
  ⟨_, cuts_bool h, fun _ => rfl⟩

/-! ## Skipping a value -/

/-- What skipping makes of the tokens that follow, when nothing or so much is to come. -/
def skipOn (rest : List Token) : Option (Expect × List Frame) → Option (List Token)
  | none => some rest
  | some (expect, frames) => skipFrom expect frames rest

/-- What skipping makes of the tokens that follow a value inside of `frames`. -/
def resume (frames : List Frame) (rest : List Token) : Option (List Token) :=
  skipOn rest (afterValue frames)

theorem skipFrom_closeArray (frames : List Frame) (rest : List Token) :
    skipFrom .commaOrClose (.array :: frames) (.closeArray :: rest) = resume frames rest := by
  cases frames <;> rfl

theorem skipFrom_closeObject (frames : List Frame) (rest : List Token) :
    skipFrom .commaOrClose (.object :: frames) (.closeObject :: rest) = resume frames rest := by
  cases frames <;> rfl

/-- Where a value may begin. -/
def Expect.OpensValue (e : Expect) : Prop := e = .value ∨ e = .valueOrClose

/-- Where a key may stand. -/
def Expect.OpensKey (e : Expect) : Prop := e = .key ∨ e = .keyOrClose

/-- Skipping passes over these tokens of a part, wherever it may stand. -/
def Passes : Part → List Token → Prop
  | .value, ts | .element, ts => ∀ expect : Expect, expect.OpensValue → ∀ frames rest,
    skipFrom expect frames (ts ++ rest) = resume frames rest
  | .elements, ts => ∀ expect : Expect, expect.OpensValue → ∀ frames rest,
    skipFrom expect (.array :: frames) (ts ++ .closeArray :: rest) = resume frames rest
  | .member, ts => ∀ expect : Expect, expect.OpensKey → ∀ frames rest,
    skipFrom expect (.object :: frames) (ts ++ rest) =
      skipFrom .commaOrClose (.object :: frames) rest
  | .members, ts => ∀ expect : Expect, expect.OpensKey → ∀ frames rest,
    skipFrom expect (.object :: frames) (ts ++ .closeObject :: rest) = resume frames rest

/-- A token that begins a value does so wherever a value may begin. -/
theorem skipFrom_beginValue {expect : Expect} (he : expect.OpensValue) {frames : List Frame}
    {t : Token} {next : Option (Expect × List Frame)} (h : beginValue? frames t = some next)
    (rest : List Token) : skipFrom expect frames (t :: rest) = skipOn rest next := by
  have ht : skipToken? expect frames t = some next := by
    rcases he with rfl | rfl <;> cases t <;> first | exact h | exact absurd h nofun
  rw [skipFrom, ht]
  cases next <;> rfl

/-- A token that is a value by itself is passed over. -/
theorem passes_token {t : Token} (h : ∀ frames, beginValue? frames t = some (afterValue frames)) :
    Passes .value [t] := by
  intro expect he frames rest
  exact skipFrom_beginValue he (h frames) rest

/-- The texts of every part are cut into tokens that skipping passes over. -/
theorem Text.cuts_passes {part : Part} (h : Text part cs) : ∃ ts, Cuts cs ts ∧ Passes part ts := by
  induction h with
  | word h =>
    fin_cases h
    · exact ⟨_, cuts_true, passes_token fun _ => rfl⟩
    · exact ⟨_, cuts_false, passes_token fun _ => rfl⟩
    · exact ⟨_, cuts_null, passes_token fun _ => rfl⟩
  | number h =>
    obtain ⟨value, h⟩ := cuts_number h
    exact ⟨_, h, passes_token fun _ => rfl⟩
  | string h =>
    obtain ⟨s, h⟩ := cutsOff_anyString h
    exact ⟨_, h.cuts, passes_token fun _ => rfl⟩
  | emptyArray hb =>
    refine ⟨_, (cuts_array (cutsOff_blank hb).cuts).cuts, fun expect he frames rest => ?_⟩
    refine (skipFrom_beginValue he rfl _).trans ?_
    cases frames <;> rfl
  | array _ ih =>
    obtain ⟨ts, hts, hpass⟩ := ih
    refine ⟨_, (cuts_array hts).cuts, fun expect he frames rest => ?_⟩
    rw [List.cons_append, List.append_assoc]
    refine (skipFrom_beginValue he rfl _).trans ?_
    exact hpass .valueOrClose (.inr rfl) frames rest
  | emptyObject hb =>
    refine ⟨_, (cuts_object (cutsOff_blank hb).cuts).cuts, fun expect he frames rest => ?_⟩
    refine (skipFrom_beginValue he rfl _).trans ?_
    cases frames <;> rfl
  | object _ ih =>
    obtain ⟨ts, hts, hpass⟩ := ih
    refine ⟨_, (cuts_object hts).cuts, fun expect he frames rest => ?_⟩
    rw [List.cons_append, List.append_assoc]
    refine (skipFrom_beginValue he rfl _).trans ?_
    exact hpass .keyOrClose (.inr rfl) frames rest
  | element hb _ hb' ih =>
    obtain ⟨ts, hts, hpass⟩ := ih
    exact ⟨ts, Cuts.blank_append hb (hts.append_blank hb'), hpass⟩
  | lastElement _ ih =>
    obtain ⟨ts, hts, hpass⟩ := ih
    refine ⟨ts, hts, fun expect he frames rest => ?_⟩
    exact (hpass expect he _ _).trans (skipFrom_closeArray frames rest)
  | moreElements _ _ ih ihs =>
    obtain ⟨ts, hts, hpass⟩ := ih
    obtain ⟨us, hus, hmore⟩ := ihs
    refine ⟨_, hts.append_comma hus, fun expect he frames rest => ?_⟩
    rw [List.append_assoc]
    exact (hpass expect he _ _).trans (hmore .value (.inl rfl) frames rest)
  | member hb hk hb' _ ih =>
    obtain ⟨s, hs⟩ := cutsOff_anyString hk
    obtain ⟨ts, hts, hpass⟩ := ih
    refine ⟨_, cuts_member hb hs hb' hts, fun expect he frames rest => ?_⟩
    rcases he with rfl | rfl <;> exact hpass .value (.inl rfl) (.object :: frames) rest
  | lastMember _ ih =>
    obtain ⟨ts, hts, hpass⟩ := ih
    refine ⟨ts, hts, fun expect he frames rest => ?_⟩
    exact (hpass expect he _ _).trans (skipFrom_closeObject frames rest)
  | moreMembers _ _ ih ihs =>
    obtain ⟨ts, hts, hpass⟩ := ih
    obtain ⟨us, hus, hmore⟩ := ihs
    refine ⟨_, hts.append_comma hus, fun expect he frames rest => ?_⟩
    rw [List.append_assoc]
    exact (hpass expect he _ _).trans (hmore .key (.inl rfl) frames rest)

/-- A well-formed value is passed over, whatever it holds. -/
theorem Text.skips (h : Text .value cs) :
    ∃ ts, Cuts cs ts ∧ ∀ rest, skip (ts ++ rest) = some rest := by
  obtain ⟨ts, hts, hpass⟩ := h.cuts_passes
  exact ⟨ts, hts, hpass .value (.inl rfl) []⟩

/-! ## Records -/

variable {σ : Type}

/-- Reads the value of a member: into the field that the key names, or past it. -/
def memberReader (fields : List (Field σ)) (s : σ) (key : String) : Reader σ := fun tokens =>
  match fields.find? (·.name == key) with
  | some field => field.read s tokens
  | none => (s, ·) <$> skip tokens

theorem members_succ (fields : List (Field σ)) (fuel : Nat) (s : σ) (key : String)
    (tokens : List Token) :
    members fields (fuel + 1) s (.text (some key) :: .colon :: tokens) = (do
      let (s, rest) ← memberReader fields s key tokens
      match rest with
      | .comma :: rest => members fields fuel s rest
      | .closeObject :: rest => some (s, rest)
      | _ => none) := by
  rw [members, memberReader]
  cases fields.find? (·.name == key) <;> rfl

/-- Members are read one after the other, which leads from `s` to `s'`. -/
inductive TakesAll (fields : List (Field σ)) : σ → List Member → σ → Prop where
  | nil (s : σ) : TakesAll fields s [] s
  | cons {s s₁ s' : σ} {m : Member} {ms : List Member}
    (h : Takes (memberReader fields s m.key) m.value s₁) (hs : TakesAll fields s₁ ms s') :
    TakesAll fields s (m :: ms) s'

variable {fields : List (Field σ)} {s s' : σ} {ms : List Member}

/-- A member that is no field changes nothing. -/
theorem takes_other {key : String} (hkey : fields.find? (·.name == key) = none)
    (h : Text .value cs) : Takes (memberReader fields s key) cs s := by
  obtain ⟨ts, hts, hskip⟩ := h.skips
  refine ⟨ts, hts, fun rest => ?_⟩
  rw [memberReader, hkey]
  dsimp only
  rw [hskip]
  rfl

/-- A member that is a field not read so far sets it. -/
theorem takes_once {α : Type} {key name : String} {get : σ → Option α} {set : α → σ → σ}
    {value : Reader α} {a : α}
    (hkey : fields.find? (·.name == key) = some (.once name get set value)) (hget : get s = none)
    (h : Takes value cs a) : Takes (memberReader fields s key) cs (set a s) := by
  obtain ⟨ts, hts, hvalue⟩ := h
  refine ⟨ts, hts, fun rest => ?_⟩
  rw [memberReader, hkey]
  dsimp only [Field.once]
  rw [hget]
  dsimp only
  rw [hvalue]
  rfl

theorem MemberText.cuts {m : Member} (h : MemberText m cs) (hv : Cuts m.value ts) :
    Cuts cs (.text (some m.key) :: .colon :: ts) := by
  cases h with
  | mk h₁ hk h₂ h₃ h₄ =>
    exact cuts_member h₁ (cutsOff_string hk) h₂ (Cuts.blank_append h₃ (hv.append_blank h₄))

/-- Members are read as far as the end of the object. -/
theorem MembersText.reads (h : MembersText ms cs) (hall : TakesAll fields s ms s') :
    ∃ key ts, Cuts cs (.text (some key) :: ts) ∧ ms.length ≤ ts.length ∧ ∀ fuel rest,
      ms.length ≤ fuel →
      members fields fuel s (.text (some key) :: ts ++ .closeObject :: rest) = some (s', rest) := by
  induction h generalizing s with
  | last h =>
    cases hall with
    | cons hm hs =>
      cases hs
      obtain ⟨ts, hts, hread⟩ := hm
      refine ⟨_, _, h.cuts hts, by simp, fun fuel rest hfuel => ?_⟩
      obtain ⟨fuel, rfl⟩ := Nat.exists_eq_add_one.mpr hfuel
      show members fields (fuel + 1) s (.text _ :: .colon :: (ts ++ .closeObject :: rest)) = _
      rw [members_succ, hread]
      rfl
  | @more m _ _ _ h _ ih =>
    cases hall with
    | cons hm hs =>
      obtain ⟨ts, hts, hread⟩ := hm
      obtain ⟨key, us, hus, hlen, hrest⟩ := ih hs
      refine ⟨m.key, .colon :: (ts ++ .comma :: .text (some key) :: us),
        (h.cuts hts).append_comma hus, by simp; omega, fun fuel rest hfuel => ?_⟩
      obtain ⟨fuel, rfl⟩ := Nat.exists_eq_add_one.mpr (Nat.zero_lt_of_lt hfuel)
      rw [List.cons_append, List.cons_append, List.append_assoc, members_succ, hread]
      exact hrest fuel rest (by simpa using hfuel)

/-- An object is read as its members are. -/
theorem ObjectText.takes (h : ObjectText ms cs) (hall : TakesAll fields s ms s') :
    Takes (record fields s) cs s' := by
  cases h with
  | empty hb =>
    cases hall
    exact ⟨_, (cuts_object (cutsOff_blank hb).cuts).cuts, fun _ => rfl⟩
  | members h =>
    obtain ⟨key, ts, hts, hlen, hread⟩ := h.reads hall
    refine ⟨_, (cuts_object hts).cuts, fun rest => ?_⟩
    rw [List.cons_append, List.append_assoc]
    -- there are more tokens than members
    exact hread _ rest (by simp; omega)

end SoftTier.Json
