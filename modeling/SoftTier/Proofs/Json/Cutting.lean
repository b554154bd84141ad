import Mathlib.Tactic.FinCases
import Mathlib.Tactic.IntervalCases
import SoftTier.Proofs.Json.Grammar

/-!
# How texts of the grammar are cut into tokens

The machine takes a text character by character, so a text that is put together of others is cut
into the tokens of these, one after the other. Only where a number or a word ends does it matter
what comes next: the machine knows the end of it by the delimiter that follows.

- `CutsOff cs ts`: from between tokens, `cs` is cut into `ts` and leaves the machine between tokens.
- `Cuts cs ts`: the same, but the last token may be one that the next delimiter ends.
- `cuts_array`, `cuts_member`, ...: texts put together with marks.
- `cutsOff_string`, `cuts_bool`, `cuts_number`, `cuts_natural`: values without parts.
-/

namespace SoftTier.Json

/-- What ends a number or a word. -/
def Delimiter (c : Char) : Prop := c ∈ [' ', '\t', '\n', '\r', ',', ']', '\x7d']

instance : DecidablePred Delimiter := fun c =>
  inferInstanceAs (Decidable (c ∈ [' ', '\t', '\n', '\r', ',', ']', '\x7d']))

theorem Delimiter.isLower_eq {d : Char} (h : Delimiter d) : d.isLower = false := by
  rw [Delimiter] at h
  fin_cases h <;> rfl

theorem Delimiter.isDigit_eq {d : Char} (h : Delimiter d) : d.isDigit = false := by
  rw [Delimiter] at h
  fin_cases h <;> rfl

/-- No delimiter belongs to a number. -/
theorem Delimiter.next?_eq {d : Char} (h : Delimiter d) (stage : NumberStage) :
    Lexer.NumberStage.next? stage d = none := by
  rw [Delimiter] at h
  fin_cases h <;> cases stage <;> rfl

/-- The machine has these tokens, the latest first, if the text ends or a delimiter comes. -/
structure Lexer.Holds (s : Lexer) (tokens : List Token) : Prop where
  finish : s.finish = some tokens.reverse
  step : ∀ c, Delimiter c → s.step c = Lexer.stepGap tokens c

/-- From between tokens the text is cut into `ts`, and what follows begins a token. -/
def CutsOff (cs : List Char) (ts : List Token) : Prop :=
  ∀ tokens, cs.foldlM Lexer.step ⟨.gap, tokens⟩ = some ⟨.gap, ts.reverse ++ tokens⟩

/-- From between tokens the text is cut into `ts`, if a delimiter follows or nothing. -/
def Cuts (cs : List Char) (ts : List Token) : Prop :=
  ∀ tokens, ∃ s, cs.foldlM Lexer.step ⟨.gap, tokens⟩ = some s ∧ s.Holds (ts.reverse ++ tokens)

variable {cs ds : List Char} {ts us : List Token} {c d : Char}

/-! ## Texts put together -/

theorem Lexer.holds_gap (tokens : List Token) : Lexer.Holds ⟨.gap, tokens⟩ tokens :=
  ⟨rfl, fun _ _ => rfl⟩

theorem CutsOff.cuts (h : CutsOff cs ts) : Cuts cs ts := fun tokens =>
  ⟨_, h tokens, Lexer.holds_gap _⟩

theorem cutsOff_nil : CutsOff [] [] := fun _ => rfl

theorem CutsOff.append (h : CutsOff cs ts) (h' : CutsOff ds us) :
    CutsOff (cs ++ ds) (ts ++ us) := by
  intro tokens
  rw [List.foldlM_append, h, List.reverse_append, List.append_assoc]
  exact h' _

theorem CutsOff.append_cuts (h : CutsOff cs ts) (h' : Cuts ds us) :
    Cuts (cs ++ ds) (ts ++ us) := by
  intro tokens
  rw [List.foldlM_append, h, List.reverse_append, List.append_assoc]
  exact h' _

/-- Before a delimiter the machine might as well be between tokens. -/
theorem Cuts.foldlM_append (h : Cuts cs ts) (hd : Delimiter d) (ds : List Char)
    (tokens : List Token) :
    (cs ++ d :: ds).foldlM Lexer.step ⟨.gap, tokens⟩ =
      (d :: ds).foldlM Lexer.step ⟨.gap, ts.reverse ++ tokens⟩ := by
  obtain ⟨s, hs, hholds⟩ := h tokens
  rw [List.foldlM_append, hs]
  show (s.step d >>= fun s => ds.foldlM Lexer.step s) = _
  rw [hholds.step d hd]
  rfl

theorem Cuts.append_cutsOff (h : Cuts cs ts) (hd : Delimiter d) (h' : CutsOff (d :: ds) us) :
    CutsOff (cs ++ d :: ds) (ts ++ us) := by
  intro tokens
  rw [h.foldlM_append hd, List.reverse_append, List.append_assoc]
  exact h' _

theorem Cuts.append (h : Cuts cs ts) (hd : Delimiter d) (h' : Cuts (d :: ds) us) :
    Cuts (cs ++ d :: ds) (ts ++ us) := by
  intro tokens
  rw [h.foldlM_append hd, List.reverse_append, List.append_assoc]
  exact h' _

/-- A whole text that is cut into tokens has these tokens. -/
theorem Cuts.ofText? {text : String} (h : Cuts text.toList ts) : Token.ofText? text = some ts := by
  obtain ⟨s, hs, hholds⟩ := h []
  rw [Token.ofText?, Lexer.start, hs]
  simpa using hholds.finish

/-! ## Blanks and marks -/

theorem cutsOff_blank (h : Blank cs) : CutsOff cs [] := by
  induction cs with
  | nil => exact cutsOff_nil
  | cons c cs ih =>
    obtain ⟨hc, hcs⟩ := List.forall_mem_cons.mp h
    have hstep : ∀ tokens, Lexer.step ⟨.gap, tokens⟩ c = some ⟨.gap, tokens⟩ := fun tokens => by
      fin_cases hc <;> rfl
    intro tokens
    rw [List.foldlM_cons, hstep]
    exact ih hcs tokens

theorem Cuts.blank_append (hb : Blank cs) (h : Cuts ds us) : Cuts (cs ++ ds) us :=
  (cutsOff_blank hb).append_cuts h

theorem Cuts.append_blank (h : Cuts cs ts) (hb : Blank ds) : Cuts (cs ++ ds) ts := by
  cases ds with
  | nil => rwa [List.append_nil]
  | cons d ds =>
    have hd : Delimiter d := by
      have hmem := hb d List.mem_cons_self
      fin_cases hmem <;> decide
    simpa using h.append hd (cutsOff_blank hb).cuts

/-- The marks and their tokens. -/
def marks : List (Char × Token) :=
  [('\x7b', .openObject), ('\x7d', .closeObject), ('[', .openArray), (']', .closeArray),
    (':', .colon), (',', .comma)]

theorem cutsOff_mark {t : Token} (h : (c, t) ∈ marks) : CutsOff [c] [t] := by
  intro tokens
  fin_cases h <;> rfl

theorem cuts_array (h : Cuts cs ts) :
    CutsOff ('[' :: (cs ++ [']'])) (.openArray :: (ts ++ [.closeArray])) := by
  have hopen : CutsOff ['['] [.openArray] := cutsOff_mark (by decide)
  exact hopen.append (h.append_cutsOff (by decide) (cutsOff_mark (by decide)))

theorem cuts_object (h : Cuts cs ts) :
    CutsOff ('\x7b' :: (cs ++ ['\x7d'])) (.openObject :: (ts ++ [.closeObject])) := by
  have hopen : CutsOff ['\x7b'] [.openObject] := cutsOff_mark (by decide)
  exact hopen.append (h.append_cutsOff (by decide) (cutsOff_mark (by decide)))

theorem Cuts.append_comma (h : Cuts cs ts) (h' : Cuts ds us) :
    Cuts (cs ++ ',' :: ds) (ts ++ .comma :: us) := by
  have hcomma : CutsOff [','] [.comma] := cutsOff_mark (by decide)
  exact h.append (by decide) (hcomma.append_cuts h')

/-- A key, a colon and a value make a member. -/
theorem cuts_member {b k b' e : List Char} {s : Option String} (hb : Blank b)
    (hk : CutsOff k [.text s]) (hb' : Blank b') (h : Cuts e ts) :
    Cuts (b ++ (k ++ (b' ++ ':' :: e))) (.text s :: .colon :: ts) := by
  have hcolon : CutsOff [':'] [.colon] := cutsOff_mark (by decide)
  exact Cuts.blank_append hb (hk.append_cuts (Cuts.blank_append hb' (hcolon.append_cuts h)))

/-! ## Strings -/

theorem HexDigit.hexDigit?_eq {x : Nat} {d : Char} (h : HexDigit x d) : hexDigit? d = some x := by
  rcases h with h | h
  all_goals
    obtain ⟨hx, rfl⟩ := List.getElem?_eq_some_iff.mp h
    have hx : x < 16 := hx
    interval_cases x <;> rfl

/-- An escaped code unit is one more piece. -/
theorem UnitEscape.foldlM_step {n : Nat} (h : UnitEscape n cs) (pieces : List Piece)
    (tokens : List Token) :
    cs.foldlM Lexer.step ⟨.text pieces, tokens⟩ = some ⟨.text (.unit n :: pieces), tokens⟩ := by
  have hdigit : ∀ {x left code d}, HexDigit x d →
      Lexer.step ⟨.unit pieces (left + 2) code, tokens⟩ d =
        some ⟨.unit pieces (left + 1) (code * 16 + x), tokens⟩ := fun h => by
    rw [Lexer.step, h.hexDigit?_eq]
    rfl
  have hlast : ∀ {x code d}, HexDigit x d → Lexer.step ⟨.unit pieces 1 code, tokens⟩ d =
      some ⟨.text (.unit (code * 16 + x) :: pieces), tokens⟩ := fun h => by
    rw [Lexer.step, h.hexDigit?_eq]
    rfl
  cases h with
  | @mk x₃ x₂ x₁ x₀ d₃ d₂ d₁ d₀ h₃ h₂ h₁ h₀ =>
    show [d₃, d₂, d₁, d₀].foldlM Lexer.step ⟨.unit pieces 4 0, tokens⟩ = _
    rw [List.foldlM_cons, hdigit h₃, Nat.zero_mul, Nat.zero_add]
    show [d₂, d₁, d₀].foldlM Lexer.step ⟨.unit pieces 3 x₃, tokens⟩ = _
    rw [List.foldlM_cons, hdigit h₂]
    show [d₁, d₀].foldlM Lexer.step ⟨.unit pieces 2 _, tokens⟩ = _
    rw [List.foldlM_cons, hdigit h₁]
    show Lexer.step ⟨.unit pieces 1 _, tokens⟩ d₀ >>= _ = _
    rw [hlast h₀]
    rfl

theorem Plain.step_eq (h : Plain c) (pieces : List Piece) (tokens : List Token) :
    Lexer.step ⟨.text pieces, tokens⟩ c = some ⟨.text (.char c :: pieces), tokens⟩ := by
  obtain ⟨hle, hquote, hslash⟩ := h
  simp [Lexer.step, hquote, hslash, Char.not_lt.mpr hle]

theorem foldlM_step_letter {e : Char} (h : (c, e) ∈ letterEscapes) (pieces : List Piece)
    (tokens : List Token) : ['\\', e].foldlM Lexer.step ⟨.text pieces, tokens⟩ =
      some ⟨.text (.char c :: pieces), tokens⟩ := by
  fin_cases h <;> rfl

/-- A piece of a string is one more piece. -/
theorem PieceText.foldlM_step (h : PieceText cs) : ∃ p : Piece, ∀ pieces tokens,
    cs.foldlM Lexer.step ⟨.text pieces, tokens⟩ = some ⟨.text (p :: pieces), tokens⟩ := by
  cases h with
  | @plain c h =>
    refine ⟨.char c, fun pieces tokens => ?_⟩
    rw [List.foldlM_cons, h.step_eq]
    rfl
  | @letter c e h => exact ⟨.char c, foldlM_step_letter h⟩
  | @unit n cs h => exact ⟨.unit n, h.foldlM_step⟩

theorem PiecesText.foldlM_step (h : PiecesText cs) : ∃ ps : List Piece, ∀ pieces tokens,
    cs.foldlM Lexer.step ⟨.text pieces, tokens⟩ = some ⟨.text (ps ++ pieces), tokens⟩ := by
  induction h with
  | nil => exact ⟨[], fun _ _ => rfl⟩
  | cons h _ ih =>
    obtain ⟨p, hp⟩ := h.foldlM_step
    obtain ⟨ps, hps⟩ := ih
    refine ⟨ps ++ [p], fun pieces tokens => ?_⟩
    rw [List.foldlM_append, hp, List.append_assoc]
    exact hps _ _

/-- The code units of a character are decoded to it. A character that is one unit is no half of a
pair. -/
theorem decodePieces_unit (hc : c.toNat < 0x10000) (rest : List Piece) :
    decodePieces (.unit c.toNat :: rest) = (c :: ·) <$> decodePieces rest := by
  have hvalid : c.toNat < 0xD800 ∨ 0xDFFF < c.toNat ∧ c.toNat < 0x110000 := c.valid
  have hhigh : isHighSurrogate c.toNat = false := by simp [isHighSurrogate]; omega
  have hlow : isLowSurrogate c.toNat = false := by simp [isLowSurrogate]; omega
  rw [decodePieces.eq_def]
  simp only [hhigh, hlow, Char.ofNat_toNat, Bool.false_eq_true, if_false]

theorem decodePieces_pair (hc : 0x10000 ≤ c.toNat) (rest : List Piece) :
    decodePieces (.unit (0xD800 + (c.toNat - 0x10000) / 0x400) ::
      .unit (0xDC00 + (c.toNat - 0x10000) % 0x400) :: rest) = (c :: ·) <$> decodePieces rest := by
  have hvalid : c.toNat < 0xD800 ∨ 0xDFFF < c.toNat ∧ c.toNat < 0x110000 := c.valid
  generalize hhi : 0xD800 + (c.toNat - 0x10000) / 0x400 = hi
  generalize hlo : 0xDC00 + (c.toNat - 0x10000) % 0x400 = lo
  have hhigh : isHighSurrogate hi = true := by simp [isHighSurrogate]; omega
  have hlow : isLowSurrogate lo = true := by simp [isLowSurrogate]; omega
  have hcode : 0x10000 + (hi - 0xD800) * 0x400 + (lo - 0xDC00) = c.toNat := by omega
  rw [decodePieces.eq_def]
  simp only [hhigh, hlow, hcode, Char.ofNat_toNat, if_true]

/-- However a character is written, it is decoded to itself. -/
theorem CharText.foldlM_step (h : CharText c cs) : ∃ ps : List Piece,
    (∀ pieces tokens,
      cs.foldlM Lexer.step ⟨.text pieces, tokens⟩ = some ⟨.text (ps ++ pieces), tokens⟩) ∧
    ∀ rest, decodePieces (ps.reverse ++ rest) = (c :: ·) <$> decodePieces rest := by
  cases h with
  | plain h =>
    refine ⟨[.char c], fun pieces tokens => ?_, fun _ => rfl⟩
    rw [List.foldlM_cons, h.step_eq]
    rfl
  | letter h => exact ⟨[.char c], foldlM_step_letter h, fun _ => rfl⟩
  | unit hc h => exact ⟨[.unit c.toNat], h.foldlM_step, decodePieces_unit hc⟩
  | pair hc h h' =>
    refine ⟨[.unit _, .unit _], fun pieces tokens => ?_, decodePieces_pair hc⟩
    rw [List.foldlM_append, h.foldlM_step]
    exact h'.foldlM_step _ _

theorem CharsText.foldlM_step {s : List Char} (h : CharsText s cs) : ∃ ps : List Piece,
    (∀ pieces tokens,
      cs.foldlM Lexer.step ⟨.text pieces, tokens⟩ = some ⟨.text (ps ++ pieces), tokens⟩) ∧
    decodePieces ps.reverse = some s := by
  induction h with
  | nil => exact ⟨[], fun _ _ => rfl, rfl⟩
  | cons h _ ih =>
    obtain ⟨p, hp, hdecode⟩ := h.foldlM_step
    obtain ⟨ps, hps, hs⟩ := ih
    refine ⟨ps ++ p, fun pieces tokens => ?_, ?_⟩
    · rw [List.foldlM_append, hp, List.append_assoc]
      exact hps _ _
    · rw [List.reverse_append, hdecode, hs]
      rfl

/-- The end of a string gives its token. -/
theorem foldlM_step_string {pieces : List Piece} {tokens : List Token}
    (h : cs.foldlM Lexer.step ⟨.text [], tokens⟩ = some ⟨.text pieces, tokens⟩) :
    ('"' :: (cs ++ ['"'])).foldlM Lexer.step ⟨.gap, tokens⟩ =
      some ⟨.gap, .text ((decodePieces pieces.reverse).map String.ofList) :: tokens⟩ := by
  show (cs ++ ['"']).foldlM Lexer.step ⟨.text [], tokens⟩ = _
  rw [List.foldlM_append, h]
  rfl

theorem cutsOff_string {s : String} (h : StringText s cs) : CutsOff cs [.text (some s)] := by
  cases h with
  | mk h =>
    obtain ⟨ps, hps, hs⟩ := h.foldlM_step
    intro tokens
    rw [foldlM_step_string (hps [] tokens), List.append_nil, hs, Option.map_some,
      String.ofList_toList]
    rfl

theorem cutsOff_anyString (h : AnyString cs) : ∃ s, CutsOff cs [.text s] := by
  cases h with
  | mk h =>
    obtain ⟨ps, hps⟩ := h.foldlM_step
    exact ⟨_, fun tokens => foldlM_step_string (hps [] tokens)⟩

/-! ## Words -/

theorem holds_word {letters : List Char} {t : Token} (h : Lexer.word? letters.reverse = some t)
    (tokens : List Token) : Lexer.Holds ⟨.word letters, tokens⟩ (t :: tokens) where
  finish := by simp [Lexer.finish, h]
  step d hd := by
    have hlower : d.isLower = false := hd.isLower_eq
    simp [Lexer.step, Lexer.stepWord, hlower, h]

theorem cuts_true : Cuts "true".toList [.bool true] := fun tokens =>
  ⟨⟨.word ['e', 'u', 'r', 't'], tokens⟩, rfl, holds_word rfl tokens⟩

theorem cuts_false : Cuts "false".toList [.bool false] := fun tokens =>
  ⟨⟨.word ['e', 's', 'l', 'a', 'f'], tokens⟩, rfl, holds_word rfl tokens⟩

theorem cuts_null : Cuts "null".toList [.null] := fun tokens =>
  ⟨⟨.word ['l', 'l', 'u', 'n'], tokens⟩, rfl, holds_word rfl tokens⟩

theorem cuts_bool {b : Bool} (h : BoolText b cs) : Cuts cs [.bool b] := by
  cases h
  cases b with
  | true => exact cuts_true
  | false => exact cuts_false

/-! ## Numbers -/

theorem holds_number {stage : NumberStage} (h : stage.isFinal = true) (value : Option Nat)
    (tokens : List Token) :
    Lexer.Holds ⟨.number stage value, tokens⟩ (Lexer.numberToken value :: tokens) where
  finish := by simp [Lexer.finish, h]
  step d hd := by
    simp [Lexer.step, Lexer.stepNumber, hd.next?_eq stage, h, hd.isDigit_eq]

/-- While the characters belong to a number, the machine goes through the stages of one. -/
theorem foldlM_step_number {stage stage' : NumberStage}
    (h : cs.foldlM Lexer.NumberStage.next? stage = some stage') (value : Option Nat) :
    ∃ value', ∀ tokens, cs.foldlM Lexer.step ⟨.number stage value, tokens⟩ =
      some ⟨.number stage' value', tokens⟩ := by
  induction cs generalizing stage value with
  | nil =>
    obtain rfl := Option.some.inj h
    exact ⟨value, fun _ => rfl⟩
  | cons c cs ih =>
    rw [List.foldlM_cons] at h
    obtain ⟨next, hnext, h⟩ := Option.bind_eq_some_iff.mp h
    have hstep : ∃ value', ∀ tokens, Lexer.step ⟨.number stage value, tokens⟩ c =
        some ⟨.number next value', tokens⟩ := by
      simp only [Lexer.step, Lexer.stepNumber, hnext]
      cases next <;> exact ⟨_, fun _ => rfl⟩
    obtain ⟨value', hstep⟩ := hstep
    obtain ⟨value'', hrest⟩ := ih h value'
    refine ⟨value'', fun tokens => ?_⟩
    rw [List.foldlM_cons, hstep]
    exact hrest tokens

theorem mem_digits_of_isDigit (h : d.isDigit = true) : d ∈ "0123456789".toList := by
  have hd : 48 ≤ d.toNat ∧ d.toNat ≤ 57 := by
    simpa [Char.isDigit, UInt32.le_iff_toNat_le] using h
  have hn : d.toNat - 48 < 10 := by omega
  have hd : d = Char.ofNat (d.toNat - 48 + 48) := by
    rw [Nat.sub_add_cancel hd.1, Char.ofNat_toNat]
  rw [hd]
  generalize d.toNat - 48 = n at hn
  interval_cases n <;> decide

/-- A number may begin with its digits as well as with a minus before them. -/
theorem step_gap_digit (h : d.isDigit = true) : ∃ stage value,
    Lexer.NumberStage.next? .minus d = some stage ∧
      ∀ tokens, Lexer.step ⟨.gap, tokens⟩ d = some ⟨.number stage value, tokens⟩ := by
  have hmem := mem_digits_of_isDigit h
  fin_cases hmem <;> exact ⟨_, _, rfl, fun _ => rfl⟩

/-- A stage that digits do not end lasts as long as there are digits. -/
theorem foldlM_next?_digits {stage : NumberStage}
    (hstage : ∀ d, d.isDigit = true → Lexer.NumberStage.next? stage d = some stage)
    (hds : ∀ d ∈ ds, d.isDigit = true) :
    ds.foldlM Lexer.NumberStage.next? stage = some stage := by
  induction ds with
  | nil => rfl
  | cons d ds ih =>
    obtain ⟨hd, hds⟩ := List.forall_mem_cons.mp hds
    rw [List.foldlM_cons, hstage d hd]
    exact ih hds

/-- Of digits the first may lead on to a stage that the others do not end. -/
theorem Digits.foldlM_next? {stage stage' : NumberStage} (h : Digits ds)
    (hfirst : ∀ d, d.isDigit = true → Lexer.NumberStage.next? stage d = some stage')
    (hstage : ∀ d, d.isDigit = true → Lexer.NumberStage.next? stage' d = some stage') :
    ds.foldlM Lexer.NumberStage.next? stage = some stage' := by
  obtain ⟨hne, hds⟩ := h
  obtain ⟨d, ds, rfl⟩ := List.exists_cons_of_ne_nil hne
  obtain ⟨hd, hds⟩ := List.forall_mem_cons.mp hds
  rw [List.foldlM_cons, hfirst d hd]
  exact foldlM_next?_digits hstage hds

theorem IntegerText.foldlM_next? (h : IntegerText cs) : ∃ stage,
    cs.foldlM Lexer.NumberStage.next? .minus = some stage ∧ stage ∈ [.zero, .integer] := by
  cases h with
  | zero => exact ⟨.zero, rfl, by decide⟩
  | @digits d ds h hd =>
    obtain ⟨hdigit, hds⟩ := List.forall_mem_cons.mp h.2
    refine ⟨.integer, ?_, by decide⟩
    rw [List.foldlM_cons, Lexer.NumberStage.next?, beq_false_of_ne hd, hdigit]
    exact foldlM_next?_digits (fun d hd => by simp [Lexer.NumberStage.next?, hd]) hds

theorem FractionText.foldlM_next? (h : FractionText cs) {stage : NumberStage}
    (hstage : stage ∈ [NumberStage.zero, .integer]) : ∃ stage',
      cs.foldlM Lexer.NumberStage.next? stage = some stage' ∧
        stage' ∈ [NumberStage.zero, .integer, .fraction] := by
  cases h with
  | absent => exact ⟨stage, rfl, by fin_cases hstage <;> decide⟩
  | present h =>
    have hpoint : Lexer.NumberStage.next? stage '.' = some .point := by fin_cases hstage <;> rfl
    refine ⟨.fraction, ?_, by decide⟩
    rw [List.foldlM_cons, hpoint]
    exact h.foldlM_next? (fun d hd => if_pos hd) fun d hd => if_pos hd

theorem ExponentText.foldlM_next? (h : ExponentText cs) {stage : NumberStage}
    (hstage : stage ∈ [NumberStage.zero, .integer, .fraction]) : ∃ stage',
      cs.foldlM Lexer.NumberStage.next? stage = some stage' ∧ stage'.isFinal = true := by
  cases h with
  | absent => exact ⟨stage, rfl, by fin_cases hstage <;> rfl⟩
  | @present e sign ds he hsign h =>
    have hmark : Lexer.NumberStage.next? stage e = some .exponentMark := by
      fin_cases hstage <;> fin_cases he <;> rfl
    have hsigned : ∀ d, d.isDigit = true →
        Lexer.NumberStage.next? .exponentSign d = some .exponent := fun d hd => if_pos hd
    refine ⟨.exponent, ?_, rfl⟩
    rw [List.foldlM_cons, hmark]
    show (sign ++ ds).foldlM Lexer.NumberStage.next? .exponentMark = _
    rw [List.foldlM_append]
    fin_cases hsign
    · refine h.foldlM_next? (fun d hd => ?_) fun d hd => if_pos hd
      have hmem := mem_digits_of_isDigit hd
      fin_cases hmem <;> rfl
    · exact h.foldlM_next? hsigned fun d hd => if_pos hd
    · exact h.foldlM_next? hsigned fun d hd => if_pos hd

/-- After its sign a number goes through the stages to a final one. -/
theorem foldlM_next?_unsigned {int frac exp : List Char} (hint : IntegerText int)
    (hfrac : FractionText frac) (hexp : ExponentText exp) : ∃ stage,
      (int ++ (frac ++ exp)).foldlM Lexer.NumberStage.next? .minus = some stage ∧
        stage.isFinal = true := by
  obtain ⟨stage₁, hint, h₁⟩ := hint.foldlM_next?
  obtain ⟨stage₂, hfrac, h₂⟩ := hfrac.foldlM_next? h₁
  obtain ⟨stage₃, hexp, h₃⟩ := hexp.foldlM_next? h₂
  refine ⟨stage₃, ?_, h₃⟩
  rw [List.foldlM_append, hint]
  show (frac ++ exp).foldlM Lexer.NumberStage.next? stage₁ = _
  rw [List.foldlM_append, hfrac]
  exact hexp

/-- A well-formed number is one token, whatever its value. -/
theorem cuts_number (h : NumberText cs) : ∃ value, Cuts cs [.number value] := by
  cases h with
  | @mk sign int frac exp hsign hint hfrac hexp =>
    obtain ⟨stage, hstage, hfinal⟩ := foldlM_next?_unsigned hint hfrac hexp
    fin_cases hsign
    · -- without a sign the first digit leads to where it leads after one
      have hdigit : ∃ d ds, int = d :: ds ∧ d.isDigit = true := by
        cases hint with
        | zero => exact ⟨_, _, rfl, rfl⟩
        | digits h _ => exact ⟨_, _, rfl, h.2 _ List.mem_cons_self⟩
      obtain ⟨d, ds, rfl, hd⟩ := hdigit
      obtain ⟨stage₁, value₁, hnext, hstep⟩ := step_gap_digit hd
      rw [List.cons_append, List.foldlM_cons, hnext] at hstage
      obtain ⟨value, hvalue⟩ := foldlM_step_number hstage value₁
      refine ⟨_, fun tokens => ⟨_, ?_, holds_number hfinal value tokens⟩⟩
      rw [List.nil_append, List.cons_append, List.foldlM_cons, hstep]
      exact hvalue tokens
    · obtain ⟨value, hvalue⟩ := foldlM_step_number hstage none
      exact ⟨_, fun tokens => ⟨_, hvalue tokens, holds_number hfinal value tokens⟩⟩

/-- The digits of a natural number are cut into this number. -/
theorem foldlM_step_toDigits {n : Nat} (hn : 0 < n) (tokens : List Token) :
    (Nat.toDigits 10 n).foldlM Lexer.step ⟨.gap, tokens⟩ =
      some ⟨.number .integer (some n), tokens⟩ := by
  induction n using Nat.strongRecOn with
  | ind n ih =>
    rcases Nat.lt_or_ge n 10 with h | h
    · rw [Nat.toDigits_of_lt_base h]
      interval_cases n <;> rfl
    · have hmod : n % 10 < 10 := Nat.mod_lt _ (by decide)
      rw [Nat.toDigits_of_base_le (by decide) h, List.foldlM_append,
        ih (n / 10) (by omega) (by omega)]
      show Lexer.step ⟨.number .integer (some (n / 10)), tokens⟩ (n % 10).digitChar >>= _ = _
      have hdigit : (n % 10).digitChar.isDigit = true := by simpa using hmod
      have hvalue : n / 10 * 10 + ((n % 10).digitChar.toNat - '0'.toNat) = n := by
        rw [Nat.toNat_digitChar_of_lt_ten hmod]
        show n / 10 * 10 + (48 + n % 10 - 48) = n
        omega
      have hnext : Lexer.NumberStage.next? .integer (n % 10).digitChar = some .integer :=
        if_pos hdigit
      simp only [Lexer.step, Lexer.stepNumber, hnext, Option.map_some, hvalue]
      rfl

theorem cuts_natural {n : Nat} (h : NaturalText n cs) : Cuts cs [.number (some n)] := by
  obtain ⟨hn, rfl⟩ := h
  have htoken : Lexer.numberToken (some n) = .number (some n) := by
    simp [Lexer.numberToken, Option.filter, hn]
  rw [Nat.toString_eq_repr, Nat.toList_repr]
  intro tokens
  rcases Nat.eq_zero_or_pos n with rfl | hpos
  · exact ⟨_, rfl, htoken ▸ holds_number rfl _ tokens⟩
  · exact ⟨_, foldlM_step_toDigits hpos tokens, htoken ▸ holds_number rfl _ tokens⟩

end SoftTier.Json
