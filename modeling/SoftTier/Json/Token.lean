/-!
# The tokens of a JSON text

A text is cut into tokens by a machine that takes one character at a time, so reading a text is a
fold over its characters. The cut is strict: blanks are space, tab, line feed and carriage return;
numbers and escapes follow the grammar; a character below the space stands in no string.

A token keeps what a reader of settings may ask of it and no more: of a number, whether it is a
natural number below 2^64 written in digits alone; of a string, its text, if it is one. A string
whose escapes leave half of a surrogate pair alone is well formed but is no text.

- `Piece`, `decodePieces`: the characters and code units of a string, and the text they make.
- `Lexer`, `Lexer.step`, `Lexer.finish`: the machine.
- `Token.ofText?`: the tokens of a text.
-/

namespace SoftTier.Json

/-- A token of a JSON text. -/
inductive Token where
  | openObject
  | closeObject
  | openArray
  | closeArray
  | colon
  | comma
  /-- A string, and its text if it is one. -/
  | text (s : Option String)
  /-- A number, and its value if it is a natural number below 2^64 written in digits alone. -/
  | number (n : Option Nat)
  | bool (b : Bool)
  | null
  deriving DecidableEq

/-! ## Strings -/

/-- A part of a string: a character that stands for itself, or an escaped UTF-16 code unit. -/
inductive Piece where
  | char (c : Char)
  | unit (n : Nat)

/-- Whether a code unit opens a surrogate pair. -/
def isHighSurrogate (n : Nat) : Bool := 0xD800 ≤ n && n < 0xDC00

/-- Whether a code unit closes a surrogate pair. -/
def isLowSurrogate (n : Nat) : Bool := 0xDC00 ≤ n && n < 0xE000

/-- The text that the parts of a string make, unless half of a surrogate pair stands alone. -/
def decodePieces : List Piece → Option (List Char)
  | [] => some []
  | .char c :: rest => (c :: ·) <$> decodePieces rest
  | .unit n :: rest =>
    if isHighSurrogate n then
      match rest with
      | .unit m :: rest =>
        if isLowSurrogate m then
          (Char.ofNat (0x10000 + (n - 0xD800) * 0x400 + (m - 0xDC00)) :: ·) <$> decodePieces rest
        else none
      | _ => none
    else if isLowSurrogate n then none
    else (Char.ofNat n :: ·) <$> decodePieces rest

/-- The character that a one-letter escape stands for. -/
def escaped? : Char → Option Char
  | '"' => some '"'
  | '\\' => some '\\'
  | '/' => some '/'
  | 'b' => some '\x08'
  | 'f' => some '\x0c'
  | 'n' => some '\n'
  | 'r' => some '\r'
  | 't' => some '\t'
  | _ => none

/-- The value of a hexadecimal digit. -/
def hexDigit? (c : Char) : Option Nat :=
  if '0' ≤ c && c ≤ '9' then some (c.toNat - '0'.toNat)
  else if 'a' ≤ c && c ≤ 'f' then some (c.toNat - 'a'.toNat + 10)
  else if 'A' ≤ c && c ≤ 'F' then some (c.toNat - 'A'.toNat + 10)
  else none

/-! ## The machine -/

/-- How far a number has been read. -/
inductive NumberStage where
  | minus
  | zero
  | integer
  | point
  | fraction
  | exponentMark
  | exponentSign
  | exponent
  deriving DecidableEq

/-- Whether a number may end here. -/
def NumberStage.isFinal : NumberStage → Bool
  | zero | integer | fraction | exponent => true
  | minus | point | exponentMark | exponentSign => false

/-- What the machine is in the middle of. -/
inductive Lexer.Mode where
  /-- Between tokens. -/
  | gap
  /-- In a string, after these parts, the latest first. -/
  | text (pieces : List Piece)
  /-- In a string, after a backslash. -/
  | escape (pieces : List Piece)
  /-- In a string, in the digits of an escaped code unit, with `left` digits to come. -/
  | unit (pieces : List Piece) (left code : Nat)
  /-- In a number. `value` is what its digits make, while it has been digits alone. -/
  | number (stage : NumberStage) (value : Option Nat)
  /-- In a word, after these letters, the latest first. -/
  | word (letters : List Char)

/-- The state of the machine: what it is in the middle of, and the tokens so far, latest first. -/
structure Lexer where
  mode : Lexer.Mode
  tokens : List Token

namespace Lexer

/-- The state before the first character. -/
def start : Lexer := ⟨.gap, []⟩

/-- Adds a token and goes on between tokens. -/
def push (t : Token) (tokens : List Token) : Lexer := ⟨.gap, t :: tokens⟩

/-- The token that a word is. -/
def word? : List Char → Option Token
  | ['t', 'r', 'u', 'e'] => some (.bool true)
  | ['f', 'a', 'l', 's', 'e'] => some (.bool false)
  | ['n', 'u', 'l', 'l'] => some .null
  | _ => none

/-- The token that a number is. -/
def numberToken (value : Option Nat) : Token := .number (value.filter (· < UInt64.size))

/-- Takes a character between tokens. -/
def stepGap (tokens : List Token) (c : Char) : Option Lexer :=
  match c with
  | ' ' | '\t' | '\n' | '\r' => some ⟨.gap, tokens⟩
  | '\x7b' => some (push .openObject tokens)
  | '\x7d' => some (push .closeObject tokens)
  | '[' => some (push .openArray tokens)
  | ']' => some (push .closeArray tokens)
  | ':' => some (push .colon tokens)
  | ',' => some (push .comma tokens)
  | '"' => some ⟨.text [], tokens⟩
  | '-' => some ⟨.number .minus none, tokens⟩
  | '0' => some ⟨.number .zero (some 0), tokens⟩
  | _ =>
    if c.isDigit then some ⟨.number .integer (some (c.toNat - '0'.toNat)), tokens⟩
    else if c.isLower then some ⟨.word [c], tokens⟩
    else none

/-- The stage of a number after one more character, if the character belongs to the number. -/
def NumberStage.next? (stage : NumberStage) (c : Char) : Option NumberStage :=
  match stage with
  | .minus => if c == '0' then some .zero else if c.isDigit then some .integer else none
  | .zero => fromInteger c
  | .integer => if c.isDigit then some .integer else fromInteger c
  | .point => if c.isDigit then some .fraction else none
  | .fraction => if c.isDigit then some .fraction else mark c
  | .exponentMark =>
    if c == '+' || c == '-' then some .exponentSign else if c.isDigit then some .exponent else none
  | .exponentSign | .exponent => if c.isDigit then some .exponent else none
where
  /-- What may follow the digits before the point, other than digits. -/
  fromInteger (c : Char) : Option NumberStage := if c == '.' then some .point else mark c
  /-- The mark of an exponent. -/
  mark (c : Char) : Option NumberStage :=
    if c == 'e' || c == 'E' then some .exponentMark else none

/-- Takes a character inside a number: it belongs to the number, or the number ends before it. -/
def stepNumber (tokens : List Token) (stage : NumberStage) (value : Option Nat) (c : Char) :
    Option Lexer :=
  match NumberStage.next? stage c with
  | some .integer =>
    some ⟨.number .integer (value.map fun n => n * 10 + (c.toNat - '0'.toNat)), tokens⟩
  | some stage => some ⟨.number stage none, tokens⟩
  | none =>
    if !stage.isFinal || stage == .zero && c.isDigit then none
    else stepGap (numberToken value :: tokens) c

/-- Takes a character inside a word: it belongs to the word, or the word ends before it. -/
def stepWord (tokens : List Token) (letters : List Char) (c : Char) : Option Lexer :=
  if c.isLower then some ⟨.word (c :: letters), tokens⟩
  else do stepGap ((← word? letters.reverse) :: tokens) c

/-- Takes one character. -/
def step (s : Lexer) (c : Char) : Option Lexer :=
  match s.mode with
  | .gap => stepGap s.tokens c
  | .text pieces =>
    if c == '"' then
      some (push (.text ((decodePieces pieces.reverse).map String.ofList)) s.tokens)
    else if c == '\\' then some { s with mode := .escape pieces }
    else if c < ' ' then none
    else some { s with mode := .text (.char c :: pieces) }
  | .escape pieces =>
    if c == 'u' then some { s with mode := .unit pieces 4 0 }
    else do return { s with mode := .text (.char (← escaped? c) :: pieces) }
  | .unit pieces left code => do
    let code := code * 16 + (← hexDigit? c)
    match left with
    | 0 | 1 => return { s with mode := .text (.unit code :: pieces) }
    | left + 1 => return { s with mode := .unit pieces left code }
  | .number stage value => stepNumber s.tokens stage value c
  | .word letters => stepWord s.tokens letters c

/-- The tokens in order, if the text may end here. -/
def finish (s : Lexer) : Option (List Token) :=
  match s.mode with
  | .gap => some s.tokens.reverse
  | .number stage value =>
    if stage.isFinal then some (numberToken value :: s.tokens).reverse else none
  | .word letters => do return ((← word? letters.reverse) :: s.tokens).reverse
  | .text _ | .escape _ | .unit .. => none

end Lexer

/-- The tokens of a text, if it can be cut into tokens. -/
def Token.ofText? (text : String) : Option (List Token) := do
  (← text.toList.foldlM Lexer.step Lexer.start).finish

end SoftTier.Json
