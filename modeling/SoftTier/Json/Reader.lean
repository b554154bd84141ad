import SoftTier.Json.Token

/-!
# Reading settings from JSON

A reader takes what it reads off the front of a list of tokens. Settings are read field by field: as
an object, whose members may come in any order and be left out, or as an array of the fields in
their order, which may stop early. A member that is no field is skipped whatever it holds; a field
given twice is refused.

- `skip`: passes over one value of any shape and depth.
- `Field`, `record`: the fields of a record, and the reader of the whole.
- `parse?`: reads a text that holds one value and nothing else.
-/

namespace SoftTier.Json

/-- Takes a value off the front of a list of tokens. -/
abbrev Reader (α : Type) := List Token → Option (α × List Token)

/-! ## Values without parts -/

/-- Reads a natural number below 2^64. -/
def natural : Reader Nat
  | .number (some n) :: rest => some (n, rest)
  | _ => none

/-- Reads a string. -/
def string : Reader String
  | .text (some s) :: rest => some (s, rest)
  | _ => none

/-- Reads `true` or `false`. -/
def bool : Reader Bool
  | .bool b :: rest => some (b, rest)
  | _ => none

/-! ## Skipping a value -/

/-- What a value that is being skipped can go on with. -/
inductive Expect where
  | value
  | valueOrClose
  | key
  | keyOrClose
  | colon
  | commaOrClose
  deriving DecidableEq

/-- What a value that is being skipped is inside of. -/
inductive Frame where
  | object
  | array
  deriving DecidableEq

/-- What comes after a value inside of `frames`: nothing, if it is inside of none. -/
def afterValue : List Frame → Option (Expect × List Frame)
  | [] => none
  | frames => some (.commaOrClose, frames)

/-- What comes after a token that begins a value, if it is one. -/
def beginValue? (frames : List Frame) : Token → Option (Option (Expect × List Frame))
  | .openObject => some (some (.keyOrClose, .object :: frames))
  | .openArray => some (some (.valueOrClose, .array :: frames))
  | .text _ | .number _ | .bool _ | .null => some (afterValue frames)
  | .closeObject | .closeArray | .colon | .comma => none

/-- What comes after a token, if the token may stand where it does; the inner `none` says that the
value is complete. -/
def skipToken? (expect : Expect) (frames : List Frame) (t : Token) :
    Option (Option (Expect × List Frame)) :=
  match expect, t, frames with
  | .commaOrClose, .comma, .object :: _ => some (some (.key, frames))
  | .commaOrClose, .comma, .array :: _ => some (some (.value, frames))
  | .commaOrClose, .closeObject, .object :: outer
  | .keyOrClose, .closeObject, .object :: outer
  | .commaOrClose, .closeArray, .array :: outer
  | .valueOrClose, .closeArray, .array :: outer => some (afterValue outer)
  | .key, .text _, _ | .keyOrClose, .text _, _ => some (some (.colon, frames))
  | .colon, .colon, _ => some (some (.value, frames))
  | .value, t, _ | .valueOrClose, t, _ => beginValue? frames t
  | _, _, _ => none

/-- Passes over the rest of a value, which is inside of `frames`, the innermost first. -/
def skipFrom (expect : Expect) (frames : List Frame) : List Token → Option (List Token)
  | [] => none
  | t :: rest =>
    match skipToken? expect frames t with
    | none => none
    | some none => some rest
    | some (some (expect, frames)) => skipFrom expect frames rest

/-- Passes over one value. -/
def skip (tokens : List Token) : Option (List Token) := skipFrom .value [] tokens

/-! ## Records -/

/-- A field of a record: its name, and how its value goes into what has been read so far. -/
structure Field (σ : Type) where
  name : String
  read : σ → Reader σ

/-- A field that may be read once: refused if `get` finds it already there. -/
def Field.once {σ α : Type} (name : String) (get : σ → Option α) (set : α → σ → σ)
    (value : Reader α) : Field σ where
  name
  read s tokens :=
    match get s with
    | some _ => none
    | none => do
      let (a, rest) ← value tokens
      return (set a s, rest)

/-- Reads the members of an object, from the key of one of them to the end of the object; `fuel`
bounds their number. -/
def members {σ : Type} (fields : List (Field σ)) : (fuel : Nat) → σ → Reader σ
  | fuel + 1, s, .text (some key) :: .colon :: rest => do
    let (s, rest) ←
      match fields.find? (·.name == key) with
      | some field => field.read s rest
      | none => (s, ·) <$> skip rest
    match rest with
    | .comma :: rest => members fields fuel s rest
    | .closeObject :: rest => some (s, rest)
    | _ => none
  | _, _, _ => none

/-- Reads the elements of an array, from one of them to its end, into the given fields. -/
def elements {σ : Type} : List (Field σ) → σ → Reader σ
  | [], _, _ => none
  | field :: fields, s, tokens => do
    let (s, rest) ← field.read s tokens
    match rest with
    | .comma :: rest => elements fields s rest
    | .closeArray :: rest => some (s, rest)
    | _ => none

/-- Reads a record into `s`, from an object or from an array. -/
def record {σ : Type} (fields : List (Field σ)) (s : σ) : Reader σ
  | .openObject :: .closeObject :: rest | .openArray :: .closeArray :: rest => some (s, rest)
  | .openObject :: rest => members fields rest.length s rest
  | .openArray :: rest => elements fields s rest
  | _ => none

/-- Reads a text that holds one value and nothing else. -/
def parse? {α : Type} (reader : Reader α) (text : String) : Option α := do
  let (a, rest) ← reader (← Token.ofText? text)
  if rest.isEmpty then some a else none

end SoftTier.Json
