import SoftTier.Failure
import SoftTier.Json.Reader

/-!
# Settings

The settings of a soft layer and of the service around it, and how they are written and read. Every
field may be left out and then has its default.

- `SoftSettings`: the two bounds of a soft layer, and the one demand on them: soft retention needs
  room for a value.
- `ServiceSettings`: the name of a cache, its soft layer, and whether its requests are counted.
- `SoftSettings.toJson`, `SoftSettings.ofJson?`, `ServiceSettings.ofJson?`: the written forms.
- `ServiceSettings.load`: reads a settings file; `LoadError` tells how that can fail.
-/

namespace SoftTier

/-! ## Soft layers -/

/-- The two bounds of a soft layer. -/
structure SoftSettings where
  /-- How many of the values read last are pinned; 0 turns pinning off. -/
  pinCapacity : Nat := 256
  /-- How many values soft retention keeps alive. -/
  softCapacity : Nat := 4096
  deriving DecidableEq, Inhabited

namespace SoftSettings

/-- Whether a soft layer can run with these settings, and if not, why. -/
def check (s : SoftSettings) : Except Failure Unit :=
  if s.softCapacity = 0 then .error .softCapacityZero else .ok ()

/-- The settings as JSON, without blanks. -/
def toJson (s : SoftSettings) : String :=
  "\x7b\"pin_capacity\":" ++ toString s.pinCapacity ++
    ",\"soft_capacity\":" ++ toString s.softCapacity ++ "\x7d"

/-- Settings that have been read in part. -/
structure Draft where
  pinCapacity : Option Nat := none
  softCapacity : Option Nat := none

/-- The settings, where what was not read has its default. -/
def Draft.complete (d : Draft) : SoftSettings :=
  let defaults : SoftSettings := {}
  ⟨d.pinCapacity.getD defaults.pinCapacity, d.softCapacity.getD defaults.softCapacity⟩

/-- The fields in their order. -/
def fields : List (Json.Field Draft) :=
  [.once "pin_capacity" Draft.pinCapacity (fun n d => { d with pinCapacity := some n })
      Json.natural,
    .once "soft_capacity" Draft.softCapacity (fun n d => { d with softCapacity := some n })
      Json.natural]

/-- Reads the settings of a soft layer. -/
def reader : Json.Reader SoftSettings := fun tokens => do
  let (d, rest) ← Json.record fields {} tokens
  return (d.complete, rest)

/-- The settings that a JSON text holds. -/
def ofJson? (text : String) : Option SoftSettings := Json.parse? reader text

end SoftSettings

/-! ## Services -/

/-- The settings of a cache: a base store, a soft layer and perhaps a metered layer. -/
structure ServiceSettings where
  /-- The name of the cache. -/
  id : String := "default"
  soft : SoftSettings := {}
  /-- Whether requests are counted. -/
  metered : Bool := true
  deriving DecidableEq, Inhabited

namespace ServiceSettings

/-- Settings that have been read in part. -/
structure Draft where
  id : Option String := none
  soft : Option SoftSettings := none
  metered : Option Bool := none

/-- The settings, where what was not read has its default. -/
def Draft.complete (d : Draft) : ServiceSettings :=
  let defaults : ServiceSettings := {}
  ⟨d.id.getD defaults.id, d.soft.getD defaults.soft, d.metered.getD defaults.metered⟩

/-- The fields in their order. -/
def fields : List (Json.Field Draft) :=
  [.once "id" Draft.id (fun s d => { d with id := some s }) Json.string,
    .once "soft" Draft.soft (fun s d => { d with soft := some s }) SoftSettings.reader,
    .once "logging" Draft.metered (fun b d => { d with metered := some b }) Json.bool]

/-- Reads the settings of a service. -/
def reader : Json.Reader ServiceSettings := fun tokens => do
  let (d, rest) ← Json.record fields {} tokens
  return (d.complete, rest)

/-- The settings that a JSON text holds. -/
def ofJson? (text : String) : Option ServiceSettings := Json.parse? reader text

end ServiceSettings

/-- Why a settings file could not be loaded. -/
inductive LoadError where
  /-- There is no such file, or it holds no text. -/
  | unreadable (path : String)
  /-- Its text holds no settings. -/
  | malformed (path : String)
  /-- No cache can run with its settings. -/
  | invalid (failure : Failure)
  deriving DecidableEq

/-- The text shown to a reader of the error. -/
def LoadError.message : LoadError → String
  | unreadable path => "reading config " ++ path
  | malformed path => "parsing config " ++ path
  | invalid failure => failure.message

/-- The settings in a file with the given content; `none` is a file that does not exist. -/
def ServiceSettings.load (path : String) (content : Option ByteArray) :
    Except LoadError ServiceSettings :=
  match content.bind String.fromUTF8? with
  | none => .error (.unreadable path)
  | some text =>
    match ofJson? text with
    | none => .error (.malformed path)
    | some settings =>
      match settings.soft.check with
      | .error failure => .error (.invalid failure)
      | .ok () => .ok settings

end SoftTier
