/-!
# What can go wrong

A miss is never an error. What is left falls into two classes, kept apart in the types:

- `Failure`: a store could not do what was asked of it, or a cache was configured in a way it cannot
  run with. Layers hand failures on unchanged.
- `Violation`: a caller broke a requirement of a data structure. It ends the run.
- `Fault`: either of the two, for the few operations that can meet both.

Each class has one function `message` with its wording.
-/

namespace SoftTier

/-- Why a cache operation failed. -/
inductive Failure where
  /-- The backing store failed for a reason it gives as text. -/
  | backend (reason : String)
  /-- The backing store failed because of a failure of its own. -/
  | caused (cause : Failure)
  /-- The configuration is not one a cache can run with. -/
  | config (reason : String)
  deriving DecidableEq, Inhabited

namespace Failure

/-- The text shown to a reader of the failure. -/
def message : Failure → String
  | backend reason => "backend error: " ++ reason
  | caused cause => "backend error: " ++ cause.message
  | config reason => "config error: " ++ reason

/-- The texts of what lies behind a failure, the nearest first: a backing store's failure has its
reason behind it, a configuration failure has nothing. -/
def sources : Failure → List String
  | backend reason => [reason]
  | caused cause => cause.message :: cause.sources
  | config _ => []

/-- Soft retention needs room for at least one value. -/
def softCapacityZero : Failure := config "soft_capacity must be greater than 0"

end Failure

/-- A requirement that a caller broke. -/
inductive Violation where
  /-- A recency list was asked to hold nothing at all. -/
  | zeroCapacity
  deriving DecidableEq

namespace Violation

/-- The text shown when the run ends. -/
def message : Violation → String
  | zeroCapacity => "Capacity must be greater than 0"

end Violation

/-- A failure, or a broken requirement. -/
inductive Fault where
  | failure (f : Failure)
  | violation (v : Violation)
  deriving DecidableEq

namespace Fault

/-- The text of whichever it is. -/
def message : Fault → String
  | failure f => f.message
  | violation v => v.message

end Fault

end SoftTier
