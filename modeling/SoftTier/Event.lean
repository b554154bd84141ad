import SoftTier.Failure

/-!
# Diagnostic events

What the layers report while they work, for someone who follows them from outside. An event never
changes what an operation does. Each has a level, a message and named fields.
-/

namespace SoftTier

/-- How much an event matters. -/
inductive Event.Level where
  | trace
  | debug
  | warn
  deriving DecidableEq

/-- The value of a field of an event. -/
inductive Event.Field where
  | text (s : String)
  | count (n : Nat)
  | flag (b : Bool)
  | ratio (r : Float)

/-- Something that a layer reports. -/
inductive Event where
  /-- A session published its writes. -/
  | committed (cache : String) (writes missed : Nat) (cleared : Bool)
  /-- A commit failed, and so did the release of the keys it had missed. -/
  | releaseFailed (cache : String) (error : Failure)
  /-- A session dropped its writes. -/
  | rolledBack (cache : String) (discarded missed : Nat)
  /-- A metered cache answered a lookup. -/
  | lookedUp (cache : String) (hitRatio : Float)
  /-- A sweep found values that nothing keeps alive any more. -/
  | collected (reclaimed : Nat)
  /-- A soft layer took the entries of reclaimed values out of the store below. -/
  | drained (cache : String) (removed : Nat)

namespace Event

/-- How much it matters. -/
def level : Event → Level
  | committed .. | rolledBack .. | lookedUp .. | collected _ => .debug
  | releaseFailed .. => .warn
  | drained .. => .trace

/-- What happened, in words. -/
def message : Event → String
  | committed .. => "committed transactional cache"
  | releaseFailed .. => "failed to release missed keys after commit error"
  | rolledBack .. => "rolled back transactional cache"
  | lookedUp .. => "cache hit ratio"
  | collected _ => "collected unreachable soft values"
  | drained .. => "removed reclaimed entries"

/-- The details, by name. -/
def fields : Event → List (String × Field)
  | committed cache writes missed cleared =>
    [("cache", .text cache), ("writes", .count writes), ("missed", .count missed),
      ("cleared", .flag cleared)]
  | releaseFailed cache error => [("cache", .text cache), ("error", .text error.message)]
  | rolledBack cache discarded missed =>
    [("cache", .text cache), ("discarded", .count discarded), ("missed", .count missed)]
  | lookedUp cache hitRatio => [("cache", .text cache), ("hit_ratio", .ratio hitRatio)]
  | collected reclaimed => [("reclaimed", .count reclaimed)]
  | drained cache removed => [("cache", .text cache), ("removed", .count removed)]

end Event

end SoftTier
