/-!
# Request counters

`Tally` counts what a metered cache was asked: lookups that found a value, lookups that did not,
writes and removals. The counters are 64-bit words, as a long-lived cache keeps them.
-/

namespace SoftTier

/-- What a cache was asked since it was made or last reset. -/
structure Tally where
  hits : UInt64 := 0
  misses : UInt64 := 0
  writes : UInt64 := 0
  removals : UInt64 := 0
  deriving DecidableEq, Inhabited

namespace Tally

/-- Counts `n` lookups that found a value. -/
def addHits (t : Tally) (n : UInt64) : Tally := { t with hits := t.hits + n }

/-- Counts `n` lookups that found none. -/
def addMisses (t : Tally) (n : UInt64) : Tally := { t with misses := t.misses + n }

/-- Counts `n` writes, of values or of misses. -/
def addWrites (t : Tally) (n : UInt64) : Tally := { t with writes := t.writes + n }

/-- Counts `n` removals. -/
def addRemovals (t : Tally) (n : UInt64) : Tally := { t with removals := t.removals + n }

/-- Counts one lookup by what it found. -/
def addLookup (t : Tally) (found : Bool) : Tally := if found then t.addHits 1 else t.addMisses 1

/-- All lookups. -/
def requests (t : Tally) : UInt64 := t.hits + t.misses

/-- The part of the lookups that found a value, from 0 to 1, and 0 before the first lookup. -/
def hitRatio (t : Tally) : Float :=
  if t.requests = 0 then 0.0 else t.hits.toFloat / t.requests.toFloat

end Tally

end SoftTier
