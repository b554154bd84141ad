/-!
# Percentages in two decimals

A ratio is a double, and its percentage is written with two decimals. The digits are those of the
exact value of the double, rounded to the nearer hundredth; a half goes to the even neighbour.

- `roundDiv`: the quotient of natural numbers, rounded that way.
- `hundredths`: a double in hundredths, rounded that way.
- `percentText`: the percentage of a ratio.
-/

namespace SoftTier

/-- The natural number nearest to `num / den`; a half goes to the even one. -/
def roundDiv (num den : Nat) : Nat :=
  let q := num / den
  let r := num % den
  if den < 2 * r || 2 * r = den && q % 2 = 1 then q + 1 else q

/-- The natural number nearest to a hundred times the double with these bits, which is neither
negative nor infinite: `m · 2 ^ e` with a mantissa of 53 bits, fewer for the smallest doubles. -/
def hundredths (bits : UInt64) : Nat :=
  let field := ((bits >>> 52) &&& 0x7FF).toNat
  let low := (bits &&& 0xFFFFFFFFFFFFF).toNat
  let (mantissa, exponent) := if field = 0 then (low, 1) else (low + Nat.pow 2 52, field)
  if 1075 ≤ exponent then mantissa * Nat.pow 2 (exponent - 1075) * 100
  else roundDiv (mantissa * 100) (Nat.pow 2 (1075 - exponent))

/-- A number of hundredths with two decimals. -/
def decimalText (n : Nat) : String :=
  let cents := toString (n % 100)
  toString (n / 100) ++ "." ++ (if n % 100 < 10 then "0" ++ cents else cents)

/-- A ratio as a percentage with two decimals. -/
def percentText (ratio : Float) : String := decimalText (hundredths (ratio * 100.0).toBits) ++ "%"

end SoftTier
