import ClauseResolution.Number.Decimal

/-!
# Numeric constants

A numeric constant is a 64-bit integer or a binary64 number. The two kinds are
never equal to each other.
-/

namespace ClauseResolution

/-- A numeric constant. -/
inductive Number
  /-- A signed 64-bit integer. -/
  | int (value : Int64)
  /-- A double precision number. -/
  | float (value : Binary64)
  deriving DecidableEq

/-- The text of a double precision number: all digits of an integral value and one
zero after the point, otherwise the fewest digits that read back, never with an
exponent. Of two equally near decimals the larger one is written. -/
def Binary64.text (x : Binary64) : String :=
  let sign := if x.isNegative then "-" else ""
  if x.isNaN then "NaN"
  else if !x.isFinite then sign ++ "inf"
  else if x.isIntegral then sign ++ toString x.integralMagnitude ++ ".0"
  else
    let (whole, fraction) := (Decimal.shortest .up x).positional
    sign ++ String.ofList whole ++ "." ++ String.ofList fraction

namespace Number

/-- Equality by kind and value. -/
def same : Number → Number → Bool
  | .int a, .int b => a == b
  | .float a, .float b => a.same b
  | _, _ => false

/-- The text of a numeric constant. -/
def text : Number → String
  | .int value => toString value.toInt
  | .float value => value.text

end Number

end ClauseResolution
