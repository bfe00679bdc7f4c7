import ClauseResolution.Number.Binary64

/-!
# Shortest decimal digits

Every real number close enough to a binary64 number rounds to it. The decimals
printed here are points of the coarsest power-of-ten grid that has a point among
those reals, hence the ones with the fewest digits. All comparisons are exact
comparisons of natural numbers.
-/

namespace ClauseResolution

/-- The decimal `digits * 10 ^ exponent`. -/
structure Decimal where
  /-- The digits, read as one number. -/
  digits : Nat
  /-- The power of ten of the last digit. -/
  exponent : Int
  deriving DecidableEq

/-- Which of two equally near decimals is taken. -/
inductive Tie
  /-- The one whose last digit is even. -/
  | even
  /-- The larger one. -/
  | up
  deriving DecidableEq

/-- The reals that round to a positive number `value`, in quarters of the unit of
its significand: from `low` to `high`, with the ends when `closed`. -/
structure RoundingInterval where
  /-- The lower end. -/
  low : Nat
  /-- The number itself. -/
  value : Nat
  /-- The upper end. -/
  high : Nat
  /-- Whether the ends round to the number. -/
  closed : Bool
  /-- The exponent of two of the quarter unit. -/
  scale : Int

/-- The reals that round to a finite positive number. Below a power of two the
numbers lie twice as dense, and an end belongs to the even significand. -/
def Binary64.roundingInterval (x : Binary64) : RoundingInterval where
  low := 4 * x.significand - if x.fractionField = 0 ∧ 1 < x.exponentField then 1 else 2
  value := 4 * x.significand
  high := 4 * x.significand + 2
  closed := x.significand % 2 = 0
  scale := x.scale - 2

namespace RoundingInterval

/-- The width of the grid of multiples of `10 ^ exponent`, in the units of the
interval, as a fraction. -/
def grid (i : RoundingInterval) (exponent : Int) : Nat × Nat :=
  (tenPow exponent.toNat * twoPow (-i.scale).toNat,
    tenPow (-exponent).toNat * twoPow i.scale.toNat)

/-- The multiple `n` of the grid width `width / unit` lies in the interval. -/
def holds (i : RoundingInterval) (width unit n : Nat) : Bool :=
  if i.closed then i.low * unit ≤ n * width && n * width ≤ i.high * unit
  else i.low * unit < n * width && n * width < i.high * unit

/-- The point of the grid `10 ^ exponent` that is nearest to the number among those in
the interval. Only the two neighbours of the number can be that point. -/
def nearest? (i : RoundingInterval) (tie : Tie) (exponent : Int) : Option Nat :=
  let (width, unit) := i.grid exponent
  let below := i.value * unit / width
  let rest := i.value * unit % width
  match i.holds width unit below, i.holds width unit (below + 1) with
  | false, false => none
  | true, false => some below
  | false, true => some (below + 1)
  | true, true =>
    if 2 * rest < width then some below
    else if width < 2 * rest then some (below + 1)
    else match tie with
      | .even => some (if below % 2 = 0 then below else below + 1)
      | .up => some (below + 1)

/-- The first grid with a point in the interval, from `10 ^ exponent` down. -/
def coarsest (i : RoundingInterval) (tie : Tie) : Nat → Int → Decimal
  | 0, exponent => ⟨i.value, exponent⟩
  | steps + 1, exponent =>
    match i.nearest? tie exponent with
    | some digits => ⟨digits, exponent⟩
    | none => coarsest i tie steps (exponent - 1)

end RoundingInterval

namespace Decimal

/-- The magnitude of a finite nonzero number in the fewest digits that read back. No
such number reaches `10 ^ 309`, and `10 ^ (-324)` is finer than the spacing of all. -/
def shortest (tie : Tie) (x : Binary64) : Decimal :=
  x.roundingInterval.coarsest tie 640 309

/-- The digits as text. -/
def text (d : Decimal) : List Char := Nat.toDigits 10 d.digits

/-- The power of ten of the first digit. -/
def leadingExponent (d : Decimal) : Int := d.exponent + d.text.length - 1

/-- The digits before and after the decimal point in positional notation. -/
def positional (d : Decimal) : List Char × List Char :=
  let shift := (-d.exponent).toNat
  let digits := d.text ++ List.replicate d.exponent.toNat '0'
  let padded := List.replicate (shift + 1 - digits.length) '0' ++ digits
  padded.splitAt (padded.length - shift)

end Decimal

end ClauseResolution
