import ClauseResolution.Json.Basic
import ClauseResolution.Number.Decimal

/-!
# The values of JSON numbers

A number without point and exponent is an integer as long as 64 bits hold it, except
for `-0`, which is a double precision number. Every other number is read as double
precision: as many digits as fit into 64 bits are taken as an integer, which is
then scaled by one power of ten in double precision. The result may differ from the
nearest number in the last place. A number beyond the finite range has no value.
-/

namespace ClauseResolution.Numeral

/-- The value of a digit. -/
def digitValue (c : Char) : Nat := c.toNat - '0'.toNat

/-- Digits are taken while the number they form stays below this bound. -/
def wordBound : Nat := twoPow 64

/-- The number formed by the leading digits that fit into a word, continued from
`value`, and the count of the digits left over. -/
def leading (value : Nat) : List Char → Nat × Nat
  | [] => (value, 0)
  | c :: rest =>
    let next := 10 * value + digitValue c
    if next < wordBound then leading next rest else (value, rest.length + 1)

/-- The integer a spelling denotes, if it is one of 64 bits. -/
def int? (n : Numeral) : Option Int :=
  match n.fraction, n.exponent, leading 0 n.whole with
  | [], none, (value, 0) =>
    if n.negative then (if 0 < value ∧ value ≤ twoPow 63 then some (-(value : Int)) else none)
    else some value
  | _, _, _ => none

/-- The natural number a spelling denotes, if it is one of 64 bits. -/
def nat? (n : Numeral) : Option Nat :=
  n.int?.bind fun value => if 0 ≤ value then some value.toNat else none

/-- The signed integer a spelling denotes, if it is one of 64 bits. -/
def int64? (n : Numeral) : Option Int64 :=
  n.int?.bind fun value => if value < twoPow 63 then some (Int64.ofInt value) else none

/-- The largest power of ten in double precision. -/
def largestPower : Int := 308

/-- A power of ten in double precision. -/
def powerOfTen (exponent : Nat) : Float := Float.ofScientific 1 false exponent

/-- Scales by a power of ten, in steps when it is smaller than the smallest one that has
an inverse in double precision. -/
def scaled (x : Float) (exponent : Int) : Option Float :=
  if 0 ≤ exponent then
    if exponent ≤ largestPower then
      let y := x * powerOfTen exponent.toNat
      if y.isInf then none else some y
    else if x == 0.0 then some x else none
  else if -largestPower ≤ exponent then some (x / powerOfTen (-exponent).toNat)
  else if x == 0.0 then some x
  else scaled (x / powerOfTen largestPower.toNat) (exponent + largestPower)
termination_by (-exponent).toNat
decreasing_by simp only [largestPower] at *; omega

/-- Exponents from here on are not computed with. -/
def exponentBound : Nat := twoPow 31

/-- The magnitude of a number in double precision. -/
def magnitude? (n : Numeral) : Option Float :=
  let (whole, dropped) := leading 0 n.whole
  let (value, ignored) := leading whole n.fraction
  let x := (UInt64.ofNat value).toFloat
  let point : Int := (dropped : Int) - ((n.fraction.length - ignored : Nat) : Int)
  match n.exponent with
  | none => scaled x point
  | some (negative, digits) =>
    let exponent := digits.foldl (fun e c => 10 * e + digitValue c) 0
    if exponent < exponentBound then
      scaled x (if negative then point - exponent else point + exponent)
    else if negative ∨ value = 0 then some 0.0
    else none

/-- The value of a number in double precision. -/
def float? (n : Numeral) : Option Binary64 :=
  n.magnitude?.map fun x => .ofFloat (if n.negative then -x else x)

/-- The spelling of a natural number. -/
def ofNat (n : Nat) : Numeral := ⟨false, Nat.toDigits 10 n, [], none⟩

/-- The spelling of an integer. -/
def ofInt (n : Int) : Numeral := ⟨decide (n < 0), Nat.toDigits 10 n.natAbs, [], none⟩

/-- The spelling of a finite number: the fewest digits that read back, of two equally
near ones the even one, always with a point or an exponent. An exponent is written
where the first digit has a power of ten below `-5` or above `15`. -/
def ofBinary64 (x : Binary64) : Numeral :=
  if x.isZero then ⟨x.isNegative, ['0'], ['0'], none⟩
  else
    let decimal := Decimal.shortest .even x
    let leadingExponent := decimal.leadingExponent
    if -5 ≤ leadingExponent ∧ leadingExponent ≤ 15 then
      let (whole, fraction) := decimal.positional
      ⟨x.isNegative, whole, if fraction.isEmpty then ['0'] else fraction, none⟩
    else
      let exponent := (decide (leadingExponent < 0), Nat.toDigits 10 leadingExponent.natAbs)
      match decimal.text with
      | [] => ⟨x.isNegative, ['0'], [], some exponent⟩
      | first :: rest => ⟨x.isNegative, [first], rest, some exponent⟩

end ClauseResolution.Numeral
