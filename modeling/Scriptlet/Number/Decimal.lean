import Scriptlet.Number.Binary

/-!
The shortest decimal of a double, and the double nearest to a decimal.

All reals in an interval around a double round to it. `Decimal.ofBinary` looks for the decimal with
the fewest digits in that interval: for one digit, two digits, and so on, it tests the two
neighbours of the number on the grid of that many digits; the nearer of two hits wins, and `Ties`
says which of two hits at the same distance does. Seventeen digits always suffice.

The comparisons are between naturals. In units of a quarter of the last place the number is
`4 · mantissa`, the upper end of the interval is two more, and the lower end two less, or one less
where the spacing of the doubles halves below a power of two.
-/
namespace Scriptlet.Number

/-- The number `coefficient · 10 ^ exponent`. -/
structure Decimal where
  coefficient : Nat
  exponent : Int
  deriving DecidableEq, Repr

namespace Decimal

/-- Move zeros at the end of the coefficient to the exponent. -/
def trim (d : Decimal) : Decimal :=
  go d.coefficient.log2 d
where
  go : Nat → Decimal → Decimal
    | 0, d => d
    | fuel + 1, d =>
      if d.coefficient % 10 = 0 then go fuel ⟨d.coefficient / 10, d.exponent + 1⟩ else d

/-- The digits of the coefficient. -/
def digits (d : Decimal) : List Char :=
  Nat.toDigits 10 d.coefficient

/-- The place of the decimal point, counted from before the first digit: the number is
`0.d₁d₂… · 10 ^ point`. -/
def point (d : Decimal) : Int :=
  d.digits.length + d.exponent

/-- The power `10 ^ n`. -/
def pow10 (n : Nat) : Nat := Nat.pow 10 n

/-- The ratio `2 ^ q / 10 ^ k`, as a fraction of naturals. -/
def gridRatio (q k : Int) : Nat × Nat :=
  (pow2 q.toNat * pow10 (-k).toNat, pow10 k.toNat * pow2 (-q).toNat)

/-- The least `p` with `mantissa · 2 ^ exponent < 10 ^ p`. The estimate from the binary logarithm is
that number or one below it, and a comparison settles which. -/
def decimalPoint (mantissa : Nat) (exponent : Int) : Int :=
  let estimate := (mantissa.log2 + exponent) * 30103 / 100000 + 1
  let (num, den) := gridRatio exponent estimate
  if mantissa * num < den then estimate else estimate + 1

/-- Which of two decimals that are equally near is taken. -/
inductive Ties where
  | up
  | even
  deriving DecidableEq, Repr

/-- Whether the lower one of two neighbours is taken, of which `c` is the lower. -/
def Ties.takesLower : Ties → Nat → Bool
  | up, _ => false
  | even, c => c % 2 == 0

/-- The decimal on the grid of `n` digits that reads back as `mantissa · 2 ^ exponent`. -/
def onGrid? (ties : Ties) (mantissa : Nat) (exponent point : Int) (n : Nat) : Option Decimal :=
  let k := point - n
  let (num, den) := gridRatio (exponent - 2) k
  let below := if mantissa = pow2 52 ∧ minExponent < exponent then 1 else 2
  let value := 4 * mantissa * num
  let low := (4 * mantissa - below) * num
  let high := (4 * mantissa + 2) * num
  let inside (c : Nat) : Bool :=
    if mantissa % 2 = 0 then low ≤ c * den && c * den ≤ high
    else low < c * den && c * den < high
  let floor := value / den
  let downGap := value - floor * den
  let upGap := (floor + 1) * den - value
  let lower := downGap < upGap || (downGap == upGap && ties.takesLower floor)
  if inside floor && (lower || !inside (floor + 1)) then some ⟨floor, k⟩
  else if inside (floor + 1) then some ⟨floor + 1, k⟩
  else none

/-- The shortest decimal that reads back as `mantissa · 2 ^ exponent`, nearest to it among those. -/
def ofBinary (ties : Ties) (mantissa : Nat) (exponent : Int) : Decimal :=
  if mantissa = 0 then ⟨0, 0⟩
  else
    let point := decimalPoint mantissa exponent
    let shortest? := (List.range 17).findSome? fun n => onGrid? ties mantissa exponent point (n + 1)
    (shortest?.getD ⟨0, 0⟩).trim

/-- The double nearest to a decimal. Beyond the range of the doubles in either direction the answer
does not depend on the digits, so no power of ten is larger than the digits make it. -/
def toFloat (d : Decimal) : Float :=
  if d.coefficient = 0 then 0
  else if d.point > 310 then infinity
  else if d.point < -330 then 0
  else Float.ofScientific d.coefficient (d.exponent < 0) d.exponent.natAbs

end Decimal
end Scriptlet.Number
