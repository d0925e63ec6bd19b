/-!
Double-precision numbers taken apart.

A finite double is `± mantissa · 2 ^ exponent` with a natural mantissa below `2 ^ 53`, so every
question the language asks of a number beyond the four operations (is it whole, which index is it,
what is the remainder of a division) is answered by exact arithmetic on naturals:

* `Number.parts` reads the three fields of the bit pattern, `Number.ofParts` writes them;
* `Number.toInt?` is the integer that a whole number stands for;
* `Number.toIndex?` is the position that a number names, at most `Number.maxIndex`;
* `Number.remainder` is the remainder of the truncated division, with the sign of the dividend.
-/
namespace Scriptlet.Number

/-- What a double stands for. -/
inductive Parts where
  | nan
  | infinite (negative : Bool)
  /-- The number `± mantissa · 2 ^ exponent`. -/
  | finite (negative : Bool) (mantissa : Nat) (exponent : Int)
  deriving DecidableEq, Repr

/-- The power `2 ^ n`. -/
def pow2 (n : Nat) : Nat := 1 <<< n

/-- The exponent of the least positive double. -/
def minExponent : Int := -1074

/-- The fields of a double. A zero exponent field stands for the numbers below `2 ^ -1022`, which
have no leading bit of their own. -/
def parts (x : Float) : Parts :=
  let bits := x.toBits.toNat
  let negative := bits / pow2 63 == 1
  let exponent : Nat := bits / pow2 52 % pow2 11
  let fraction := bits % pow2 52
  if exponent = 2047 then
    if fraction = 0 then .infinite negative else .nan
  else if exponent = 0 then
    .finite negative fraction minExponent
  else
    .finite negative (fraction + pow2 52) (exponent - 1075)

/-- The double `± mantissa · 2 ^ exponent`, for a mantissa below `2 ^ 53` and an exponent of at least
`minExponent` such that the number is a double. -/
def ofParts (negative : Bool) (mantissa : Nat) (exponent : Int) : Float :=
  let sign : Nat := if negative then pow2 63 else 0
  if mantissa = 0 then
    .ofBits (.ofNat sign)
  else
    let shift := min (52 - mantissa.log2) (exponent - minExponent).toNat
    let mantissa := mantissa * pow2 shift
    let exponent := exponent - shift
    if mantissa < pow2 52 then
      .ofBits (.ofNat (sign + mantissa))
    else
      .ofBits (.ofNat (sign + (exponent + 1075).toNat * pow2 52 + (mantissa - pow2 52)))

def isFinite (x : Float) : Bool :=
  match parts x with
  | .finite .. => true
  | _ => false

/-- The integer that a whole number stands for; none for a fraction, an infinity or no number. -/
def toInt? (x : Float) : Option Int :=
  match parts x with
  | .finite negative mantissa exponent =>
    let magnitude? : Option Nat :=
      if 0 ≤ exponent then
        some (mantissa * pow2 exponent.toNat)
      else
        let unit := pow2 (-exponent).toNat
        if mantissa % unit = 0 then some (mantissa / unit) else none
    magnitude?.map fun n => if negative then -n else n
  | _ => none

def isWhole (x : Float) : Bool :=
  (toInt? x).isSome

/-- The largest position a number can name; larger whole numbers name it too. -/
def maxIndex : Nat := pow2 64 - 1

/-- The position named by a whole number that is not below zero (a negative zero is zero). -/
def toIndex? (x : Float) : Option Nat :=
  match toInt? x with
  | some (.ofNat n) => some (min n maxIndex)
  | _ => none

/-- The number of a position or a length. -/
def ofIndex (n : Nat) : Float :=
  Float.ofNat n

def infinity : Float := .ofBits 0x7ff0000000000000

def negativeInfinity : Float := .ofBits 0xfff0000000000000

def nan : Float := .ofBits 0x7ff8000000000000

/-- The remainder `x - y · t`, where `t` is `x / y` cut off towards zero, computed exactly: it is a
multiple of the smaller unit of the two. A zero remainder keeps the sign of the dividend. -/
def remainder (x y : Float) : Float :=
  match parts x, parts y with
  | .finite .., .infinite _ => x
  | .finite negative m e, .finite _ n f =>
    if n = 0 then nan
    else
      let unit := min e f
      let rest := m * pow2 (e - unit).toNat % (n * pow2 (f - unit).toNat)
      ofParts negative rest unit
  | _, _ => nan

end Scriptlet.Number
