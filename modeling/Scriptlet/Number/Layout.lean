import Scriptlet.Number.Decimal

/-!
How numbers are written.

A finite number is written with its shortest digits. A `Layout` says at which sizes the digits stand
in their places and at which sizes they are followed by a power of ten, whether a whole number keeps
a zero after the point, whether a positive power has a sign, and which digits are taken when two
choices are equally near. The language writes numbers in three layouts: in rendered values and
messages, in listings of tokens, and in listings of trees.
-/
namespace Scriptlet.Number

structure Layout where
  /-- Whether a number whose decimal point is there is written without a power of ten. -/
  positional (point : Int) : Bool
  /-- Whether a whole number written without a power of ten ends in `.0`. -/
  wholePoint : Bool
  /-- Whether a positive power of ten has a plus sign. -/
  plusSign : Bool
  ties : Decimal.Ties

namespace Layout

/-- All digits in their places, and no point in a whole number. -/
def plain : Layout where
  positional _ := true
  wholePoint := false
  plusSign := false
  ties := .up

/-- Positional from `0.0001` up to below `10 ^ 16`. -/
def token : Layout where
  positional point := -4 < point && point ≤ 16
  wholePoint := true
  plusSign := false
  ties := .up

/-- Positional from `0.00001` up to below `10 ^ 16`. -/
def listing : Layout where
  positional point := -5 < point && point ≤ 16
  wholePoint := true
  plusSign := true
  ties := .even

end Layout

def zeros (n : Nat) : List Char :=
  List.replicate n '0'

/-- Digits in their places. -/
def writePositional (wholePoint : Bool) (digits : List Char) (exponent : Int) : List Char :=
  let suffix := if wholePoint then ['.', '0'] else []
  if 0 ≤ exponent then
    digits ++ zeros exponent.toNat ++ suffix
  else
    let places := (-exponent).toNat
    if places < digits.length then
      digits.take (digits.length - places) ++ '.' :: digits.drop (digits.length - places)
    else
      '0' :: '.' :: zeros (places - digits.length) ++ digits

/-- One digit before the point, and the power of ten behind. -/
def writeScientific (plusSign : Bool) (digits : List Char) (point : Int) : List Char :=
  let power := point - 1
  let fraction := match digits.drop 1 with
    | [] => []
    | rest => '.' :: rest
  let sign := if power < 0 then ['-'] else if plusSign then ['+'] else []
  digits.take 1 ++ fraction ++ 'e' :: sign ++ Nat.toDigits 10 power.natAbs

def writeDecimal (layout : Layout) (d : Decimal) : List Char :=
  if d.coefficient = 0 || layout.positional d.point then
    writePositional layout.wholePoint d.digits d.exponent
  else
    writeScientific layout.plusSign d.digits d.point

/-- The text of a number in a layout. -/
def write (layout : Layout) (x : Float) : String :=
  match parts x with
  | .nan => "NaN"
  | .infinite negative => if negative then "-inf" else "inf"
  | .finite negative mantissa exponent =>
    let text := writeDecimal layout (Decimal.ofBinary layout.ties mantissa exponent)
    String.ofList (if negative then '-' :: text else text)

/-- The text of a number in values and messages. -/
def text (x : Float) : String :=
  write .plain x

end Scriptlet.Number
