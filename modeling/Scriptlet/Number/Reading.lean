import Scriptlet.Number.Decimal

/-!
Numbers read from text.

`Number.read?` reads the whole of a text as a number: a sign, then either one of the words for an
infinity or for no number, in capitals or not, or digits with an optional point, at least one digit
on one side of it, and an optional power of ten. The number is the double nearest to what is
written.
-/
namespace Scriptlet.Number

/-- The value of a run of decimal digits. -/
def digitsValue (cs : List Char) : Nat :=
  cs.foldl (fun n c => 10 * n + (c.toNat - '0'.toNat)) 0

/-- The digits at the start of a text, and the rest. -/
def takeDigits (cs : List Char) : List Char × List Char :=
  (cs.takeWhile Char.isDigit, cs.dropWhile Char.isDigit)

/-- A sign at the start of a text (whether it is a minus), and the rest. -/
def takeSign : List Char → Bool × List Char
  | '-' :: cs => (true, cs)
  | '+' :: cs => (false, cs)
  | cs => (false, cs)

/-- The decimal with these digits before and after the point and this power of ten. -/
def decimalOf (whole fraction : List Char) (power : Int) : Decimal :=
  ⟨digitsValue (whole ++ fraction), power - fraction.length⟩

/-- A power of ten that makes up the whole of a text; an empty text is the power zero. -/
def readPower? : List Char → Option Int
  | [] => some 0
  | c :: cs =>
    if c = 'e' || c = 'E' then
      let (negative, cs) := takeSign cs
      let (digits, rest) := takeDigits cs
      if digits.isEmpty || !rest.isEmpty then none
      else some (if negative then -digitsValue digits else digitsValue digits)
    else none

/-- Digits with an optional point and power, without a sign. -/
def readDigits? (cs : List Char) : Option Decimal :=
  let (whole, rest) := takeDigits cs
  let (fraction, rest) := match rest with
    | '.' :: rest => takeDigits rest
    | rest => ([], rest)
  if whole.isEmpty && fraction.isEmpty then none
  else (readPower? rest).map (decimalOf whole fraction)

/-- The number without its sign. -/
def readMagnitude? (cs : List Char) : Option Float :=
  let word := String.ofList (cs.map Char.toLower)
  if word = "inf" || word = "infinity" then some infinity
  else if word = "nan" then some nan
  else (readDigits? cs).map Decimal.toFloat

/-- The number that makes up the whole of a text. -/
def read? (cs : List Char) : Option Float :=
  let (negative, cs) := takeSign cs
  (readMagnitude? cs).map fun x => if negative then -x else x

end Scriptlet.Number
