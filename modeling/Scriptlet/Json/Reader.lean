import Scriptlet.Json.Basic
import Scriptlet.Number.Reading

/-!
JSON values read from text.

Every reader takes the rest of the text and gives what it read with what is left. At most two calls
in a row leave the text as it is, so twice its length bounds the recursion.
-/
namespace Scriptlet.Json

def skipBlanks (cs : List Char) : List Char :=
  cs.dropWhile fun c => c == ' ' || c == '\t' || c == '\n' || c == '\r'

def hexValue? (c : Char) : Option Nat :=
  if c.isDigit then some (c.toNat - '0'.toNat)
  else if 'a' ≤ c ∧ c ≤ 'f' then some (c.toNat - 'a'.toNat + 10)
  else if 'A' ≤ c ∧ c ≤ 'F' then some (c.toNat - 'A'.toNat + 10)
  else none

/-- Four hexadecimal digits. -/
def readUnit? : List Char → Option (Nat × List Char)
  | a :: b :: c :: d :: cs => do
    let a ← hexValue? a
    let b ← hexValue? b
    let c ← hexValue? c
    let d ← hexValue? d
    return (((a * 16 + b) * 16 + c) * 16 + d, cs)
  | _ => none

/-- The character after `\u`: one unit, or a high unit followed by a low one. -/
def readUnits? (cs : List Char) : Option (Char × List Char) := do
  let (high, cs) ← readUnit? cs
  if 0xd800 ≤ high ∧ high < 0xdc00 then
    match cs with
    | '\\' :: 'u' :: cs =>
      let (low, cs) ← readUnit? cs
      if 0xdc00 ≤ low ∧ low < 0xe000 then
        return (Char.ofNat (0x10000 + (high - 0xd800) * 0x400 + (low - 0xdc00)), cs)
      else none
    | _ => none
  else if 0xdc00 ≤ high ∧ high < 0xe000 then none
  else return (Char.ofNat high, cs)

/-- The character that a one-letter escape stands for. -/
def unescape? : Char → Option Char
  | '"' => some '"'
  | '\\' => some '\\'
  | '/' => some '/'
  | 'b' => some '\x08'
  | 'f' => some '\x0c'
  | 'n' => some '\n'
  | 'r' => some '\r'
  | 't' => some '\t'
  | _ => none

/-- The rest of a string, after its opening quote; `read` holds what was read, last character
first. -/
def readString? : Nat → List Char → List Char → Option (String × List Char)
  | 0, _, _ => none
  | _ + 1, read, '"' :: cs => some (String.ofList read.reverse, cs)
  | fuel + 1, read, '\\' :: 'u' :: cs => do
    let (c, cs) ← readUnits? cs
    readString? fuel (c :: read) cs
  | fuel + 1, read, '\\' :: c :: cs => do
    let c ← unescape? c
    readString? fuel (c :: read) cs
  | fuel + 1, read, c :: cs =>
    if c.toNat < 0x20 || c == '\\' then none else readString? fuel (c :: read) cs
  | _ + 1, _, [] => none

/-- The number of a whole literal: an integer if it fits in 64 bits, and the nearest double
otherwise. A negative zero is no integer. -/
def ofWhole (negative : Bool) (n : Nat) : Json :=
  if negative then
    if 0 < n ∧ n ≤ Number.pow2 63 then int (-n) else float (-(Number.Decimal.mk n 0).toFloat)
  else if n < Number.pow2 64 then int n else float (Number.Decimal.mk n 0).toFloat

/-- A number at the start of a text. -/
def readNumber? (cs : List Char) : Option (Json × List Char) := do
  let (negative, cs) := match cs with
    | '-' :: cs => (true, cs)
    | cs => (false, cs)
  let (whole, cs) := Number.takeDigits cs
  if whole.isEmpty || (whole.head? == some '0' && whole.length != 1) then none
  let (hasPoint, fraction, cs) := match cs with
    | '.' :: cs => let (digits, cs) := Number.takeDigits cs; (true, digits, cs)
    | cs => (false, [], cs)
  if hasPoint && fraction.isEmpty then none
  let (power, cs) := cs.span fun c => c.isDigit || c == 'e' || c == 'E' || c == '+' || c == '-'
  if !hasPoint && power.isEmpty then
    return (ofWhole negative (Number.digitsValue whole), cs)
  let power ← Number.readPower? power
  let x := (Number.decimalOf whole fraction power).toFloat
  return (float (if negative then -x else x), cs)

mutual

/-- A value at the start of a text. -/
def readValue? : Nat → List Char → Option (Json × List Char)
  | 0, _ => none
  | fuel + 1, cs =>
    match skipBlanks cs with
    | 'n' :: 'u' :: 'l' :: 'l' :: cs => some (null, cs)
    | 't' :: 'r' :: 'u' :: 'e' :: cs => some (bool true, cs)
    | 'f' :: 'a' :: 'l' :: 's' :: 'e' :: cs => some (bool false, cs)
    | '"' :: cs => do
      let (s, cs) ← readString? fuel [] cs
      return (string s, cs)
    | '[' :: cs =>
      match skipBlanks cs with
      | ']' :: cs => some (array [], cs)
      | cs => do
        let (items, cs) ← readItems? fuel cs
        return (array items, cs)
    | '{' :: cs =>
      match skipBlanks cs with
      | '}' :: cs => some (object [], cs)
      | cs => do
        let (fields, cs) ← readFields? fuel cs
        return (object fields, cs)
    | cs => readNumber? cs

/-- Items up to the closing bracket. -/
def readItems? : Nat → List Char → Option (List Json × List Char)
  | 0, _ => none
  | fuel + 1, cs => do
    let (item, cs) ← readValue? fuel cs
    match skipBlanks cs with
    | ']' :: cs => return ([item], cs)
    | ',' :: cs =>
      let (items, cs) ← readItems? fuel cs
      return (item :: items, cs)
    | _ => none

/-- Fields up to the closing brace. -/
def readFields? : Nat → List Char → Option (List (String × Json) × List Char)
  | 0, _ => none
  | fuel + 1, cs =>
    match skipBlanks cs with
    | '"' :: cs => do
      let (name, cs) ← readString? fuel [] cs
      match skipBlanks cs with
      | ':' :: cs =>
        let (value, cs) ← readValue? fuel cs
        match skipBlanks cs with
        | '}' :: cs => return ([(name, value)], cs)
        | ',' :: cs =>
          let (fields, cs) ← readFields? fuel cs
          return ((name, value) :: fields, cs)
        | _ => none
      | _ => none
    | _ => none

end

/-- The value that makes up the whole of a text. -/
def parse? (text : String) : Option Json := do
  let cs := text.toList
  let (value, rest) ← readValue? (2 * cs.length + 1) cs
  if (skipBlanks rest).isEmpty then return value else none

end Scriptlet.Json
