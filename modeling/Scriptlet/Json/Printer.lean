import Scriptlet.Json.Basic
import Scriptlet.Number.Layout

/-!
JSON values as text, either on one line or with a line for every item and field.
-/
namespace Scriptlet.Json

/-- A character inside a JSON string. Only the quote, the backslash and the ASCII controls are
escaped. -/
def escapeChar (c : Char) : List Char :=
  match c with
  | '"' => ['\\', '"']
  | '\\' => ['\\', '\\']
  | '\n' => ['\\', 'n']
  | '\r' => ['\\', 'r']
  | '\t' => ['\\', 't']
  | '\x08' => ['\\', 'b']
  | '\x0c' => ['\\', 'f']
  | c =>
    if c.toNat < 0x20 then
      '\\' :: 'u' :: '0' :: '0' :: Nat.digitChar (c.toNat / 16) :: [Nat.digitChar (c.toNat % 16)]
    else [c]

def quote (s : String) : String :=
  String.ofList ('"' :: s.toList.flatMap escapeChar ++ ['"'])

/-- A number that is not finite has no JSON form and is written as null. -/
def writeFloat (x : Float) : String :=
  if Number.isFinite x then Number.write .listing x else "null"

mutual

/-- The value on one line, without blanks. -/
def compact : Json → String
  | null => "null"
  | bool b => if b then "true" else "false"
  | int n => toString n
  | float x => writeFloat x
  | string s => quote s
  | array items => "[" ++ compactItems items ++ "]"
  | object fields => "\x7b" ++ compactFields fields ++ "\x7d"

def compactItems : List Json → String
  | [] => ""
  | [item] => compact item
  | item :: items => compact item ++ "," ++ compactItems items

def compactFields : List (String × Json) → String
  | [] => ""
  | [(name, value)] => quote name ++ ":" ++ compact value
  | (name, value) :: fields => quote name ++ ":" ++ compact value ++ "," ++ compactFields fields

end

/-- A line break and the blanks of a line at this depth. -/
def newline (depth : Nat) : String :=
  String.ofList ('\n' :: List.replicate (2 * depth) ' ')

mutual

/-- The value over several lines, each level two blanks deeper than the one around it. -/
def pretty (depth : Nat) : Json → String
  | array [] => "[]"
  | array items =>
    "[" ++ newline (depth + 1) ++ prettyItems (depth + 1) items ++ newline depth ++ "]"
  | object [] => "\x7b\x7d"
  | object fields =>
    "\x7b" ++ newline (depth + 1) ++ prettyFields (depth + 1) fields ++ newline depth ++ "\x7d"
  | null => "null"
  | bool b => if b then "true" else "false"
  | int n => toString n
  | float x => writeFloat x
  | string s => quote s

def prettyItems (depth : Nat) : List Json → String
  | [] => ""
  | [item] => pretty depth item
  | item :: items => pretty depth item ++ "," ++ newline depth ++ prettyItems depth items

def prettyFields (depth : Nat) : List (String × Json) → String
  | [] => ""
  | [(name, value)] => quote name ++ ": " ++ pretty depth value
  | (name, value) :: fields =>
    quote name ++ ": " ++ pretty depth value ++ "," ++ newline depth ++ prettyFields depth fields

end

end Scriptlet.Json
