import Scriptlet.Text.Hidden

/-!
Quoted text.

A text in quotes is written so that it can be told apart from any other: the quote and the backslash
are escaped, four controls have a letter of their own, and every other hidden character is written
by its number in braces.
-/
namespace Scriptlet.Text

/-- How one character is written inside quotes. -/
def quoteChar (c : Char) : List Char :=
  match c with
  | '\x00' => ['\\', '0']
  | '\t' => ['\\', 't']
  | '\r' => ['\\', 'r']
  | '\n' => ['\\', 'n']
  | '\\' => ['\\', '\\']
  | '"' => ['\\', '"']
  | c => if isHidden c then '\\' :: 'u' :: '{' :: Nat.toDigits 16 c.toNat ++ ['}'] else [c]

/-- A text in quotes, as characters. -/
def quoteChars (cs : List Char) : List Char :=
  '"' :: cs.flatMap quoteChar ++ ['"']

/-- A text in quotes. -/
def quote (s : String) : String :=
  String.ofList (quoteChars s.toList)

end Scriptlet.Text
