import Scriptlet.Number.Reading
import Scriptlet.Token.Basic

/-!
Text split into tokens.

`Lexeme.munch` takes the longest lexeme that stands at the start of a text; a word that is spelled
like a keyword is one. `Token.scan` splits a text into lexemes from left to right and keeps those
that are not blanks or comments, with the bytes they take up. It stops at the first place where no
lexeme can be taken, or at a text literal with an escape that is not known.
-/
namespace Scriptlet

/-- The kinds of lexemes. -/
inductive Lexeme where
  | blank
  | comment
  | number
  | word
  | literal
  | symbol (s : Symbol)
  deriving DecidableEq, Repr

namespace Lexeme

def isBlank (c : Char) : Bool :=
  c == ' ' || c == '\t' || c == '\n' || c == '\r'

def isWordStart (c : Char) : Bool :=
  c.isAlpha || c == '_'

def isWordPart (c : Char) : Bool :=
  c.isAlphanum || c == '_'

/-- A point and the digits after it, if there is a digit. -/
def fraction : List Char → List Char × List Char
  | '.' :: c :: cs =>
    if c.isDigit then ('.' :: c :: cs.takeWhile Char.isDigit, cs.dropWhile Char.isDigit)
    else ([], '.' :: c :: cs)
  | cs => ([], cs)

/-- A power of ten, if its digits are there. -/
def power : List Char → List Char × List Char
  | e :: s :: c :: cs =>
    if (e == 'e' || e == 'E') && (s == '+' || s == '-') && c.isDigit then
      (e :: s :: c :: cs.takeWhile Char.isDigit, cs.dropWhile Char.isDigit)
    else if (e == 'e' || e == 'E') && s.isDigit then
      (e :: s :: (c :: cs).takeWhile Char.isDigit, (c :: cs).dropWhile Char.isDigit)
    else ([], e :: s :: c :: cs)
  | [e, s] => if (e == 'e' || e == 'E') && s.isDigit then ([e, s], []) else ([], [e, s])
  | cs => ([], cs)

/-- The rest of a number that starts with a digit. -/
def numberTail (cs : List Char) : List Char × List Char :=
  let whole := cs.takeWhile Char.isDigit
  let (fraction, cs) := fraction (cs.dropWhile Char.isDigit)
  let (power, cs) := power cs
  (whole ++ fraction ++ power, cs)

/-- What of a text literal stands after its opening quote, and whether it is closed. A backslash
takes the next character with it, unless that is a line feed. -/
def literalTail : List Char → List Char × List Char × Bool
  | [] => ([], [], false)
  | '"' :: cs => (['"'], cs, true)
  | ['\\'] => ([], ['\\'], false)
  | '\\' :: c :: cs =>
    if c = '\n' then ([], '\\' :: c :: cs, false)
    else
      let (taken, rest, closed) := literalTail cs
      ('\\' :: c :: taken, rest, closed)
  | c :: cs =>
    let (taken, rest, closed) := literalTail cs
    (c :: taken, rest, closed)

/-- The symbol made of one character. -/
def symbolOne? : Char → Option Symbol
  | '+' => some .plus | '-' => some .minus | '*' => some .star | '/' => some .slash
  | '%' => some .percent | '!' => some .bang | '$' => some .dollar | '=' => some .assign
  | '<' => some .less | '>' => some .greater | '?' => some .question | ':' => some .colon
  | '(' => some .openParen | ')' => some .closeParen
  | '[' => some .openBracket | ']' => some .closeBracket
  | '{' => some .openBrace | '}' => some .closeBrace
  | ',' => some .comma | ';' => some .semicolon
  | _ => none

/-- The symbol made of two characters. -/
def symbolTwo? : Char → Char → Option Symbol
  | ':', '=' => some .define
  | '=', '=' => some .equal
  | '!', '=' => some .notEqual
  | '<', '=' => some .lessEqual
  | '>', '=' => some .greaterEqual
  | '.', '.' => some .dots
  | _, _ => none

/-- The longest symbol at the start of a text. -/
def symbol? (c : Char) (cs : List Char) : Option (Symbol × List Char × List Char) :=
  match cs with
  | d :: rest =>
    match symbolTwo? c d with
    | some s => some (s, [c, d], rest)
    | none => (symbolOne? c).map fun s => (s, [c], cs)
  | [] => (symbolOne? c).map fun s => (s, [c], [])

/-- The longest lexeme at the start of the text `c :: cs`, and the rest of the text. -/
def munch (c : Char) (cs : List Char) : Option (Lexeme × List Char × List Char) :=
  if isBlank c then
    some (blank, c :: cs.takeWhile isBlank, cs.dropWhile isBlank)
  else if c = '/' ∧ cs.head? = some '/' then
    some (comment, c :: cs.takeWhile (· != '\n'), cs.dropWhile (· != '\n'))
  else if c.isDigit then
    let (taken, rest) := numberTail cs
    some (number, c :: taken, rest)
  else if isWordStart c then
    some (word, c :: cs.takeWhile isWordPart, cs.dropWhile isWordPart)
  else if c = '"' then
    match literalTail cs with
    | (taken, rest, true) => some (literal, c :: taken, rest)
    | (_, _, false) => none
  else
    (symbol? c cs).map fun (s, taken, rest) => (symbol s, taken, rest)

end Lexeme

/-- Why a text cannot be split into tokens. -/
inductive LexError.Cause where
  /-- A text literal that is not closed or has an unknown escape, as it is written. -/
  | malformedLiteral (chars : List Char)
  | unexpected (c : Char)
  deriving DecidableEq, Repr

structure LexError where
  cause : LexError.Cause
  span : Span
  deriving DecidableEq, Repr

def LexError.message (e : LexError) : String :=
  match e.cause with
  | .malformedLiteral chars => "malformed string literal: " ++ String.ofList chars
  | .unexpected c => "unexpected character: " ++ Text.quote (String.singleton c)

namespace Token

/-- The character that an escape stands for. -/
def escape? : Char → Option Char
  | 'n' => some '\n'
  | 't' => some '\t'
  | 'r' => some '\r'
  | '0' => some '\x00'
  | '\\' => some '\\'
  | '"' => some '"'
  | _ => none

/-- The text that a literal stands for, given what follows its opening quote. -/
def unescape? : List Char → Option (List Char)
  | [] => some []
  | ['"'] => some []
  | '\\' :: c :: cs => do
    let c ← escape? c
    let cs ← unescape? cs
    return c :: cs
  | c :: cs => (unescape? cs).map (c :: ·)

/-- The number that a lexeme of digits stands for. -/
def numberOf (chars : List Char) : Float :=
  ((Number.readDigits? chars).map Number.Decimal.toFloat).getD 0

/-- The token of a word. -/
def ofWord (chars : List Char) : Token :=
  let word := String.ofList chars
  match Keyword.ofText? word with
  | some k => keyword k
  | none => name word

/-- What a lexeme stands for: nothing for blanks and comments; a literal with an unknown escape is
refused. -/
def ofLexeme? (chars : List Char) : Lexeme → Option (Option Token)
  | .blank => some none
  | .comment => some none
  | .number => some (some (number (numberOf chars)))
  | .word => some (some (ofWord chars))
  | .literal => (unescape? (chars.drop 1)).map fun cs => some (text (String.ofList cs))
  | .symbol s => some (some (symbol s))

/-- The number of bytes that characters take up. -/
def byteSize : List Char → Nat
  | [] => 0
  | c :: cs => c.utf8Size + byteSize cs

/-- The error at a place where no lexeme can be taken. -/
def stuck (offset : Nat) (c : Char) (cs : List Char) : LexError :=
  if c = '"' then
    let chars := c :: (Lexeme.literalTail cs).1
    ⟨.malformedLiteral chars, ⟨offset, offset + byteSize chars⟩⟩
  else
    ⟨.unexpected c, ⟨offset, offset + c.utf8Size⟩⟩

/-- The tokens of a text that starts at a byte offset. Each lexeme has a character at least, so the
length of the text bounds their number. -/
def scanFrom : Nat → Nat → List Char → Except LexError (List (Located Token))
  | _, _, [] => .ok []
  | 0, _, _ :: _ => .ok []
  | fuel + 1, offset, c :: cs =>
    match Lexeme.munch c cs with
    | none => .error (stuck offset c cs)
    | some (lexeme, chars, rest) =>
      let stop := offset + byteSize chars
      match ofLexeme? chars lexeme with
      | none => .error ⟨.malformedLiteral chars, ⟨offset, stop⟩⟩
      | some none => scanFrom fuel stop rest
      | some (some token) => (scanFrom fuel stop rest).map (⟨token, ⟨offset, stop⟩⟩ :: ·)

/-- The tokens of a text. -/
def scan (source : String) : Except LexError (List (Located Token)) :=
  let cs := source.toList
  scanFrom cs.length 0 cs

end Token
end Scriptlet
