import Scriptlet.Number.Layout
import Scriptlet.Text.Quoted
import Scriptlet.Span

/-!
The tokens of the language.

A token is a keyword, a symbol, or a number, text or name with what it stands for. Tokens are written
in two ways: as messages name them (`Token.describe`), and as listings of tokens show them
(`Token.listing`).
-/
namespace Scriptlet

inductive Keyword where
  | fn_ | if_ | else_ | while_ | for_ | break_ | continue_ | return_ | global_
  | and_ | or_ | not_ | true_ | false_ | nil_ | typeof_
  deriving DecidableEq, Repr

namespace Keyword

def all : List Keyword :=
  [fn_, if_, else_, while_, for_, break_, continue_, return_, global_, and_, or_, not_, true_,
    false_, nil_, typeof_]

def text : Keyword → String
  | fn_ => "fn" | if_ => "if" | else_ => "else" | while_ => "while" | for_ => "for"
  | break_ => "break" | continue_ => "continue" | return_ => "return" | global_ => "global"
  | and_ => "and" | or_ => "or" | not_ => "not" | true_ => "true" | false_ => "false"
  | nil_ => "nil" | typeof_ => "typeof"

def listing : Keyword → String
  | fn_ => "Fn" | if_ => "If" | else_ => "Else" | while_ => "While" | for_ => "For"
  | break_ => "Break" | continue_ => "Continue" | return_ => "Return" | global_ => "Global"
  | and_ => "And" | or_ => "Or" | not_ => "Not" | true_ => "True" | false_ => "False"
  | nil_ => "Nil" | typeof_ => "TypeOf"

/-- The keyword that is spelled like this word. -/
def ofText? (word : String) : Option Keyword :=
  all.find? (·.text == word)

end Keyword

inductive Symbol where
  | plus | minus | star | slash | percent | bang | dollar | assign | define | equal | notEqual
  | less | lessEqual | greater | greaterEqual | question | colon | dots
  | openParen | closeParen | openBracket | closeBracket | openBrace | closeBrace
  | comma | semicolon
  deriving DecidableEq, Repr

namespace Symbol

def text : Symbol → String
  | plus => "+" | minus => "-" | star => "*" | slash => "/" | percent => "%" | bang => "!"
  | dollar => "$" | assign => "=" | define => ":=" | equal => "==" | notEqual => "!="
  | less => "<" | lessEqual => "<=" | greater => ">" | greaterEqual => ">="
  | question => "?" | colon => ":" | dots => ".."
  | openParen => "(" | closeParen => ")" | openBracket => "[" | closeBracket => "]"
  | openBrace => "\x7b" | closeBrace => "\x7d" | comma => "," | semicolon => ";"

def listing : Symbol → String
  | plus => "Plus" | minus => "Minus" | star => "Star" | slash => "Slash" | percent => "Percent"
  | bang => "Bang" | dollar => "Dollar" | assign => "Eq" | define => "ColonEq"
  | equal => "EqEq" | notEqual => "NotEq" | less => "Lt" | lessEqual => "LtEq"
  | greater => "Gt" | greaterEqual => "GtEq" | question => "Question" | colon => "Colon"
  | dots => "DotDot" | openParen => "LParen" | closeParen => "RParen"
  | openBracket => "LBracket" | closeBracket => "RBracket" | openBrace => "LBrace"
  | closeBrace => "RBrace" | comma => "Comma" | semicolon => "Semi"

end Symbol

inductive Token where
  | keyword (k : Keyword)
  | symbol (s : Symbol)
  | number (x : Float)
  /-- A text literal, with its escapes resolved. -/
  | text (s : String)
  | name (s : String)
  deriving Repr

namespace Token

/-- The token as messages name it. -/
def describe : Token → String
  | keyword k => s!"`{k.text}`"
  | symbol s => s!"`{s.text}`"
  | number x => s!"number `{Number.text x}`"
  | text s => "string " ++ Text.quote s
  | name s => s!"identifier `{s}`"

/-- The token as listings show it. -/
def listing : Token → String
  | keyword k => k.listing
  | symbol s => s.listing
  | number x => "Number(" ++ Number.write .token x ++ ")"
  | text s => "Str(" ++ Text.quote s ++ ")"
  | name s => "Ident(" ++ Text.quote s ++ ")"

end Token

/-- A token with its place, as listings show it. -/
def Located.listing (t : Located Token) : String :=
  t.val.listing ++ " @ " ++ t.span.text

end Scriptlet
