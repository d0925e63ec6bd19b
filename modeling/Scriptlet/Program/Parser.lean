import Scriptlet.Program.Basic
import Scriptlet.Token.Basic

/-!
Programs read from tokens.

The grammar, from statements down to the operands of expressions:

```text
program     := stmt*
stmt        := "if" expr block ("else" (if-stmt | block))? | "while" expr block
             | "for" NAME ("<" | "<=" | ">" | ">=") sum ".." sum block
             | "fn" NAME "(" params ")" block
             | "break" ";" | "continue" ";" | "return" expr? ";" | block | expr ";"
block       := "{" stmt* "}"
expr        := conditional (("=" | ":=") expr)?
conditional := or ("?" expr ":" conditional)?
or          := and ("or" and)*              and        := equality ("and" equality)*
equality    := comparison (("==" | "!=") comparison)*
comparison  := sum (("<" | "<=" | ">" | ">=") sum)*
sum         := product (("+" | "-") product)*
product     := unary (("*" | "/" | "%") unary)*
unary       := ("!" | "not" | "-" | "+" | "typeof" | "$") unary | postfix
postfix     := primary ("(" args ")" | "[" subscript "]")*
subscript   := expr | expr? ":" expr?
primary     := NUMBER | TEXT | "true" | "false" | "nil" | "global"? NAME
             | "(" expr ")" | "[" args "]" | "fn" "(" params ")" block
```

The left side of an assignment has to be a name or an element of a name. A function with a name is a
constant assignment of the function, and an `else if` is an `else` block with one statement.

The span of a node is put together while it is read: the first token and the last are merged, or the
parts that stand at its two ends, or the part at its front and the last token.

Every reader takes a cursor and gives a tree with the cursor behind it. Readers that call each other
without taking a token go down the grammar, which has fewer than thirty-two steps, so that many calls
for every token bound the recursion.
-/
namespace Scriptlet

/-- What the grammar asks for at a place. -/
inductive Expectation where
  | afterBreak | afterContinue | afterReturn | afterExpression
  | blockStart | blockEnd
  | loopVariable | rangeComparison | rangeDots
  | parametersStart | parameter | parametersEnd
  | conditionalColon | argumentsEnd | subscript | subscriptEnd
  | globalName | groupEnd | arrayEnd | expression
  deriving DecidableEq, Repr

def Expectation.text : Expectation → String
  | afterBreak => "`;` after `break`"
  | afterContinue => "`;` after `continue`"
  | afterReturn => "`;` after return value"
  | afterExpression => "`;` after expression"
  | blockStart => "`\x7b` to start a block"
  | blockEnd => "`\x7d` to close the block"
  | loopVariable => "identifier after `for`"
  | rangeComparison => "one of `<`, `<=`, `>`, `>=` after the loop variable"
  | rangeDots => "`..` between range bounds"
  | parametersStart => "`(` to start the parameter list"
  | parameter => "identifier in parameter list"
  | parametersEnd => "`)` to close the parameter list"
  | conditionalColon => "`:` in conditional expression"
  | argumentsEnd => "`)` to close the argument list"
  | subscript => "subscript"
  | subscriptEnd => "`]` to close the subscript"
  | globalName => "identifier after `global`"
  | groupEnd => "`)` to close the group"
  | arrayEnd => "`]` to close the array literal"
  | expression => "expression"

/-- Why tokens are no program: something else was expected than the token found, or than the end, or
the left side of an assignment cannot be assigned to. -/
inductive ParseError.Cause where
  | expected (what : Expectation) (found : Option Token)
  | invalidTarget

structure ParseError where
  cause : ParseError.Cause
  span : Span

def ParseError.message (e : ParseError) : String :=
  match e.cause with
  | .expected what (some token) => s!"expected {what.text}, found {token.describe}"
  | .expected what none => s!"expected {what.text}, found end of input"
  | .invalidTarget => "invalid assignment target"

/-- A place between the tokens of a source. -/
structure Cursor where
  /-- The length of the source. -/
  size : Nat
  /-- The span of the token before the cursor; at the start, the empty span there. -/
  previous : Span
  /-- The tokens behind the cursor. -/
  rest : List (Located Token)

/-- The result of reading at a cursor. -/
abbrev Reading := Except ParseError

namespace Cursor

def peek (c : Cursor) : Option Token :=
  c.rest.head?.map (·.val)

/-- The span of the next token; at the end, the empty span at the end of the source. -/
def here (c : Cursor) : Span :=
  match c.rest with
  | t :: _ => t.span
  | [] => ⟨c.size, c.size⟩

/-- The cursor behind the next token. -/
def advance (c : Cursor) : Cursor :=
  match c.rest with
  | t :: rest => ⟨c.size, t.span, rest⟩
  | [] => c

/-- The span of a node that begins in this span and ends with the token before the cursor. -/
def spanFrom (c : Cursor) (start : Span) : Span :=
  start.merge c.previous

def fail {α : Type} (c : Cursor) (what : Expectation) : Reading α :=
  .error ⟨.expected what c.peek, c.here⟩

/-- Whether the next token is this symbol. -/
def atSymbol (c : Cursor) (s : Symbol) : Bool :=
  match c.peek with
  | some (.symbol t) => s = t
  | _ => false

/-- Whether the next token is this keyword. -/
def atKeyword (c : Cursor) (k : Keyword) : Bool :=
  match c.peek with
  | some (.keyword l) => k = l
  | _ => false

/-- Take a symbol. -/
def expect (c : Cursor) (s : Symbol) (what : Expectation) : Reading Cursor :=
  if c.atSymbol s then .ok c.advance else c.fail what

/-- Take a name. -/
def name (c : Cursor) (what : Expectation) : Reading (Located String × Cursor) :=
  match c.peek with
  | some (.name x) => .ok (⟨x, c.here⟩, c.advance)
  | _ => c.fail what

end Cursor

/-- The levels of the binary operators, from the loosest to the tightest. -/
inductive Level where
  | or | and | equality | comparison | sum | product
  deriving DecidableEq, Repr

namespace Level

/-- The next tighter level, on which the operands of this level are read. -/
def tighter? : Level → Option Level
  | or => some and
  | and => some equality
  | equality => some comparison
  | comparison => some sum
  | sum => some product
  | product => none

/-- The operator of this level that a token stands for. -/
def operator? : Level → Token → Option BinaryOp
  | or, .keyword .or_ => some .or
  | and, .keyword .and_ => some .and
  | equality, .symbol .equal => some .eq
  | equality, .symbol .notEqual => some .ne
  | comparison, .symbol .less => some .lt
  | comparison, .symbol .lessEqual => some .le
  | comparison, .symbol .greater => some .gt
  | comparison, .symbol .greaterEqual => some .ge
  | sum, .symbol .plus => some .add
  | sum, .symbol .minus => some .sub
  | product, .symbol .star => some .mul
  | product, .symbol .slash => some .div
  | product, .symbol .percent => some .mod
  | _, _ => none

end Level

/-- The operator before an operand that a token stands for. -/
def UnaryOp.ofToken? : Token → Option UnaryOp
  | .symbol .bang => some .not
  | .keyword .not_ => some .not
  | .symbol .minus => some .neg
  | .symbol .plus => some .pos
  | .keyword .typeof_ => some .typeOf
  | .symbol .dollar => some .stringify
  | _ => none

/-- Whether a token assigns, and then whether it makes a constant. -/
def Token.assigns? : Token → Option Bool
  | .symbol .assign => some false
  | .symbol .define => some true
  | _ => none

/-- The assignment of a value to what an expression names, if it can be assigned to. -/
def Expr.assignment? {φ : Type} (target : Expr φ) (span : Span) (constant : Bool)
    (value : Expr φ) : Option (Expr φ) :=
  match target with
  | .name _ global x => some (.assign span global constant x value)
  | .index _ (.name _ global x) i => some (.assignIndex span global constant x i value)
  | _ => none

namespace Parser

/-- Names with commas between them, one at least. -/
def names (size : Nat) : Span → List (Located Token) → Reading (List (Located String) × Cursor)
  | _, ⟨.name x, span⟩ :: ⟨.symbol .comma, comma⟩ :: rest => do
    let (xs, c) ← names size comma rest
    return (⟨x, span⟩ :: xs, c)
  | _, ⟨.name x, span⟩ :: rest => .ok ([⟨x, span⟩], ⟨size, span, rest⟩)
  | previous, rest => Cursor.fail ⟨size, previous, rest⟩ .parameter

/-- The parameters of a function in parentheses. -/
def parameters (c : Cursor) : Reading (List (Located String) × Cursor) := do
  let c ← c.expect .openParen .parametersStart
  if c.atSymbol .closeParen then
    return ([], c.advance)
  else
    let (xs, c) ← names c.size c.previous c.rest
    let c ← c.expect .closeParen .parametersEnd
    return (xs, c)

/-- The comparison in the head of a range loop. -/
def comparison (c : Cursor) : Reading (Located BinaryOp × Cursor) :=
  match c.peek.bind (Level.operator? .comparison) with
  | some op => .ok (⟨op, c.here⟩, c.advance)
  | none => c.fail .rangeComparison

mutual

/-- Statements up to the end of the source, or inside a block up to a closing brace. -/
def statements (nested : Bool) : Nat → Cursor → Reading (Block Unit × Cursor)
  | 0, c => c.fail .expression
  | fuel + 1, c =>
    if c.rest.isEmpty || (nested && c.atSymbol .closeBrace) then .ok ([], c)
    else do
      let (s, c) ← statement fuel c
      let (ss, c) ← statements nested fuel c
      return (s :: ss, c)

def block : Nat → Cursor → Reading (Block Unit × Cursor)
  | 0, c => c.fail .expression
  | fuel + 1, c => do
    let c ← c.expect .openBrace .blockStart
    let (body, c) ← statements true fuel c
    let c ← c.expect .closeBrace .blockEnd
    return (body, c)

def statement : Nat → Cursor → Reading (Stmt Unit × Cursor)
  | 0, c => c.fail .expression
  | fuel + 1, c =>
    match c.rest with
    | ⟨.keyword .if_, _⟩ :: _ => condStatement fuel c
    | ⟨.keyword .while_, _⟩ :: _ => do
      let (test, d) ← expression fuel c.advance
      let (body, d) ← block fuel d
      return (.while (d.spanFrom c.here) test body, d)
    | ⟨.keyword .for_, _⟩ :: _ => do
      let (x, d) ← c.advance.name .loopVariable
      let (cmp, d) ← comparison d
      let (first, d) ← binary .sum fuel d
      let d ← d.expect .dots .rangeDots
      let (last, d) ← binary .sum fuel d
      let (body, d) ← block fuel d
      return (.range (d.spanFrom c.here) x cmp first last body, d)
    | ⟨.keyword .fn_, _⟩ :: ⟨.name x, _⟩ :: _ => do
      let (params, d) ← parameters c.advance.advance
      let (body, d) ← block fuel d
      let span := d.spanFrom c.here
      return (.expr span (.assign span false true x (.function span () params body)), d)
    | ⟨.keyword .break_, _⟩ :: _ => do
      let d ← c.advance.expect .semicolon .afterBreak
      return (.break (d.spanFrom c.here), d)
    | ⟨.keyword .continue_, _⟩ :: _ => do
      let d ← c.advance.expect .semicolon .afterContinue
      return (.continue (d.spanFrom c.here), d)
    | ⟨.keyword .return_, _⟩ :: _ =>
      if c.advance.atSymbol .semicolon then
        let d := c.advance.advance
        .ok (.return (d.spanFrom c.here) none, d)
      else do
        let (value, d) ← expression fuel c.advance
        let d ← d.expect .semicolon .afterReturn
        return (.return (d.spanFrom c.here) (some value), d)
    | ⟨.symbol .openBrace, _⟩ :: _ => do
      let (body, d) ← block fuel c
      return (.block (d.spanFrom c.here) body, d)
    | _ => do
      let (e, d) ← expression fuel c
      let d ← d.expect .semicolon .afterExpression
      return (.expr (d.spanFrom c.here) e, d)

/-- A conditional statement, from its `if`. -/
def condStatement : Nat → Cursor → Reading (Stmt Unit × Cursor)
  | 0, c => c.fail .expression
  | fuel + 1, c => do
    let (test, d) ← expression fuel c.advance
    let (yes, d) ← block fuel d
    if d.atKeyword .else_ then
      if d.advance.atKeyword .if_ then
        let (no, d) ← condStatement fuel d.advance
        return (.cond (d.spanFrom c.here) test yes (some [no]), d)
      else
        let (no, d) ← block fuel d.advance
        return (.cond (d.spanFrom c.here) test yes (some no), d)
    else
      return (.cond (d.spanFrom c.here) test yes none, d)

def expression : Nat → Cursor → Reading (Expr Unit × Cursor)
  | 0, c => c.fail .expression
  | fuel + 1, c => do
    let (target, d) ← conditional fuel c
    match d.peek.bind Token.assigns? with
    | none => return (target, d)
    | some constant =>
      let (value, e) ← expression fuel d.advance
      match target.assignment? (target.span.merge value.span) constant value with
      | some assignment => return (assignment, e)
      | none => .error ⟨.invalidTarget, target.span⟩

def conditional : Nat → Cursor → Reading (Expr Unit × Cursor)
  | 0, c => c.fail .expression
  | fuel + 1, c => do
    let (test, d) ← binary .or fuel c
    if d.atSymbol .question then
      let (yes, d) ← expression fuel d.advance
      let d ← d.expect .colon .conditionalColon
      let (no, d) ← conditional fuel d
      return (.conditional (test.span.merge no.span) test yes no, d)
    else
      return (test, d)

/-- A chain of operators of one level. -/
def binary (level : Level) : Nat → Cursor → Reading (Expr Unit × Cursor)
  | 0, c => c.fail .expression
  | fuel + 1, c => do
    let (left, d) ← operand level fuel c
    binaryTail level fuel left d

/-- An operand of an operator of this level. -/
def operand (level : Level) : Nat → Cursor → Reading (Expr Unit × Cursor)
  | 0, c => c.fail .expression
  | fuel + 1, c =>
    match level.tighter? with
    | some tighter => binary tighter fuel c
    | none => unary fuel c

/-- The rest of a chain whose operators so far have built `left`. -/
def binaryTail (level : Level) : Nat → Expr Unit → Cursor → Reading (Expr Unit × Cursor)
  | 0, _, c => c.fail .expression
  | fuel + 1, left, c =>
    match c.peek.bind level.operator? with
    | none => .ok (left, c)
    | some op => do
      let (right, d) ← operand level fuel c.advance
      binaryTail level fuel (.binary (left.span.merge right.span) op left right) d

def unary : Nat → Cursor → Reading (Expr Unit × Cursor)
  | 0, c => c.fail .expression
  | fuel + 1, c =>
    match c.peek.bind UnaryOp.ofToken? with
    | none => do
      let (e, d) ← primary fuel c
      postfixTail fuel e d
    | some op => do
      let (e, d) ← unary fuel c.advance
      return (.unary (c.here.merge e.span) op e, d)

/-- The calls and subscripts behind an operand. -/
def postfixTail : Nat → Expr Unit → Cursor → Reading (Expr Unit × Cursor)
  | 0, _, c => c.fail .expression
  | fuel + 1, e, c =>
    if c.atSymbol .openParen then do
      let (args, d) ← arguments .closeParen .argumentsEnd fuel c.advance
      postfixTail fuel (.call (d.spanFrom e.span) e args) d
    else if c.atSymbol .openBracket then do
      let (e, d) ← subscript fuel e c.advance
      postfixTail fuel e d
    else .ok (e, c)

/-- The subscript of a target, behind the opening bracket. -/
def subscript : Nat → Expr Unit → Cursor → Reading (Expr Unit × Cursor)
  | 0, _, c => c.fail .expression
  | fuel + 1, target, c =>
    if c.atSymbol .closeBracket then c.fail .subscript
    else if c.atSymbol .colon then do
      let (stop, d) ← sliceStop fuel c.advance
      return (.slice (d.spanFrom target.span) target none stop, d)
    else do
      let (start, d) ← expression fuel c
      if d.atSymbol .colon then
        let (stop, d) ← sliceStop fuel d.advance
        return (.slice (d.spanFrom target.span) target (some start) stop, d)
      else
        let d ← d.expect .closeBracket .subscriptEnd
        return (.index (d.spanFrom target.span) target start, d)

/-- The end of a slice, behind its colon, and the closing bracket. -/
def sliceStop : Nat → Cursor → Reading (Option (Expr Unit) × Cursor)
  | 0, c => c.fail .expression
  | fuel + 1, c =>
    if c.atSymbol .closeBracket then .ok (none, c.advance)
    else do
      let (stop, d) ← expression fuel c
      let d ← d.expect .closeBracket .subscriptEnd
      return (some stop, d)

/-- Expressions with commas between them up to a closing symbol. -/
def arguments (close : Symbol) (what : Expectation) : Nat → Cursor → Reading (List (Expr Unit) × Cursor)
  | 0, c => c.fail .expression
  | fuel + 1, c =>
    if c.atSymbol close then .ok ([], c.advance)
    else do
      let (es, d) ← expressions fuel c
      let d ← d.expect close what
      return (es, d)

/-- Expressions with commas between them, one at least. -/
def expressions : Nat → Cursor → Reading (List (Expr Unit) × Cursor)
  | 0, c => c.fail .expression
  | fuel + 1, c => do
    let (e, d) ← expression fuel c
    if d.atSymbol .comma then
      let (es, d) ← expressions fuel d.advance
      return (e :: es, d)
    else
      return ([e], d)

def primary : Nat → Cursor → Reading (Expr Unit × Cursor)
  | 0, c => c.fail .expression
  | fuel + 1, c =>
    match c.peek with
    | some (.number x) => .ok (.number (c.advance.spanFrom c.here) x, c.advance)
    | some (.text s) => .ok (.text (c.advance.spanFrom c.here) s, c.advance)
    | some (.keyword .true_) => .ok (.bool (c.advance.spanFrom c.here) true, c.advance)
    | some (.keyword .false_) => .ok (.bool (c.advance.spanFrom c.here) false, c.advance)
    | some (.keyword .nil_) => .ok (.nil (c.advance.spanFrom c.here), c.advance)
    | some (.name x) => .ok (.name (c.advance.spanFrom c.here) false x, c.advance)
    | some (.keyword .global_) => do
      let (x, d) ← c.advance.name .globalName
      return (.name (d.spanFrom c.here) true x.val, d)
    | some (.symbol .openParen) => do
      let (e, d) ← expression fuel c.advance
      let d ← d.expect .closeParen .groupEnd
      return (.group (d.spanFrom c.here) e, d)
    | some (.symbol .openBracket) => do
      let (items, d) ← arguments .closeBracket .arrayEnd fuel c.advance
      return (.array (d.spanFrom c.here) items, d)
    | some (.keyword .fn_) => do
      let (params, d) ← parameters c.advance
      let (body, d) ← block fuel d
      return (.function (d.spanFrom c.here) () params body, d)
    | _ => c.fail .expression

end

end Parser

/-- The program that tokens stand for, in a source of `size` bytes. -/
def Program.ofTokens (size : Nat) (tokens : List (Located Token)) : Except ParseError Program := do
  let (body, _) ← Parser.statements false (32 * (tokens.length + 1)) ⟨size, ⟨0, 0⟩, tokens⟩
  return ⟨body⟩

end Scriptlet
