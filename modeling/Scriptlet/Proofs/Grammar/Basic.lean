import Scriptlet.Program.Parser

/-!
The grammar of programs as a relation.

`Derives n ts t` says that the tokens `ts`, all of them and in this order, are an `n` of the grammar,
and that `t` is its tree. Each constructor is one alternative of one rule. A chain of binary
operators and a chain of calls and subscripts grow on the right, so they lean to the left;
assignments and conditionals lean to the right. The span of a node is the merge of what stands at its two
ends, which are tokens (`Span.across`) or the parts that it is made of.

Nothing here reads tokens: what a reader does with them is compared with this relation elsewhere.
What follows from the rules alone stands at the end: how the tokens of a phrase begin
(`Derives.opens`), and which tokens have a tree that can be assigned to (`Derives.assignable`).
-/
namespace Scriptlet

/-- The spans of the first token and of the last, merged. -/
def Span.across : List (Located Token) → Span
  | [] => ⟨0, 0⟩
  | t :: ts => t.span.merge (ts.getLast?.getD t).span

theorem Span.across_singleton (t : Located Token) : Span.across [t] = t.span := by
  simp [across, merge]

/-- The forms of expressions, from the loosest to the tightest. -/
inductive Form where
  | expression
  | conditional
  | chain (level : Level)
  | unary
  | suffixed
  | primary

/-- The operands of the operators of a level. -/
def Level.operands (level : Level) : Form :=
  match level.tighter? with
  | some tighter => .chain tighter
  | none => .unary

/-- The sorts of phrases. -/
inductive Phrase where
  | statements | statement | condStatement | block
  | parameters | names | reference
  | expr (form : Form)
  | optional | arguments | expressions

/-- What a phrase stands for; a reference is a name, with whether `global` stands before it. -/
@[reducible] def Phrase.Tree : Phrase → Type
  | statements | block => Block Unit
  | statement | condStatement => Stmt Unit
  | parameters | names => List (Located String)
  | reference => Bool × String
  | expr _ => Expr Unit
  | optional => Option (Expr Unit)
  | arguments | expressions => List (Expr Unit)

/-- The rules of the grammar. -/
inductive Derives : (n : Phrase) → List (Located Token) → n.Tree → Prop
  -- stmt*
  | done : Derives .statements [] []
  | next {ts us s ss} (first : Derives .statement ts s) (rest : Derives .statements us ss) :
      Derives .statements (ts ++ us) (s :: ss)
  -- "{" stmt* "}"
  | block {ts ss p q} (body : Derives .statements ts ss) :
      Derives .block (⟨.symbol .openBrace, p⟩ :: (ts ++ [⟨.symbol .closeBrace, q⟩])) ss
  -- "if" expr block ("else" (if-stmt | block))?
  | cond {ts s} (cond : Derives .condStatement ts s) : Derives .statement ts s
  | condOnly {ws ts us e ss p} (test : Derives (.expr .expression) ts e) (yes : Derives .block us ss)
      (split : ws = ⟨.keyword .if_, p⟩ :: (ts ++ us)) :
      Derives .condStatement ws (.cond (.across ws) e ss none)
  | condElse {ws ts us vs e ss rs p q} (test : Derives (.expr .expression) ts e)
      (yes : Derives .block us ss) (no : Derives .block vs rs)
      (split : ws = ⟨.keyword .if_, p⟩ :: (ts ++ (us ++ ⟨.keyword .else_, q⟩ :: vs))) :
      Derives .condStatement ws (.cond (.across ws) e ss (some rs))
  | condElseIf {ws ts us vs e ss s p q} (test : Derives (.expr .expression) ts e)
      (yes : Derives .block us ss) (no : Derives .condStatement vs s)
      (split : ws = ⟨.keyword .if_, p⟩ :: (ts ++ (us ++ ⟨.keyword .else_, q⟩ :: vs))) :
      Derives .condStatement ws (.cond (.across ws) e ss (some [s]))
  -- "while" expr block
  | while {ws ts us e ss p} (test : Derives (.expr .expression) ts e) (body : Derives .block us ss)
      (split : ws = ⟨.keyword .while_, p⟩ :: (ts ++ us)) :
      Derives .statement ws (.while (.across ws) e ss)
  -- "for" NAME cmp sum ".." sum block
  | range {ws ts us vs x cmp op e d ss p q r} (compares : Level.comparison.operator? cmp.val = some op)
      (first : Derives (.expr (.chain .sum)) ts e) (last : Derives (.expr (.chain .sum)) us d)
      (body : Derives .block vs ss)
      (split : ws = ⟨.keyword .for_, p⟩ :: ⟨.name x, q⟩ :: cmp ::
        (ts ++ ⟨.symbol .dots, r⟩ :: (us ++ vs))) :
      Derives .statement ws (.range (.across ws) ⟨x, q⟩ ⟨op, cmp.span⟩ e d ss)
  -- "fn" NAME "(" params ")" block
  | define {ws ts us x xs ss p q r v} (params : Derives .parameters ts xs) (body : Derives .block us ss)
      (split : ws = ⟨.keyword .fn_, p⟩ :: ⟨.name x, q⟩ :: ⟨.symbol .openParen, r⟩ ::
        (ts ++ ⟨.symbol .closeParen, v⟩ :: us)) :
      Derives .statement ws
        (.expr (.across ws) (.assign (.across ws) false true x (.function (.across ws) () xs ss)))
  -- "break" ";" | "continue" ";" | "return" expr? ";"
  | break {ws p q} (split : ws = [⟨.keyword .break_, p⟩, ⟨.symbol .semicolon, q⟩]) :
      Derives .statement ws (.break (.across ws))
  | continue {ws p q} (split : ws = [⟨.keyword .continue_, p⟩, ⟨.symbol .semicolon, q⟩]) :
      Derives .statement ws (.continue (.across ws))
  | return {ws ts e p q} (value : Derives .optional ts e)
      (split : ws = ⟨.keyword .return_, p⟩ :: (ts ++ [⟨.symbol .semicolon, q⟩])) :
      Derives .statement ws (.return (.across ws) e)
  -- block | expr ";"
  | nested {ts ss} (body : Derives .block ts ss) : Derives .statement ts (.block (.across ts) ss)
  | expr {ws ts e p} (expr : Derives (.expr .expression) ts e)
      (split : ws = ts ++ [⟨.symbol .semicolon, p⟩]) :
      Derives .statement ws (.expr (.across ws) e)
  -- (NAME ("," NAME)*)?
  | noParameters : Derives .parameters [] []
  | someParameters {ts xs} (names : Derives .names ts xs) : Derives .parameters ts xs
  | lastName {x p} : Derives .names [⟨.name x, p⟩] [⟨x, p⟩]
  | nextName {ts x xs p q} (rest : Derives .names ts xs) :
      Derives .names (⟨.name x, p⟩ :: ⟨.symbol .comma, q⟩ :: ts) (⟨x, p⟩ :: xs)
  -- "global"? NAME
  | name {x p} : Derives .reference [⟨.name x, p⟩] (false, x)
  | globalName {x p q} : Derives .reference [⟨.keyword .global_, p⟩, ⟨.name x, q⟩] (true, x)
  -- conditional, or an assignment to a reference or to an element of one
  | plain {ts e} (expr : Derives (.expr .conditional) ts e) : Derives (.expr .expression) ts e
  | assign {ws ts us t constant global x e} (target : Derives .reference ts (global, x))
      (assigns : t.val.assigns? = some constant) (value : Derives (.expr .expression) us e)
      (split : ws = ts ++ t :: us) :
      Derives (.expr .expression) ws (.assign ((Span.across ts).merge e.span) global constant x e)
  | assignIndex {ws ts us vs t constant global x i e p q} (target : Derives .reference ts (global, x))
      (index : Derives (.expr .expression) us i) (assigns : t.val.assigns? = some constant)
      (value : Derives (.expr .expression) vs e)
      (split : ws = ts ++ ⟨.symbol .openBracket, p⟩ :: (us ++ ⟨.symbol .closeBracket, q⟩ :: t :: vs)) :
      Derives (.expr .expression) ws
        (.assignIndex (((Span.across ts).merge q).merge e.span) global constant x i e)
  -- or ("?" expr ":" conditional)?
  | unconditional {ts e} (expr : Derives (.expr (.chain .or)) ts e) : Derives (.expr .conditional) ts e
  | conditional {ws ts us vs e d f p q} (test : Derives (.expr (.chain .or)) ts e)
      (yes : Derives (.expr .expression) us d) (no : Derives (.expr .conditional) vs f)
      (split : ws = ts ++ ⟨.symbol .question, p⟩ :: (us ++ ⟨.symbol .colon, q⟩ :: vs)) :
      Derives (.expr .conditional) ws (.conditional (e.span.merge f.span) e d f)
  -- operands of a level, with operators of the level between them
  | operand {level ts e} (expr : Derives (.expr level.operands) ts e) :
      Derives (.expr (.chain level)) ts e
  | binary {ws ts us level t op e d} (left : Derives (.expr (.chain level)) ts e)
      (operator : level.operator? t.val = some op) (right : Derives (.expr level.operands) us d)
      (split : ws = ts ++ t :: us) :
      Derives (.expr (.chain level)) ws (.binary (e.span.merge d.span) op e d)
  -- an operator before an operand | suffixed
  | unary {ws ts t op e} (operator : UnaryOp.ofToken? t.val = some op)
      (operand : Derives (.expr .unary) ts e) (split : ws = t :: ts) :
      Derives (.expr .unary) ws (.unary (t.span.merge e.span) op e)
  | suffixed {ts e} (expr : Derives (.expr .suffixed) ts e) : Derives (.expr .unary) ts e
  -- primary ("(" args ")" | "[" subscript "]")*
  | primary {ts e} (expr : Derives (.expr .primary) ts e) : Derives (.expr .suffixed) ts e
  | call {ws ts us e es p q} (callee : Derives (.expr .suffixed) ts e) (args : Derives .arguments us es)
      (split : ws = ts ++ ⟨.symbol .openParen, p⟩ :: (us ++ [⟨.symbol .closeParen, q⟩])) :
      Derives (.expr .suffixed) ws (.call (e.span.merge q) e es)
  | index {ws ts us e i p q} (target : Derives (.expr .suffixed) ts e)
      (index : Derives (.expr .expression) us i)
      (split : ws = ts ++ ⟨.symbol .openBracket, p⟩ :: (us ++ [⟨.symbol .closeBracket, q⟩])) :
      Derives (.expr .suffixed) ws (.index (e.span.merge q) e i)
  | slice {ws ts us vs e i j p q r} (target : Derives (.expr .suffixed) ts e)
      (start : Derives .optional us i) (stop : Derives .optional vs j)
      (split : ws = ts ++ ⟨.symbol .openBracket, p⟩ :: (us ++ ⟨.symbol .colon, q⟩ ::
        (vs ++ [⟨.symbol .closeBracket, r⟩]))) :
      Derives (.expr .suffixed) ws (.slice (e.span.merge r) e i j)
  -- NUMBER | TEXT | "true" | "false" | "nil" | reference
  | number {x p} : Derives (.expr .primary) [⟨.number x, p⟩] (.number p x)
  | text {s p} : Derives (.expr .primary) [⟨.text s, p⟩] (.text p s)
  | trueWord {p} : Derives (.expr .primary) [⟨.keyword .true_, p⟩] (.bool p true)
  | falseWord {p} : Derives (.expr .primary) [⟨.keyword .false_, p⟩] (.bool p false)
  | nilWord {p} : Derives (.expr .primary) [⟨.keyword .nil_, p⟩] (.nil p)
  | reference {ts global x} (name : Derives .reference ts (global, x)) :
      Derives (.expr .primary) ts (.name (.across ts) global x)
  -- "(" expr ")" | "[" args "]" | "fn" "(" params ")" block
  | group {ws ts e p q} (inner : Derives (.expr .expression) ts e)
      (split : ws = ⟨.symbol .openParen, p⟩ :: (ts ++ [⟨.symbol .closeParen, q⟩])) :
      Derives (.expr .primary) ws (.group (.across ws) e)
  | array {ws ts es p q} (items : Derives .arguments ts es)
      (split : ws = ⟨.symbol .openBracket, p⟩ :: (ts ++ [⟨.symbol .closeBracket, q⟩])) :
      Derives (.expr .primary) ws (.array (.across ws) es)
  | function {ws ts us xs ss p q r} (params : Derives .parameters ts xs) (body : Derives .block us ss)
      (split : ws = ⟨.keyword .fn_, p⟩ :: ⟨.symbol .openParen, q⟩ ::
        (ts ++ ⟨.symbol .closeParen, r⟩ :: us)) :
      Derives (.expr .primary) ws (.function (.across ws) () xs ss)
  -- expr?
  | absent : Derives .optional [] none
  | present {ts e} (expr : Derives (.expr .expression) ts e) : Derives .optional ts (some e)
  -- (expr ("," expr)*)?
  | noArguments : Derives .arguments [] []
  | someArguments {ts es} (items : Derives .expressions ts es) : Derives .arguments ts es
  | lastExpr {ts e} (expr : Derives (.expr .expression) ts e) : Derives .expressions ts [e]
  | nextExpr {ts us e es p} (expr : Derives (.expr .expression) ts e)
      (rest : Derives .expressions us es) :
      Derives .expressions (ts ++ ⟨.symbol .comma, p⟩ :: us) (e :: es)

/-! ### First tokens -/

/-- Whether a token, unless it is `fn`, may be the first of a primary expression. -/
def Token.opensPrimary : Token → Bool
  | .number _ | .text _ | .name _ => true
  | .keyword .true_ | .keyword .false_ | .keyword .nil_ | .keyword .global_ => true
  | .symbol .openParen | .symbol .openBracket => true
  | _ => false

/-- Tokens that begin as a primary expression does. -/
inductive OpensPrimary : List (Located Token) → Prop
  | token {t ts} (h : t.val.opensPrimary = true) : OpensPrimary (t :: ts)
  | function {p q ts} : OpensPrimary (⟨.keyword .fn_, p⟩ :: ⟨.symbol .openParen, q⟩ :: ts)

/-- Tokens that begin as an expression does. -/
inductive OpensExpr : List (Located Token) → Prop
  | primary {ts} (h : OpensPrimary ts) : OpensExpr ts
  | operator {t op ts} (h : UnaryOp.ofToken? t.val = some op) : OpensExpr (t :: ts)

theorem OpensPrimary.append {ts : List (Located Token)} (h : OpensPrimary ts)
    (us : List (Located Token)) : OpensPrimary (ts ++ us) := by
  cases h with
  | token h => exact .token h
  | function => exact .function

theorem OpensExpr.append {ts : List (Located Token)} (h : OpensExpr ts)
    (us : List (Located Token)) : OpensExpr (ts ++ us) := by
  cases h with
  | primary h => exact .primary (h.append us)
  | operator h => exact .operator h

def Form.Opens : Form → List (Located Token) → Prop
  | .primary | .suffixed => OpensPrimary
  | _ => OpensExpr

/-- How the tokens of a phrase begin, where that tells it from what else could stand there. -/
def Phrase.Opens (ts : List (Located Token)) : Phrase → Prop
  | statements => ∀ t ∈ ts.head?, t.val ≠ .keyword .else_
  | statement => ∃ t us, ts = t :: us ∧ t.val ≠ .keyword .else_ ∧ t.val ≠ .symbol .closeBrace
  | condStatement => ∃ p us, ts = ⟨.keyword .if_, p⟩ :: us
  | block => ∃ p us, ts = ⟨.symbol .openBrace, p⟩ :: us
  | reference => OpensPrimary ts
  | expr form => form.Opens ts
  | expressions => OpensExpr ts
  | _ => True

theorem Form.opens_operands {level : Level} {ts : List (Located Token)} :
    level.operands.Opens ts ↔ OpensExpr ts := by
  cases level <;> rfl

/-- An expression is no `else` and no closing brace. -/
theorem OpensExpr.opens_statement {ts : List (Located Token)} (h : OpensExpr ts) :
    Phrase.statement.Opens ts := by
  cases h with
  | primary h =>
    cases h with
    | @token t us h =>
      refine ⟨t, us, rfl, ?_, ?_⟩ <;> intro ht <;> rw [ht] at h <;> cases h
    | function => exact ⟨_, _, rfl, nofun, nofun⟩
  | @operator t op us h =>
    refine ⟨t, us, rfl, ?_, ?_⟩ <;> intro ht <;> rw [ht] at h <;> cases h

theorem Derives.opens {n : Phrase} {ts : List (Located Token)} {t : n.Tree} (h : Derives n ts t) :
    n.Opens ts := by
  induction h with
  | noParameters | someParameters | lastName | nextName | absent | present
  | noArguments | someArguments => trivial
  | done => exact nofun
  | next _ _ ih _ =>
    obtain ⟨t, _, rfl, helse, _⟩ := ih
    intro _ ht
    cases ht
    exact helse
  | block => exact ⟨_, _, rfl⟩
  | cond _ ih | nested _ ih =>
    obtain ⟨_, _, rfl⟩ := ih
    exact ⟨_, _, rfl, nofun, nofun⟩
  | condOnly _ _ split | condElse _ _ _ split | condElseIf _ _ _ split => exact ⟨_, _, split⟩
  | «while» _ _ split | range _ _ _ _ split | define _ _ split | «break» split | «continue» split
  | «return» _ split => exact ⟨_, _, split, nofun, nofun⟩
  | expr _ split ih => exact split ▸ (OpensExpr.append ih _).opens_statement
  | name | globalName => exact .token rfl
  | plain _ ih | unconditional _ ih | lastExpr _ ih => exact ih
  | assign _ _ _ split ih _ => exact split ▸ .primary (ih.append _)
  | assignIndex _ _ _ _ split ih _ _ => exact split ▸ .primary (ih.append _)
  | conditional _ _ _ split ih _ _ => exact split ▸ OpensExpr.append ih _
  | operand _ ih => exact Form.opens_operands.mp ih
  | binary _ _ _ split ih _ => exact split ▸ OpensExpr.append ih _
  | unary operator _ split _ => exact split ▸ .operator operator
  | suffixed _ ih => exact .primary ih
  | primary _ ih => exact ih
  | call _ _ split ih _ | index _ _ split ih _ | slice _ _ _ split ih _ _ =>
    exact split ▸ OpensPrimary.append ih _
  | number | text | trueWord | falseWord | nilWord => exact .token rfl
  | reference _ ih => exact ih
  | group _ split _ | array _ split _ => exact split ▸ .token rfl
  | function _ _ split => exact split ▸ .function
  | nextExpr _ _ ih _ => exact OpensExpr.append ih _

/-! ### What can be assigned to -/

/-- The tokens and the span of an expression that names something to assign to. -/
def Expr.Assignable (ts : List (Located Token)) : Expr Unit → Prop
  | .name span global x => Derives .reference ts (global, x) ∧ span = .across ts
  | .index span (.name _ global x) i =>
    ∃ us vs p q, Derives .reference us (global, x) ∧ Derives (.expr .expression) vs i ∧
      ts = us ++ ⟨.symbol .openBracket, p⟩ :: (vs ++ [⟨.symbol .closeBracket, q⟩]) ∧
      span = (Span.across us).merge q
  | _ => True

def Phrase.Assignable (ts : List (Located Token)) : (n : Phrase) → n.Tree → Prop
  | .expr _, e => e.Assignable ts
  | _, _ => True

theorem Derives.assignable {n : Phrase} {ts : List (Located Token)} {t : n.Tree}
    (h : Derives n ts t) : n.Assignable ts t := by
  induction h with
  | plain _ ih | unconditional _ ih | operand _ ih | suffixed _ ih | primary _ ih => exact ih
  | reference name => exact ⟨name, rfl⟩
  | @index _ _ _ e _ _ _ _ index split ih _ =>
    cases e with
    | name =>
      obtain ⟨hname, rfl⟩ := ih
      exact ⟨_, _, _, _, hname, index, split, rfl⟩
    | _ => trivial
  | _ => trivial

/-- The tree of an assignment is derived from what derives its sides. -/
theorem Derives.of_assignment? {ts us : List (Located Token)} {t : Located Token}
    {target value e : Expr Unit} {constant : Bool} (htarget : Derives (.expr .conditional) ts target)
    (hassigns : t.val.assigns? = some constant) (hvalue : Derives (.expr .expression) us value)
    (he : target.assignment? (target.span.merge value.span) constant value = some e) :
    Derives (.expr .expression) (ts ++ t :: us) e := by
  have hts := htarget.assignable
  unfold Expr.assignment? at he
  split at he
  · cases he
    obtain ⟨hreference, rfl⟩ := hts
    exact .assign hreference hassigns hvalue rfl
  · cases he
    obtain ⟨rs, vs, p, q, hreference, hindex, hsplit, rfl⟩ := hts
    refine .assignIndex (p := p) (q := q) hreference hindex hassigns hvalue ?_
    rw [hsplit]
    simp only [List.append_assoc, List.cons_append, List.nil_append]
  · cases he

end Scriptlet
