import Scriptlet.Span

/-!
Programs as trees.

Every expression and every statement carries the span of its source text. A function literal also
carries a mark of type `φ`: a program as it is read has no marks (`Unit`), and before it runs each
literal gets the identity of the function that it stands for.
-/
namespace Scriptlet

inductive BinaryOp where
  | add | sub | mul | div | mod | eq | ne | lt | le | gt | ge | and | or
  deriving DecidableEq, Repr

namespace BinaryOp

/-- The operator as it is written. -/
def text : BinaryOp → String
  | add => "+" | sub => "-" | mul => "*" | div => "/" | mod => "%" | eq => "==" | ne => "!="
  | lt => "<" | le => "<=" | gt => ">" | ge => ">=" | and => "and" | or => "or"

end BinaryOp

inductive UnaryOp where
  | not | neg | pos | typeOf | stringify
  deriving DecidableEq, Repr

namespace UnaryOp

def text : UnaryOp → String
  | not => "!" | neg => "-" | pos => "+" | typeOf => "typeof" | stringify => "$"

end UnaryOp

mutual

inductive Expr (φ : Type) where
  | number (span : Span) (x : Float)
  | text (span : Span) (s : String)
  | bool (span : Span) (b : Bool)
  | nil (span : Span)
  | array (span : Span) (items : List (Expr φ))
  | group (span : Span) (inner : Expr φ)
  | name (span : Span) (global : Bool) (x : String)
  | binary (span : Span) (op : BinaryOp) (left right : Expr φ)
  | unary (span : Span) (op : UnaryOp) (operand : Expr φ)
  | conditional (span : Span) (test yes no : Expr φ)
  | call (span : Span) (callee : Expr φ) (args : List (Expr φ))
  | index (span : Span) (target index : Expr φ)
  | slice (span : Span) (target : Expr φ) (start stop : Option (Expr φ))
  | assign (span : Span) (global constant : Bool) (x : String) (value : Expr φ)
  /-- Assignment to an element of the sequence that a name is bound to. -/
  | assignIndex (span : Span) (global constant : Bool) (x : String) (index value : Expr φ)
  | function (span : Span) (mark : φ) (params : List (Located String)) (body : List (Stmt φ))

inductive Stmt (φ : Type) where
  | expr (span : Span) (e : Expr φ)
  | block (span : Span) (body : List (Stmt φ))
  | cond (span : Span) (test : Expr φ) (yes : List (Stmt φ)) (no : Option (List (Stmt φ)))
  | while (span : Span) (test : Expr φ) (body : List (Stmt φ))
  /-- A loop that counts a variable from `first` while it compares with `last`. -/
  | range (span : Span) (x : Located String) (cmp : Located BinaryOp) (first last : Expr φ)
      (body : List (Stmt φ))
  | break (span : Span)
  | continue (span : Span)
  | return (span : Span) (value : Option (Expr φ))

end

abbrev Block (φ : Type) := List (Stmt φ)

def Expr.span {φ : Type} : Expr φ → Span
  | .number span _ | .text span _ | .bool span _ | .nil span | .array span _ | .group span _
  | .name span _ _ | .binary span _ _ _ | .unary span _ _ | .conditional span _ _ _
  | .call span _ _ | .index span _ _ | .slice span _ _ _ | .assign span _ _ _ _
  | .assignIndex span _ _ _ _ _ | .function span _ _ _ => span

def Stmt.span {φ : Type} : Stmt φ → Span
  | .expr span _ | .block span _ | .cond span _ _ _ | .while span _ _ | .range span _ _ _ _ _
  | .break span | .continue span | .return span _ => span

/-- A program as it is read. -/
structure Program where
  body : Block Unit

end Scriptlet
