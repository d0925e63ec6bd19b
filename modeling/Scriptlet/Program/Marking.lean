import Scriptlet.Value.Basic

/-!
The identities of a program's functions.

Before a program runs, each function literal is marked by its path: the ordinal of its top-level
statement among all that have been given to the interpreter, and the position of every node inside
the one around it. Evaluating a literal twice thus gives the same function, two literals never do,
and a path does not depend on what follows in the block, nor on the layout of the source.

Paths are written from the inside out.
-/
namespace Scriptlet

mutual

def Expr.mark (path : FunctionId) : Expr Unit → Expr FunctionId
  | .number span x => .number span x
  | .text span s => .text span s
  | .bool span b => .bool span b
  | .nil span => .nil span
  | .array span items => .array span (Expr.markList path 0 items)
  | .group span inner => .group span (inner.mark (0 :: path))
  | .name span global x => .name span global x
  | .binary span op left right => .binary span op (left.mark (0 :: path)) (right.mark (1 :: path))
  | .unary span op operand => .unary span op (operand.mark (0 :: path))
  | .conditional span test yes no =>
    .conditional span (test.mark (0 :: path)) (yes.mark (1 :: path)) (no.mark (2 :: path))
  | .call span callee args => .call span (callee.mark (0 :: path)) (Expr.markList path 1 args)
  | .index span target i => .index span (target.mark (0 :: path)) (i.mark (1 :: path))
  | .slice span target start stop =>
    .slice span (target.mark (0 :: path)) (Expr.markOption (1 :: path) start)
      (Expr.markOption (2 :: path) stop)
  | .assign span global constant x value => .assign span global constant x (value.mark (0 :: path))
  | .assignIndex span global constant x i value =>
    .assignIndex span global constant x (i.mark (0 :: path)) (value.mark (1 :: path))
  | .function span _ params body => .function span path params (Block.mark path 0 body)

/-- Mark expressions that are the children of one node, the first one at position `i`. -/
def Expr.markList (path : FunctionId) (i : Nat) : List (Expr Unit) → List (Expr FunctionId)
  | [] => []
  | e :: es => e.mark (i :: path) :: Expr.markList path (i + 1) es

def Expr.markOption (path : FunctionId) : Option (Expr Unit) → Option (Expr FunctionId)
  | none => none
  | some e => some (e.mark path)

def Stmt.mark (path : FunctionId) : Stmt Unit → Stmt FunctionId
  | .expr span e => .expr span (e.mark (0 :: path))
  | .block span body => .block span (Block.mark path 0 body)
  | .cond span test yes no =>
    .cond span (test.mark (0 :: path)) (Block.mark (1 :: path) 0 yes)
      (Block.markOption (2 :: path) no)
  | .while span test body => .while span (test.mark (0 :: path)) (Block.mark (1 :: path) 0 body)
  | .range span x cmp first last body =>
    .range span x cmp (first.mark (0 :: path)) (last.mark (1 :: path))
      (Block.mark (2 :: path) 0 body)
  | .break span => .break span
  | .continue span => .continue span
  | .return span value => .return span (Expr.markOption (0 :: path) value)

/-- Mark the statements of a block, the first one at position `i`. -/
def Block.mark (path : FunctionId) (i : Nat) : List (Stmt Unit) → List (Stmt FunctionId)
  | [] => []
  | s :: ss => s.mark (i :: path) :: Block.mark path (i + 1) ss

def Block.markOption (path : FunctionId) :
    Option (List (Stmt Unit)) → Option (List (Stmt FunctionId))
  | none => none
  | some body => some (Block.mark path 0 body)

end

/-- Mark a program whose first statement has this ordinal. -/
def Program.mark (p : Program) (ordinal : Nat) : Block FunctionId :=
  Block.mark [] ordinal p.body

end Scriptlet
