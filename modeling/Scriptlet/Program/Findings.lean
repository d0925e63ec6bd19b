import Scriptlet.Error
import Scriptlet.Program.Basic

/-!
What can be found in a program without running it.

`Block.findings` lists, in the order of the source, the violations of a program (a `break`, `continue`,
`return` or `global` where there is nothing for it to refer to, a parameter that repeats another) and
the places worth a warning (statements that are never reached, a constant assignment to an element,
which always fails). A loop around a function does not count inside it.

`Program.check` reports the warnings up to the first violation, and that violation.
-/
namespace Scriptlet

inductive Violation where
  | breakOutsideLoop
  | continueOutsideLoop
  | returnOutsideFunction
  | globalOutsideFunction (x : String)
  | repeatedParameter (x : String)
  deriving DecidableEq, Repr

def Violation.message : Violation → String
  | breakOutsideLoop => "`break` outside of a loop"
  | continueOutsideLoop => "`continue` outside of a loop"
  | returnOutsideFunction => "`return` outside of a function"
  | globalOutsideFunction x => s!"`global {x}` used in global scope"
  | repeatedParameter x => s!"duplicate parameter `{x}`"

inductive Suspicion where
  | unreachable
  | constantElement (x : String)
  deriving DecidableEq, Repr

namespace Suspicion

/-- The name of the kind of warning. -/
def kind : Suspicion → String
  | unreachable => "unreachable_code"
  | constantElement _ => "constant_index_assign"

def message : Suspicion → String
  | unreachable => "unreachable statement"
  | constantElement x => s!"`{x}[...] := ...` always fails; use `=` to assign an element"

end Suspicion

structure Warning where
  suspicion : Suspicion
  span : Span
  deriving DecidableEq, Repr

inductive Finding where
  | violation (v : Violation) (span : Span)
  | warning (w : Warning)
  deriving DecidableEq, Repr

/-- What is around a piece of a program. -/
structure Surroundings where
  inLoop : Bool
  inFunction : Bool
  deriving DecidableEq, Repr

namespace Surroundings

def top : Surroundings := ⟨false, false⟩

def body : Surroundings := ⟨false, true⟩

def loop (s : Surroundings) : Surroundings := { s with inLoop := true }

end Surroundings

/-- The parameters that are named like one before them. -/
def repeatedParameters : List String → List (Located String) → List Finding
  | _, [] => []
  | seen, x :: xs =>
    if x.val ∈ seen then
      .violation (.repeatedParameter x.val) x.span :: repeatedParameters seen xs
    else
      repeatedParameters (x.val :: seen) xs

/-- Whether the statements behind this one in a block are never reached. -/
def Stmt.endsBlock {φ : Type} : Stmt φ → Bool
  | .break _ | .continue _ | .return _ _ => true
  | _ => false

/-- The span of a block's statements from one on. -/
def Stmt.spanThrough {φ : Type} (s : Stmt φ) (rest : List (Stmt φ)) : Span :=
  s.span.merge ((s :: rest).getLast (by simp)).span

/-- The violation of a `global` outside every function. -/
def globalFindings (place : Surroundings) (global : Bool) (x : String) (span : Span) :
    List Finding :=
  if global && !place.inFunction then [.violation (.globalOutsideFunction x) span] else []

mutual

def Expr.findings {φ : Type} (place : Surroundings) : Expr φ → List Finding
  | .number _ _ | .text _ _ | .bool _ _ | .nil _ => []
  | .name span global x => globalFindings place global x span
  | .array _ items => Expr.listFindings place items
  | .group _ inner => inner.findings place
  | .binary _ _ left right => left.findings place ++ right.findings place
  | .unary _ _ operand => operand.findings place
  | .conditional _ test yes no =>
    test.findings place ++ yes.findings place ++ no.findings place
  | .call _ callee args => callee.findings place ++ Expr.listFindings place args
  | .index _ target i => target.findings place ++ i.findings place
  | .slice _ target start stop =>
    target.findings place ++ Expr.optionFindings place start ++ Expr.optionFindings place stop
  | .assign span global _ x value => globalFindings place global x span ++ value.findings place
  | .assignIndex span global constant x i value =>
    globalFindings place global x span
      ++ (if constant then [.warning ⟨.constantElement x, span⟩] else [])
      ++ i.findings place ++ value.findings place
  | .function _ _ params body => repeatedParameters [] params ++ Block.findings .body body

def Expr.listFindings {φ : Type} (place : Surroundings) : List (Expr φ) → List Finding
  | [] => []
  | e :: es => e.findings place ++ Expr.listFindings place es

def Expr.optionFindings {φ : Type} (place : Surroundings) : Option (Expr φ) → List Finding
  | none => []
  | some e => e.findings place

def Stmt.findings {φ : Type} (place : Surroundings) : Stmt φ → List Finding
  | .expr _ e => e.findings place
  | .block _ body => Block.findings place body
  | .cond _ test yes no =>
    test.findings place ++ Block.findings place yes ++ Block.optionFindings place no
  | .while _ test body => test.findings place ++ Block.findings place.loop body
  | .range _ _ _ first last body =>
    first.findings place ++ last.findings place ++ Block.findings place.loop body
  | .break span => if place.inLoop then [] else [.violation .breakOutsideLoop span]
  | .continue span => if place.inLoop then [] else [.violation .continueOutsideLoop span]
  | .return span value =>
    if place.inFunction then Expr.optionFindings place value
    else [.violation .returnOutsideFunction span]

/-- The findings in a block. One warning covers all statements behind the first that ends it. -/
def Block.findings {φ : Type} (place : Surroundings) : List (Stmt φ) → List Finding
  | [] => []
  | [s] => s.findings place
  | s :: t :: rest =>
    s.findings place ++
      if s.endsBlock then
        .warning ⟨.unreachable, t.spanThrough rest⟩ :: Block.deadFindings place (t :: rest)
      else
        Block.findings place (t :: rest)

/-- The findings in the statements of a block that are never reached. -/
def Block.deadFindings {φ : Type} (place : Surroundings) : List (Stmt φ) → List Finding
  | [] => []
  | s :: rest => s.findings place ++ Block.deadFindings place rest

def Block.optionFindings {φ : Type} (place : Surroundings) : Option (List (Stmt φ)) → List Finding
  | none => []
  | some body => Block.findings place body

end

/-- The outcome of a check. -/
structure Report where
  warnings : List Warning
  violation? : Option (Violation × Span)
  deriving DecidableEq, Repr

namespace Report

/-- The warnings up to the first violation, and that violation. -/
def ofFindings : List Finding → Report
  | [] => ⟨[], none⟩
  | .violation v span :: _ => ⟨[], some (v, span)⟩
  | .warning w :: rest =>
    let report := ofFindings rest
    ⟨w :: report.warnings, report.violation?⟩

/-- The error that a violation amounts to. -/
def error? (r : Report) : Option CompileError :=
  r.violation?.map fun (v, span) => .source .analysis v.message span

end Report

/-- Check a program before it runs. -/
def Program.check (p : Program) : Report :=
  .ofFindings (Block.findings .top p.body)

end Scriptlet
