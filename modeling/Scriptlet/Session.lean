import Scriptlet.Interpreter
import Scriptlet.Program.Findings
import Scriptlet.Program.Source

/-!
Sessions: inputs that are answered one after another by one interpreter.

An input is a program, or an expression that lacks its semicolon. A program is checked before it
runs, and its warnings are kept until they are taken or replaced; an expression is evaluated as it
is, and gives its value. An input that is neither is answered with the error of the input itself.
-/
namespace Scriptlet

structure Session where
  interpreter : Interpreter
  /-- Warnings that have not been taken. -/
  warnings : List Warning
  deriving Inhabited

/-- The answer to an input. -/
inductive Reply where
  /-- It was a program, or an expression whose value is `nil`. -/
  | done
  | value (v : Value)
  | rejected (e : CompileError)
  | stopped (s : Stop)

/-- The expression that a program consists of. -/
def Program.expression? (p : Program) : Option (Expr Unit) :=
  match p.body with
  | [.expr _ e] => some e
  | _ => none

/-- The expression that a source is when a semicolon is put behind it. -/
def Expr.ofSource? (source : String) : Option (Expr Unit) :=
  match Program.ofSource (source ++ ";") with
  | .ok p => p.expression?
  | .error _ => none

def Reply.ofValue : Value → Reply
  | .nil => .done
  | v => .value v

namespace Session

def new (i : Interpreter) : Session := ⟨i, []⟩

def reset (s : Session) : Session :=
  { s with interpreter := s.interpreter.reset }

/-- Answer an input that is a program. -/
def run (fuel : Nat) (s : Session) (p : Program) : Reply × Session :=
  let report := p.check
  match report.error? with
  | some e => (.rejected e, s)
  | none =>
    match s.interpreter.run fuel p with
    | (.ok _, i) => (.done, ⟨i, report.warnings⟩)
    | (.error stop, i) => (.stopped stop, ⟨i, report.warnings⟩)

/-- Answer an input that is an expression. -/
def evalExpr (fuel : Nat) (s : Session) (e : Expr Unit) : Reply × Session :=
  match s.interpreter.eval fuel e with
  | (.ok v, i) => (.ofValue v, { s with interpreter := i })
  | (.error stop, i) => (.stopped stop, { s with interpreter := i })

/-- Answer an input. -/
def eval (fuel : Nat) (s : Session) (input : String) : Reply × Session :=
  match Program.ofSource input with
  | .ok p => s.run fuel p
  | .error error =>
    match Expr.ofSource? input with
    | some e => s.evalExpr fuel e
    | none => (.rejected error, s)

/-- Take the warnings of the last program. -/
def takeWarnings (s : Session) : List Warning × Session :=
  (s.warnings, { s with warnings := [] })

/-- Take what has been written. -/
def takeOutput (s : Session) : String × Session :=
  let (text, i) := s.interpreter.takeOutput
  (text, { s with interpreter := i })

end Session
end Scriptlet
