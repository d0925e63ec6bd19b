import Scriptlet.NameOrder
import Scriptlet.Native.Call
import Scriptlet.Text.Similar

/-!
Faults: why a run ends before its program does.

A fault is a cause and the place of the expression or statement that raised it. Causes fall into
kinds, and each has a message. The message about a name that is not bound suggests a similar one, and
of equally similar ones in one frame, the one that is told first.
-/
namespace Scriptlet

namespace Fault

inductive Kind where
  | typeMismatch | unboundVariable | constantReassignment | invalidAssignment | arityMismatch
  | indexOutOfBounds | invalidIndex | invalidRange | controlFlow | nativeArgument | stackOverflow
  deriving DecidableEq, Repr

inductive Cause where
  | operands (op : BinaryOp) (left right : Scriptlet.Kind)
  | operand (op : UnaryOp) (got : Scriptlet.Kind)
  | notCallable (got : Scriptlet.Kind)
  | notIndexable (got : Scriptlet.Kind)
  | notSliceable (got : Scriptlet.Kind)
  | noElements (got : Scriptlet.Kind)
  /-- An element of a text was assigned something that is not one character. -/
  | notCharacter (got : String)
  /-- A name is not bound; the visible ones are given frame by frame, from the inside out. -/
  | unbound (x : String) (visible : List (List String))
  /-- A `global` outside every function. -/
  | globalScope (x : String)
  | constant (x : String)
  /-- A constant assignment to an element. -/
  | constantElement (x : String)
  | arity (callee : String) (expected : Arity) (got : Nat)
  | index (i length : Nat)
  | slice (start stop length : Nat)
  | notIndex (got : String)
  | rangeBound (got : String)
  | rangeComparison (op : BinaryOp)
  | rangeDirection (ascending : Bool) (first last : Float)
  | rangeCounter (x : String) (got : Scriptlet.Kind)
  | breakOutsideLoop
  | continueOutsideLoop
  | returnOutsideFunction
  | native (n : Native) (e : NativeError)
  | stackOverflow (limit : Nat)

def Cause.kind : Cause → Kind
  | operands .. | operand .. | notCallable _ | notIndexable _ | notSliceable _ | noElements _
  | notCharacter _ => .typeMismatch
  | unbound .. | globalScope _ => .unboundVariable
  | constant _ => .constantReassignment
  | constantElement _ => .invalidAssignment
  | arity .. => .arityMismatch
  | index .. | slice .. => .indexOutOfBounds
  | notIndex _ => .invalidIndex
  | rangeBound _ | rangeComparison _ | rangeDirection .. | rangeCounter .. => .invalidRange
  | breakOutsideLoop | continueOutsideLoop | returnOutsideFunction => .controlFlow
  | native .. => .nativeArgument
  | stackOverflow _ => .stackOverflow

def Cause.message (order : NameOrder) : Cause → String
  | operands op left right =>
    s!"unsupported operand types for `{op.text}`: {left.name} and {right.name}"
  | operand op got => s!"unsupported operand type for `{op.text}`: {got.name}"
  | notCallable got => s!"{got.name} is not callable"
  | notIndexable got => s!"cannot index into {got.name}"
  | notSliceable got => s!"cannot slice {got.name}"
  | noElements got => s!"cannot assign to an element of {got.name}"
  | notCharacter got => s!"string elements can only be assigned one-character strings, got {got}"
  | unbound x visible =>
    s!"undefined variable `{x}`" ++ Text.hint (Text.suggest? x (order.list visible))
  | globalScope x => s!"`global {x}` used in global scope"
  | constant x => s!"cannot reassign constant `{x}`"
  | constantElement x => s!"cannot use `:=` to assign an element of `{x}`"
  | arity callee expected got =>
    s!"function {callee} expects {expected.text} argument(s), got {got}"
  | index i length => s!"index {i} out of bounds for length {length}"
  | slice start stop length => s!"slice {start}:{stop} out of bounds for length {length}"
  | notIndex got => s!"subscript must be a non-negative integer, got {got}"
  | rangeBound got => s!"range bound must be an integer, got {got}"
  | rangeComparison op => s!"`{op.text}` is not a range comparison"
  | rangeDirection ascending first last =>
    (if ascending then "ascending" else "descending")
      ++ s!" range cannot go from {Number.text first} to {Number.text last}"
  | rangeCounter x got => s!"loop variable `{x}` must stay a float, got {got.name}"
  | breakOutsideLoop => "`break` outside of a loop"
  | continueOutsideLoop => "`continue` outside of a loop"
  | returnOutsideFunction => "`return` outside of a function"
  | native n e => s!"{n.name}: {e.message}"
  | stackOverflow limit => s!"stack overflow: call depth exceeded {limit}"

end Fault

structure Fault where
  cause : Fault.Cause
  span : Span

namespace Fault

def kind (f : Fault) : Fault.Kind :=
  f.cause.kind

def message (f : Fault) (order : NameOrder := .bound) : String :=
  f.cause.message order

/-- The fault on one line. -/
def text (f : Fault) (order : NameOrder := .bound) : String :=
  "Runtime error: " ++ f.message order

end Fault
end Scriptlet
