import Scriptlet.Number.Layout
import Scriptlet.Text.Quoted
import Scriptlet.Value.Basic

/-!
Values as text.

A text stands for itself, but inside an array it is quoted. An array that is met again inside itself
is written as dots. An array is opened only inside arrays other than itself, so a path of opened
arrays is no longer than the heap, and its length bounds the recursion.
-/
namespace Scriptlet

/-- A number as text, and of any other value its type. -/
def Value.describe : Value → String
  | .float x => Number.text x
  | v => v.kind.name

namespace Heap

variable (h : Heap)

/-- A value inside the arrays `opened`, which are being written. -/
def renderNested : Nat → List ArrayRef → Value → String
  | fuel, opened, v =>
    match v with
    | .nil => "nil"
    | .bool b => if b then "true" else "false"
    | .float x => Number.text x
    | .text r => Text.quote (String.ofList (h.text r).toList)
    | .function f => "<fn(" ++ ", ".intercalate (f.params.map (·.val)) ++ ")>"
    | .native n => "<native fn " ++ n.name ++ ">"
    | .array r =>
      if r ∈ opened then "[...]"
      else
        match fuel with
        | 0 => "[...]"
        | fuel + 1 =>
          "[" ++ ", ".intercalate ((h.items r).toList.map (renderNested fuel (r :: opened))) ++ "]"

/-- A value as text. -/
def render (v : Value) : String :=
  match v with
  | .text r => String.ofList (h.text r).toList
  | v => renderNested h (h.arrays.size + 1) [] v

end Heap
end Scriptlet
