import Scriptlet.Buffer
import Scriptlet.Native.Basic
import Scriptlet.Number.Binary
import Scriptlet.Program.Basic

/-!
Values, and the heap that holds their texts and arrays.

A text or an array is a reference to a buffer in the heap, so that two values can share it and see
each other's changes. A function is the literal it comes from: it has no frame of its own, and two
functions are the same if they come from the same literal of the same program text.
-/
namespace Scriptlet

/-- The path of a function literal in the program text read so far. -/
abbrev FunctionId := List Nat

structure Function where
  id : FunctionId
  params : List (Located String)
  body : Block FunctionId

/-- A reference to a text in the heap. -/
structure TextRef where
  index : Nat
  deriving DecidableEq, Repr

/-- A reference to an array in the heap. -/
structure ArrayRef where
  index : Nat
  deriving DecidableEq, Repr

inductive Value where
  | nil
  | bool (b : Bool)
  | float (x : Float)
  | text (r : TextRef)
  | array (r : ArrayRef)
  | function (f : Function)
  | native (n : Native)

/-- The types of values. -/
inductive Kind where
  | nil | bool | float | text | array | function | native
  deriving DecidableEq, Repr

def Kind.name : Kind → String
  | nil => "nil" | bool => "bool" | float => "float" | text => "string" | array => "array"
  | function => "function" | native => "native function"

namespace Value

instance : Inhabited Value := ⟨nil⟩

def kind : Value → Kind
  | nil => .nil
  | bool _ => .bool
  | float _ => .float
  | text _ => .text
  | array _ => .array
  | function _ => .function
  | native _ => .native

/-- Everything but `nil` and `false` counts as true. -/
def truthy : Value → Bool
  | nil => false
  | bool b => b
  | _ => true

/-- The position that a value names. -/
def toIndex? : Value → Option Nat
  | float x => Number.toIndex? x
  | _ => none

def toFloat? : Value → Option Float
  | float x => some x
  | _ => none

end Value

structure Heap where
  texts : Array (Buffer Char)
  arrays : Array (Buffer Value)

namespace Heap

def empty : Heap := ⟨#[], #[]⟩

instance : Inhabited Heap := ⟨empty⟩

/-- The text behind a reference. -/
def text (h : Heap) (r : TextRef) : Buffer Char :=
  h.texts.getD r.index .empty

/-- The items of the array behind a reference. -/
def items (h : Heap) (r : ArrayRef) : Buffer Value :=
  h.arrays.getD r.index .empty

/-- Add a text. -/
def newText (h : Heap) (b : Buffer Char) : TextRef × Heap :=
  (⟨h.texts.size⟩, { h with texts := h.texts.push b })

/-- Add an array. -/
def newArray (h : Heap) (b : Buffer Value) : ArrayRef × Heap :=
  (⟨h.arrays.size⟩, { h with arrays := h.arrays.push b })

/-- Change the text behind a reference. -/
def modifyText (h : Heap) (r : TextRef) (f : Buffer Char → Buffer Char) : Heap :=
  { h with texts := h.texts.modify r.index f }

/-- Change the array behind a reference. -/
def modifyArray (h : Heap) (r : ArrayRef) (f : Buffer Value → Buffer Value) : Heap :=
  { h with arrays := h.arrays.modify r.index f }

end Heap
end Scriptlet
