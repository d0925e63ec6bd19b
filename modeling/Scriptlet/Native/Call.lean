import Scriptlet.Console
import Scriptlet.Number.Reading
import Scriptlet.Text.Blank
import Scriptlet.Text.Utf8
import Scriptlet.Value.Equality
import Scriptlet.Value.Rendering

/-!
What the natives do.

A native acts on the heap and the console; it never sees a name. A native that changes a sequence
first looks at all it needs of its arguments, so that they may share buffers, except for `pop` and
`remove`, which handle their arguments one after the other and keep what they have done when a later
one fails.
-/
namespace Scriptlet

/-- Why a native refuses its arguments. -/
inductive NativeError where
  | notSequence (param : String) (got : Kind)
  | notText (param : String) (got : Kind)
  | notArray (param : String) (got : Kind)
  | notIndex (param : String) (got : String)
  | outOfBounds (i length : Nat)
  | cannotWrite (reason : String)
  | cannotRead (reason : String)
  | emptyNeedle
  | noSuchValue (got : String)
  | noSuchText (got : String)
  | notNumeric (got : Kind)
  deriving DecidableEq, Repr

def NativeError.message : NativeError → String
  | notSequence param got => s!"`{param}` must be a string or array, got {got.name}"
  | notText param got => s!"`{param}` must be a string, got {got.name}"
  | notArray param got => s!"`{param}` must be an array, got {got.name}"
  | notIndex param got => s!"`{param}` must be a non-negative integer, got {got}"
  | outOfBounds i length => s!"index {i} out of bounds for length {length}"
  | cannotWrite reason => s!"failed to write output: {reason}"
  | cannotRead reason => s!"failed to read input: {reason}"
  | emptyNeedle => "cannot count occurrences of an empty string"
  | noSuchValue got => s!"value not found: {got}"
  | noSuchText got => "substring not found: " ++ Text.quote got
  | notNumeric got => s!"`value` must be a string or float, got {got.name}"

/-- An action on the heap and the console that may be refused. -/
abbrev NativeAction := EStateM NativeError Host

namespace NativeAction

def text (r : TextRef) : NativeAction (Buffer Char) := do
  return (← get).heap.text r

def items (r : ArrayRef) : NativeAction (Buffer Value) := do
  return (← get).heap.items r

def newText (b : Buffer Char) : NativeAction Value :=
  modifyGet fun host =>
    let (r, heap) := host.heap.newText b
    (.text r, { host with heap })

def newArray (b : Buffer Value) : NativeAction Value :=
  modifyGet fun host =>
    let (r, heap) := host.heap.newArray b
    (.array r, { host with heap })

def setText (r : TextRef) (b : Buffer Char) : NativeAction Unit :=
  modify fun host => { host with heap := host.heap.modifyText r fun _ => b }

def setArray (r : ArrayRef) (b : Buffer Value) : NativeAction Unit :=
  modify fun host => { host with heap := host.heap.modifyArray r fun _ => b }

def appendText (r : TextRef) (cs : List Char) : NativeAction Unit :=
  modify fun host => { host with heap := host.heap.modifyText r (·.append cs) }

def appendArray (r : ArrayRef) (vs : List Value) : NativeAction Unit :=
  modify fun host => { host with heap := host.heap.modifyArray r (·.append vs) }

def render (v : Value) : NativeAction String := do
  return (← get).heap.render v

end NativeAction

/-- A value whose items have positions. -/
inductive Sequence where
  | text (r : TextRef)
  | array (r : ArrayRef)
  deriving DecidableEq, Repr

namespace Native

open NativeAction

/-! ### Arguments -/

def sequence (param : String) : Value → NativeAction Sequence
  | .text r => return .text r
  | .array r => return .array r
  | v => throw (.notSequence param v.kind)

/-- The characters of a text. -/
def chars (param : String) : Value → NativeAction (List Char)
  | .text r => return (← text r).toList
  | v => throw (.notText param v.kind)

/-- The characters of several texts in a row. -/
def charsOfAll (param : String) : List Value → NativeAction (List Char)
  | [] => return []
  | v :: vs => do
    let cs ← chars param v
    let ds ← charsOfAll param vs
    return cs ++ ds

/-- The items of an array. -/
def itemsOf (param : String) : Value → NativeAction (List Value)
  | .array r => return (← items r).toList
  | v => throw (.notArray param v.kind)

/-- The items of several arrays in a row. -/
def itemsOfAll (param : String) : List Value → NativeAction (List Value)
  | [] => return []
  | v :: vs => do
    let xs ← itemsOf param v
    let ys ← itemsOfAll param vs
    return xs ++ ys

def position (param : String) (v : Value) : NativeAction Nat :=
  match v.toIndex? with
  | some i => return i
  | none => do throw (.notIndex param (← render v))

/-! ### The natives -/

/-- Write the values in a line, with blanks between them. -/
def printAll (vs : List Value) : NativeAction Value := do
  let refusal? ← modifyGet fun host =>
    let (refusal?, console) :=
      host.console.write (" ".intercalate (vs.map host.heap.render) ++ "\n")
    (refusal?, { host with console })
  match refusal? with
  | some reason => throw (.cannotWrite reason)
  | none => return .nil

/-- Without the line feed at the end of a line, and without a carriage return before it. -/
def stripLineEnd (cs : List Char) : List Char :=
  match cs.reverse with
  | '\n' :: '\r' :: rest => rest.reverse
  | '\n' :: rest => rest.reverse
  | '\r' :: rest => rest.reverse
  | _ => cs

/-- Read a line. A line that is not UTF-8 is read too, and then refused. -/
def readLine : NativeAction Value := do
  let taken ← modifyGet fun host =>
    let (taken, console) := host.console.takeLine
    (taken, { host with console })
  match taken with
  | .error reason => throw (.cannotRead reason)
  | .ok [] => return .nil
  | .ok line =>
    match Text.ofBytes? line with
    | some s => newText (.ofList (stripLineEnd s.toList))
    | none => throw (.cannotRead Text.notUtf8)

def length (v : Value) : NativeAction Value := do
  match ← sequence "sequence" v with
  | .text r => return .float (Number.ofIndex (← text r).size)
  | .array r => return .float (Number.ofIndex (← items r).size)

def appendAll (v : Value) (vs : List Value) : NativeAction Value := do
  match ← sequence "sequence" v with
  | .array r => appendArray r vs
  | .text r =>
    let cs ← charsOfAll "values" vs
    appendText r cs
  return v

def extendAll (v : Value) (vs : List Value) : NativeAction Value := do
  match ← sequence "sequence" v with
  | .array r =>
    let xs ← itemsOfAll "others" vs
    appendArray r xs
  | .text r =>
    let cs ← charsOfAll "others" vs
    appendText r cs
  return v

def mergeAll (v : Value) (vs : List Value) : NativeAction Value := do
  match ← sequence "sequence" v with
  | .array r =>
    let b ← items r
    let xs ← itemsOfAll "others" vs
    newArray (b.append xs)
  | .text r =>
    let b ← text r
    let cs ← charsOfAll "others" vs
    newText (b.append cs)

def insertAt (v at_ x : Value) : NativeAction Value := do
  let i ← position "index" at_
  match ← sequence "sequence" v with
  | .array r =>
    let b ← items r
    match b.insert? i [x] with
    | some b => setArray r b
    | none => throw (.outOfBounds i b.size)
  | .text r =>
    let cs ← chars "value" x
    let b ← text r
    match b.insert? i cs with
    | some b => setText r b
    | none => throw (.outOfBounds i b.size)
  return v

/-- The position of an item equal to `x`. -/
def positionOf? (r : ArrayRef) (x : Value) : NativeAction (Option Nat) := do
  let heap := (← get).heap
  return (heap.items r).toList.findIdx? (heap.equal · x)

def indexOf (v x : Value) : NativeAction Value := do
  let found? ← match ← sequence "sequence" v with
    | .array r => positionOf? r x
    | .text r =>
      let needle ← chars "value" x
      pure ((← text r).find? needle)
  match found? with
  | some i => return .float (Number.ofIndex i)
  | none => return .float (-1)

def countOf (v x : Value) : NativeAction Value := do
  match ← sequence "sequence" v with
  | .array r =>
    let heap := (← get).heap
    return .float (Number.ofIndex ((heap.items r).toList.countP (heap.equal · x)))
  | .text r =>
    let needle ← chars "value" x
    if needle.isEmpty then throw .emptyNeedle
    else return .float (Number.ofIndex ((← text r).count needle))

/-- Take out the item at a position. -/
def popOne (s : Sequence) (v : Value) : NativeAction Value := do
  let i ← position "indices" v
  match s with
  | .array r =>
    let b ← items r
    match b.erase? i with
    | some (x, b) =>
      setArray r b
      return x
    | none => throw (.outOfBounds i b.size)
  | .text r =>
    let b ← text r
    match b.erase? i with
    | some (c, b) =>
      setText r b
      newText (.ofList [c])
    | none => throw (.outOfBounds i b.size)

def popEach (s : Sequence) : List Value → NativeAction (List Value)
  | [] => return []
  | v :: vs => do
    let x ← popOne s v
    let xs ← popEach s vs
    return x :: xs

/-- Take out items one after the other; the result is the item, or an array of several. -/
def popAll (v : Value) (vs : List Value) : NativeAction Value := do
  let s ← sequence "sequence" v
  match ← popEach s vs with
  | [x] => return x
  | xs => newArray (.ofList xs)

/-- Take out the first item equal to a value, or the first occurrence of a text. -/
def removeOne (s : Sequence) (x : Value) : NativeAction Unit := do
  match s with
  | .array r =>
    match ← positionOf? r x with
    | some i =>
      match (← items r).erase? i with
      | some (_, b) => setArray r b
      | none => return
    | none => throw (.noSuchValue (← render x))
  | .text r =>
    let needle ← chars "values" x
    let b ← text r
    match b.find? needle with
    | some i =>
      match b.eraseRange? i (i + needle.length) with
      | some b => setText r b
      | none => return
    | none => throw (.noSuchText (← render x))

def removeEach (s : Sequence) : List Value → NativeAction Unit
  | [] => return
  | v :: vs => do
    removeOne s v
    removeEach s vs

def removeAll (v : Value) (vs : List Value) : NativeAction Value := do
  let s ← sequence "sequence" v
  removeEach s vs
  return v

def clearAll (v : Value) : NativeAction Value := do
  match ← sequence "sequence" v with
  | .array r => setArray r .empty
  | .text r => setText r .empty
  return v

/-- The number that a text spells, blanks around it aside; nothing if it spells none. -/
def toNumber (v : Value) : NativeAction Value := do
  match v with
  | .float x => return .float x
  | .text r =>
    match Number.read? (Text.trim (← text r).toList) with
    | some x => return .float x
    | none => return .nil
  | v => throw (.notNumeric v.kind)

/-- Call a native. Its arguments are as many as its arity accepts. -/
def call (n : Native) (args : List Value) : NativeAction Value :=
  match n, args with
  | print, vs => printAll vs
  | input, _ => readLine
  | clock, _ => modifyGet fun host =>
    let (time, console) := host.console.takeTime
    (.float time, { host with console })
  | len, [v] => length v
  | append, v :: vs => appendAll v vs
  | extend, v :: vs => extendAll v vs
  | merge, v :: vs => mergeAll v vs
  | insert, [v, i, x] => insertAt v i x
  | index, [v, x] => indexOf v x
  | count, [v, x] => countOf v x
  | pop, v :: vs => popAll v vs
  | remove, v :: vs => removeAll v vs
  | clear, [v] => clearAll v
  | number, [v] => toNumber v
  | _, _ => return .nil

end Native
end Scriptlet
