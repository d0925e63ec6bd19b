import Scriptlet.Value.Basic

/-!
What a program can reach besides its own names: the heap, and a console with the bytes that are still
to be read, the text written so far and a clock.

What the clock shows, and whether a write or a read goes wrong, is for the outside to say. It is given
for every call in advance, and the console counts the calls.
-/
namespace Scriptlet

/-- How a write or a read goes wrong: why, and after how many characters or bytes. -/
structure Failure where
  reason : String
  done : Nat

/-- What the outside does at each call, by the number of calls of its sort before. -/
structure Outside where
  /-- The microseconds from the time of the console to a reading of the clock. -/
  elapsed : Nat → Int
  writeFailure? : Nat → Option Failure
  readFailure? : Nat → Option Failure

/-- Nothing goes wrong, and the clock moves on by a microsecond each time it is read. -/
def Outside.calm : Outside :=
  ⟨fun n => n, fun _ => none, fun _ => none⟩

structure Console where
  /-- The bytes of the input that have not been read. -/
  input : List UInt8
  output : String
  /-- Why no text can be written, if none can. -/
  blocked? : Option String
  /-- The time of the console, in microseconds. -/
  micros : Nat
  outside : Outside
  writes : Nat
  reads : Nat
  /-- How often the clock has been read. -/
  readings : Nat

namespace Console

/-- A console with this input, on which nothing has been written. -/
def ofInput (input : List UInt8) : Console :=
  ⟨input, "", none, 0, .calm, 0, 0, 0⟩

instance : Inhabited Console := ⟨ofInput []⟩

/-- Write a text; the answer is why it could not be written to its end. -/
def write (c : Console) (text : String) : Option String × Console :=
  match c.blocked? with
  | some reason => (some reason, c)
  | none =>
    let d := { c with writes := c.writes + 1 }
    match c.outside.writeFailure? c.writes with
    | none => (none, { d with output := c.output ++ text })
    | some failure =>
      let part := String.ofList (text.toList.take failure.done)
      (some failure.reason, { d with output := c.output ++ part })

/-- Read the bytes of the next line, with the line feed that ends it. A read that fails does so
before the line feed, and the bytes read until then are gone. -/
def takeLine (c : Console) : Except String (List UInt8) × Console :=
  let line := c.input.takeWhile (· != 10)
  let d := { c with reads := c.reads + 1 }
  match c.outside.readFailure? c.reads with
  | some failure =>
    (.error failure.reason, { d with input := c.input.drop (min failure.done line.length) })
  | none =>
    match c.input.dropWhile (· != 10) with
    | [] => (.ok line, { d with input := [] })
    | feed :: rest => (.ok (line ++ [feed]), { d with input := rest })

/-- Read the clock, in seconds. -/
def takeTime (c : Console) : Float × Console :=
  (Float.ofInt (c.micros + c.outside.elapsed c.readings) / 1000000,
    { c with readings := c.readings + 1 })

end Console

structure Host where
  heap : Heap
  console : Console
  deriving Inhabited

end Scriptlet
