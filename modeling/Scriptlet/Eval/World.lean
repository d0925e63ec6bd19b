import Scriptlet.Fault
import Scriptlet.Scope

/-!
The world that a program acts on, and the actions that evaluation is made of.

An action of type `Run α` takes a world and ends with a result, with a fault, or because its fuel is
used up, and in each case with the world as it then is. The actions of this module are the only ones
that touch the world: reading and binding names, making and changing texts and arrays, and calling
natives.
-/
namespace Scriptlet

structure World where
  scopes : Scopes
  host : Host
  deriving Inhabited

/-- Why an action has no result. -/
inductive Stop where
  | fault (f : Fault)
  | outOfFuel

abbrev Run := EStateM Stop World

/-- How many calls and how many loops of the current call are around a statement. -/
structure Depth where
  calls : Nat
  loops : Nat
  deriving DecidableEq, Repr

namespace Depth

/-- Outside every call and loop. -/
def top : Depth := ⟨0, 0⟩

/-- Inside one more call; its loops are its own. -/
def enterCall (d : Depth) : Depth := ⟨d.calls + 1, 0⟩

def enterLoop (d : Depth) : Depth := { d with loops := d.loops + 1 }

def inCall (d : Depth) : Bool := 0 < d.calls

def inLoop (d : Depth) : Bool := 0 < d.loops

end Depth

/-- How a statement ends. -/
inductive Signal where
  | normal
  | break
  | continue
  | return (v : Value)

/-- The frame in which a name is looked for: the global one for a `global`, which has no meaning
there. -/
def Scopes.target? (s : Scopes) (env : FrameId) (global : Bool) : Option FrameId :=
  if global then
    if s.isGlobal env then none else some (s.global env)
  else some env

namespace Run

def fault {α : Type} (cause : Fault.Cause) (span : Span) : Run α :=
  throw (.fault ⟨cause, span⟩)

/-- Do something to the world at the end of an action, however it ends. -/
@[inline] def ensuring {α : Type} (act : Run α) (after : World → World) : Run α := fun w =>
  match act w with
  | .ok a w => .ok a (after w)
  | .error e w => .error e (after w)

/-! ### The heap -/

def heap : Run Heap := do
  return (← get).host.heap

def newText (b : Buffer Char) : Run Value :=
  modifyGet fun w =>
    let (r, heap) := w.host.heap.newText b
    (.text r, { w with host := { w.host with heap } })

def newArray (b : Buffer Value) : Run Value :=
  modifyGet fun w =>
    let (r, heap) := w.host.heap.newArray b
    (.array r, { w with host := { w.host with heap } })

def setChar (r : TextRef) (i : Nat) (c : Char) : Run Unit :=
  modify fun w =>
    let heap := w.host.heap.modifyText r fun b => (b.set? i c).getD b
    { w with host := { w.host with heap } }

def setItem (r : ArrayRef) (i : Nat) (v : Value) : Run Unit :=
  modify fun w =>
    let heap := w.host.heap.modifyArray r fun b => (b.set? i v).getD b
    { w with host := { w.host with heap } }

/-- Call a native; a refusal is a fault of the call. -/
def native (n : Native) (args : List Value) (span : Span) : Run Value := fun ⟨scopes, host⟩ =>
  match n.call args host with
  | .ok v host => .ok v ⟨scopes, host⟩
  | .error e host => .error (.fault ⟨.native n e, span⟩) ⟨scopes, host⟩

/-! ### Names -/

def scopes : Run Scopes := do
  return (← get).scopes

def modifyScopes (f : Scopes → Scopes) : Run Unit :=
  modify fun w => { w with scopes := f w.scopes }

/-- The fault of a name that is bound nowhere in the chain of a frame. -/
def unbound {α : Type} (env : FrameId) (x : String) (span : Span) : Run α := do
  fault (.unbound x ((← scopes).visibleNames env)) span

/-- The frame in which a name is looked for. -/
def targetFrame (env : FrameId) (global : Bool) (x : String) (span : Span) : Run FrameId := do
  match (← scopes).target? env global with
  | some frame => return frame
  | none => fault (.globalScope x) span

def readName (env : FrameId) (global : Bool) (x : String) (span : Span) : Run Value := do
  let frame ← targetFrame env global x span
  match (← scopes).lookup? frame x with
  | some b => return b.value
  | none => unbound frame x span

/-- Bind a name in one frame, unless it is a constant there. -/
def assign (env : FrameId) (global constant : Bool) (x : String) (v : Value) (span : Span) :
    Run Value := do
  let frame ← targetFrame env global x span
  match ((← scopes).find? frame x).map Binding.isMutable with
  | none => modifyScopes (·.add frame x ⟨v, !constant⟩)
  | some true => modifyScopes (·.replace frame x ⟨v, !constant⟩)
  | some false => fault (.constant x) span
  return v

/-- Open a frame for a call, with the arguments bound to the parameters. -/
def enterFrame (env : FrameId) (params : List (Located String)) (args : List Value) :
    Run FrameId :=
  modifyGet fun w =>
    let (frame, scopes) := w.scopes.child env
    let scopes := (params.zip args).foldl (fun s (x, v) => s.add frame x.val ⟨v, true⟩) scopes
    (frame, { w with scopes })

/-- Close the frame of a call. -/
def leaveFrame (w : World) : World :=
  { w with scopes := w.scopes.leave }

end Run
end Scriptlet
