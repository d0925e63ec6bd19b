import Scriptlet.Eval.Basic
import Scriptlet.Program.Marking

/-!
Interpreters: a world that lasts from one program to the next, with a limit on how deep calls nest.

A new interpreter has one frame, in which every native is bound as a constant to its own name.
Programs and expressions run in that frame. What a run leaves behind, also when it stops early, is
there for the next one.
-/
namespace Scriptlet

structure Interpreter where
  world : World
  /-- How deep calls may nest. -/
  limit : Nat
  /-- The number of top-level statements it has been given. -/
  statements : Nat
  deriving Inhabited

/-- What is told of a global binding. -/
structure GlobalEntry where
  name : String
  isMutable : Bool
  kind : Kind
  text : String
  deriving DecidableEq, Repr

namespace Interpreter

def defaultLimit : Nat := 10000

/-- More steps than any run takes. -/
def ampleFuel : Nat := Number.pow2 62

/-- The natives, bound to their names. -/
def nativeBindings : List (String × Binding) :=
  Native.all.map fun n => (n.name, ⟨.native n, false⟩)

def new (limit : Nat) (console : Console) : Interpreter :=
  ⟨⟨.start nativeBindings, ⟨.empty, console⟩⟩, limit, 0⟩

/-- Forget every binding but the natives. The texts and arrays stay in the heap, where nothing leads
to them, so that statements can be counted anew. -/
def reset (i : Interpreter) : Interpreter :=
  ⟨⟨.start nativeBindings, i.world.host⟩, i.limit, 0⟩

/-- Perform an action; `count` statements go with it. -/
def perform {α : Type} : Interpreter → Run α → Nat → Except Stop α × Interpreter
  | ⟨world, limit, statements⟩, act, count =>
    match act world with
    | .ok a world => (.ok a, ⟨world, limit, statements + count⟩)
    | .error stop world => (.error stop, ⟨world, limit, statements + count⟩)

/-- Run a program in the global frame. -/
def run (fuel : Nat) (i : Interpreter) (p : Program) : Except Stop Signal × Interpreter :=
  let limit := i.limit
  let body := p.mark i.statements
  i.perform (execBlock limit fuel 0 .top body) p.body.length

/-- Evaluate an expression in the global frame, as the statement of its own that it could be. -/
def eval (fuel : Nat) (i : Interpreter) (e : Expr Unit) : Except Stop Value × Interpreter :=
  let limit := i.limit
  let e := e.mark [0, i.statements]
  i.perform (Scriptlet.eval limit fuel 0 .top e) 1

/-- Whether a name is bound as it is in a new interpreter. -/
def isNative (x : String) (b : Binding) : Bool :=
  match b with
  | ⟨.native n, false⟩ => n.name == x
  | _ => false

/-- The global bindings, by name, without the natives that are still what they were. -/
def globals (i : Interpreter) : List GlobalEntry :=
  let bindings := (i.world.scopes.frame 0).bindings.filter fun (x, b) => !isNative x b
  let entries := bindings.map fun (x, b) =>
    ⟨x, b.isMutable, b.value.kind, i.world.host.heap.render b.value⟩
  entries.mergeSort fun a b => a.name ≤ b.name

/-- What has been written. -/
def output (i : Interpreter) : String :=
  i.world.host.console.output

/-- Change the console. -/
def modifyConsole (i : Interpreter) (f : Console → Console) : Interpreter :=
  { i with world := { i.world with host := { i.world.host with console := f i.world.host.console } } }

/-- Take what has been written. -/
def takeOutput (i : Interpreter) : String × Interpreter :=
  (i.output, i.modifyConsole fun c => { c with output := "" })

end Interpreter
end Scriptlet
