import Scriptlet.Diagnostic
import Scriptlet.Session
import Scriptlet.Transcript

/-!
The dialogue over a session: lines come from the standard input, and each is answered.

A line that starts with a colon is a command of the dialogue, any other line that is not blank is an
input of the session. The standard input is read in blocks. A program that asks for input gets the
bytes behind the line that called it, and keeps the block in which it stopped reading, so the dialogue
goes on with the block after it.
-/
namespace Scriptlet

def version : String := "0.1.0"

structure Repl where
  session : Session
  /-- How many bytes of the standard input have been taken. -/
  taken : Nat
  /-- The bytes that are left. -/
  rest : List UInt8

namespace Repl

/-- The name of the source of a line. -/
def file : String := "<repl>"

/-- The size of a block. -/
def blockSize : Nat := 8192

def banner : String :=
  s!"Ember REPL v{version}\nType :help for help, :quit to exit.\n\n"

def farewell : String := "Goodbye!\n"

def helpText : String :=
  "Ember REPL Commands:\n"
    ++ "  :help, :h, :?   Show this help\n"
    ++ "  :quit, :q       Exit the REPL\n"
    ++ "  :clear          Clear the screen\n"
    ++ "  :reset          Forget every binding except the natives\n"
    ++ "\n"
    ++ "You can enter:\n"
    ++ "  - Expressions: 1 + 2, xs[1:], typeof x\n"
    ++ "  - Statements: x = [1, 2]; for i < 0 .. 3 \x7b print(i); \x7d\n"
    ++ "  - Functions: fn add(a, b) \x7b return a + b; \x7d\n"
    ++ "\n"
    ++ "Natives:\n"
    ++ String.join (Native.all.map fun n => s!"  {n.signature}\n")

/-- The commands of the dialogue. -/
inductive Directive where
  | quit
  | help
  | clear
  | reset
  | unknown (line : String)
  deriving DecidableEq, Repr

def Directive.ofLine : String → Directive
  | ":quit" | ":q" | ":exit" => quit
  | ":help" | ":h" | ":?" => help
  | ":clear" => clear
  | ":reset" => reset
  | line => unknown line

/-- Follow a command; the dialogue goes on unless there is nothing left of it. -/
def direct (r : Repl) : Directive → Transcript × Option Repl
  | .quit => ([.out farewell], none)
  | .help => ([.out helpText], some r)
  | .clear => ([.out "\x1b[2J\x1b[1;1H"], some r)
  | .reset => ([.out "Global bindings cleared.\n"], some { r with session := r.session.reset })
  | .unknown line => ([.out s!"Unknown command: {line}\nType :help for help.\n"], some r)

/-- Put the bytes that are left within reach of the program. -/
def lend (r : Repl) : Session :=
  { r.session with
    interpreter := r.session.interpreter.modifyConsole fun c => { c with input := c.input ++ r.rest } }

/-- Take back the bytes behind the block in which the program, which held `kept` bytes before, has
stopped reading. -/
def regain (r : Repl) (kept : Nat) (s : Session) : Repl :=
  let input := s.interpreter.world.host.console.input
  let used := kept + r.rest.length - input.length
  let keep :=
    if used ≤ kept then kept - used
    else
      let stop := r.taken + (used - kept)
      (blockSize - stop % blockSize) % blockSize
  let rest := input.drop keep
  let interpreter := s.interpreter.modifyConsole fun c => { c with input := input.take keep }
  ⟨{ s with interpreter }, r.taken + (r.rest.length - rest.length), rest⟩

/-- What is written of a reply. -/
def answer (order : NameOrder) (line : String) (heap : Heap) : Reply → Transcript
  | .done => []
  | .value v => [.out (heap.render v ++ "\n")]
  | .rejected e => [.err (e.diagnostic.render file line)]
  | .stopped (.fault f) => [.err ((f.diagnostic order).render file line)]
  | .stopped .outOfFuel => [.err "Error: out of fuel\n"]

/-- Give a line to the session. -/
def input (fuel : Nat) (order : NameOrder) (r : Repl) (line : String) : Transcript × Repl :=
  let kept := r.session.interpreter.world.host.console.input.length
  let (reply, session) := r.lend.eval fuel line
  let (printed, session) := session.takeOutput
  let (warnings, session) := session.takeWarnings
  ([.out printed] ++ warnings.map (fun w => .err (w.diagnostic.render file line))
      ++ answer order line session.interpreter.world.host.heap reply,
    r.regain kept session)

/-- Answer a line. -/
def line (fuel : Nat) (order : NameOrder) (r : Repl) (text : String) : Transcript × Option Repl :=
  match Text.trim text.toList with
  | [] => ([], some r)
  | ':' :: cs => r.direct (.ofLine (String.ofList (':' :: cs)))
  | cs =>
    let (written, r) := r.input fuel order (String.ofList cs)
    (written, some r)

/-- The next line, without the bytes that end it, and the dialogue behind it. -/
def takeLine? (r : Repl) : Option (List UInt8 × Repl) :=
  match r.rest with
  | [] => none
  | bytes =>
    let text := bytes.takeWhile (· != 10)
    let rest := (bytes.dropWhile (· != 10)).drop 1
    some (text, { r with taken := r.taken + (bytes.length - rest.length), rest })

/-- Answer lines, at most as many as `turns`; names are told in another order in each turn. -/
def converse (fuel : Nat) (orders : Nat → NameOrder) : Nat → Repl → Transcript
  | 0, _ => []
  | turns + 1, r =>
    match r.takeLine? with
    | none => [.out farewell]
    | some (bytes, r) =>
      match Text.ofBytes? bytes with
      | none => [.err s!"Error: {Text.notUtf8}\n"]
      | some text =>
        match r.line fuel (orders turns) text with
        | (written, some r) => written ++ converse fuel orders turns r
        | (written, none) => written

/-- The whole dialogue over a standard input. -/
def dialogue (fuel : Nat) (orders : Nat → NameOrder) (console : Console) : Transcript :=
  let session := .new (.new Interpreter.defaultLimit { console with input := [] })
  .out banner :: converse fuel orders (console.input.length + 1) ⟨session, 0, console.input⟩

end Repl
end Scriptlet
