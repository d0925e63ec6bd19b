import Scriptlet.Command.Basic
import Scriptlet.Command.Files
import Scriptlet.Json.Printer
import Scriptlet.Program.Listing
import Scriptlet.Repl

/-!
What commands do: given the files and the console, a command has a transcript and an exit code.

The code is 0 when the command has done its job, 1 when it has told what was wrong with the source or
the run, and 2 when the command line was no command.
-/
namespace Scriptlet.Command

/-- A source with the name of its file. -/
structure SourceFile where
  name : String
  text : String

def report (file : SourceFile) (d : Diagnostic) : Event :=
  .err (d.render file.name file.text)

/-- Read a source file. -/
def load (read : String → Except FileError (List UInt8)) (name : String) :
    Except Transcript SourceFile :=
  let refuse (reason : String) : Except Transcript SourceFile :=
    .error [.err s!"Error: cannot read {name}: {reason}\n"]
  match read name with
  | .error e => refuse e.message
  | .ok bytes =>
    match Text.ofBytes? bytes with
    | some text => .ok ⟨name, text⟩
    | none => refuse Text.notUtf8

/-- The program of a source file. -/
def program (file : SourceFile) : Except Transcript Program :=
  (Program.ofSource file.text).mapError fun e => [report file e.diagnostic]

/-- The warnings about the program of a source file. -/
def warnings (file : SourceFile) (p : Program) : Except Transcript (List Warning) :=
  let r := p.check
  match r.error? with
  | some e => .error [report file e.diagnostic]
  | none => .ok r.warnings

def reportAll (file : SourceFile) (ws : List Warning) : Transcript :=
  ws.map fun w => report file w.diagnostic

/-- Run the program of a source file. -/
def runProgram (fuel limit : Nat) (order : NameOrder) (console : Console) (file : SourceFile)
    (p : Program) : Transcript × Nat :=
  let (result, i) := (Interpreter.new limit console).run fuel p
  let printed : Event := .out i.output
  match result with
  | .ok _ => ([printed], 0)
  | .error (.fault f) => ([printed, report file (f.diagnostic order)], 1)
  | .error .outOfFuel => ([printed, .err "Error: out of fuel\n"], 1)

def checkSummary (name : String) (count : Nat) : String :=
  s!"✓ {name} checks successfully" ++ (if count = 0 then "" else s!" ({count} warning(s))") ++ "\n"

def usage : String :=
  "Ember - a small dynamically scoped scripting language\n\n"
    ++ "Usage: ember <COMMAND>\n\n"
    ++ "Commands:\n"
    ++ "  run     Run an Ember source file\n"
    ++ "  check   Statically check an Ember source file\n"
    ++ "  parse   Parse and dump AST as JSON (debug)\n"
    ++ "  tokens  Tokenize and dump tokens (debug)\n"
    ++ "  repl    Start an interactive session\n"
    ++ "  help    Print this message or the help of the given subcommand(s)\n\n"
    ++ "Options:\n"
    ++ "  -h, --help     Print help\n"
    ++ "  -V, --version  Print version\n"

/-- What a command writes, and its exit code; what ends it early is written as an error. -/
def execute? (fuel : Nat) (orders : Nat → NameOrder)
    (read : String → Except FileError (List UInt8)) (console : Console) :
    Command → Except Transcript (Transcript × Nat)
  | .run name checked limit => do
    let file ← load read name
    let p ← program file
    let ws ← if checked then warnings file p else pure []
    let (written, code) := runProgram fuel limit (orders 0) console file p
    return (reportAll file ws ++ written, code)
  | .check name => do
    let file ← load read name
    let p ← program file
    let ws ← warnings file p
    return (reportAll file ws ++ [.out (checkSummary name ws.length)], 0)
  | .parse name => do
    let file ← load read name
    let p ← program file
    return ([.out (p.toJson.pretty 0 ++ "\n")], 0)
  | .tokens name => do
    let file ← load read name
    let tokens ← (tokenize file.text).mapError fun e => [report file e.diagnostic]
    return ([.out (String.join (tokens.map fun t => t.listing ++ "\n"))], 0)
  | .repl => return (Repl.dialogue fuel orders console, 0)
  | .version => return ([.out ("ember " ++ Scriptlet.version ++ "\n")], 0)
  | .help => return ([.out usage], 0)

/-- Follow a command line. -/
def execute (fuel : Nat) (read : String → Except FileError (List UInt8)) (console : Console)
    (args : List String) (orders : Nat → NameOrder := fun _ => .bound) : Transcript × Nat :=
  match ofArgs? args with
  | none => ([.err usage], 2)
  | some command =>
    match command.execute? fuel orders read console with
    | .ok result => result
    | .error written => (written, 1)

end Scriptlet.Command
