import Scriptlet.Interpreter

/-!
Commands, and how they are written on the command line.
-/
namespace Scriptlet

inductive Command where
  | run (file : String) (checked : Bool) (limit : Nat)
  | check (file : String)
  | parse (file : String)
  | tokens (file : String)
  | repl
  | version
  | help
  deriving DecidableEq, Repr

namespace Command

/-- The arguments of one command, as far as they have been read. -/
structure Arguments where
  file? : Option String
  unchecked : Bool
  limit? : Option Nat

/-- The commands that take arguments. -/
inductive Verb where
  | run | check | parse | tokens | repl | help
  deriving DecidableEq, Repr

def Verb.ofName? : String → Option Verb
  | "run" => some run
  | "check" => some check
  | "parse" => some parse
  | "tokens" => some tokens
  | "repl" => some repl
  | "help" => some help
  | _ => none

/-- A limit on the nesting of calls: digits, of which a plus may stand in front, for a number below
2⁶⁴. -/
def readLimit? (text : String) : Option Nat :=
  let digits := match text.toList with
    | '+' :: cs => cs
    | cs => cs
  if digits.isEmpty || !digits.all Char.isDigit then none
  else
    let n := digits.foldl (fun n c => 10 * n + (c.toNat - '0'.toNat)) 0
    if n < Number.pow2 64 then some n else none

/-- The command of a verb with its arguments. -/
def ofArguments? (verb : Verb) (a : Arguments) : Option Command :=
  match verb, a.file? with
  | .run, some file => some (run file (!a.unchecked) (a.limit?.getD Interpreter.defaultLimit))
  | .check, some file => some (check file)
  | .parse, some file => some (parse file)
  | .tokens, some file => some (tokens file)
  | .repl, none => some repl
  | _, _ => none

/-- An argument that is not an option. -/
def Arguments.addFile? (a : Arguments) (verb : Verb) (file : String) : Option Arguments :=
  if verb = .repl || file.isEmpty || a.file?.isSome then none
  else some { a with file? := some file }

def Arguments.addLimit? (a : Arguments) (text : String) : Option Arguments :=
  match a.limit?, readLimit? text with
  | none, some n => some { a with limit? := some n }
  | _, _ => none

/-- Read the arguments behind a verb. A call for help counts where it stands; two dashes make all
that follows files. -/
def readArguments? (verb : Verb) (a : Arguments) : List String → Option Command
  | [] => ofArguments? verb a
  | "--" :: files => do
    ofArguments? verb (← files.foldlM (fun a file => a.addFile? verb file) a)
  | "--help" :: _ => some help
  | "--no-check" :: rest =>
    if verb = .run && !a.unchecked then readArguments? verb { a with unchecked := true } rest
    else none
  | "--max-depth" :: text :: rest => do
    if verb = .run then readArguments? verb (← a.addLimit? text) rest else none
  | arg :: rest => do
    match arg.toList with
    | '-' :: 'h' :: _ => some help
    | '-' :: '-' :: 'm' :: 'a' :: 'x' :: '-' :: 'd' :: 'e' :: 'p' :: 't' :: 'h' :: '=' :: cs =>
      if verb = .run then readArguments? verb (← a.addLimit? (String.ofList cs)) rest else none
    | '-' :: _ :: _ => none
    | _ => readArguments? verb (← a.addFile? verb arg) rest

/-- The command that a command line stands for. -/
def ofArgs? : List String → Option Command
  | [] => none
  | arg :: rest =>
    match Verb.ofName? arg with
    | some .help =>
      match rest with
      | [] => some help
      | [topic] => (Verb.ofName? topic).map fun _ => help
      | _ => none
    | some verb => readArguments? verb ⟨none, false, none⟩ rest
    | none =>
      match arg.toList with
      | '-' :: 'V' :: _ => some version
      | '-' :: 'h' :: _ => some help
      | _ => if arg == "--version" then some version else if arg == "--help" then some help else none

end Command
end Scriptlet
