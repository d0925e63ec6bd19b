import Scriptlet.Command.Execution
import Std.Time.DateTime.Timestamp

/-!
The command line.

The standard input is read to its end before the command starts.
-/
namespace Scriptlet

/-- The bytes that are left in a stream. -/
partial def readAll (stream : IO.FS.Stream) (before : Array UInt8) : IO (List UInt8) := do
  let block ← stream.read 65536
  if block.isEmpty then return before.toList else readAll stream (before ++ block.data)

/-- The bytes of a file. -/
def readFile (name : String) : IO (Except FileError (List UInt8)) := do
  try
    return .ok (← IO.FS.readBinFile name).toList
  catch
    | .noFileOrDirectory .. => return .error .missing
    | .permissionDenied .. => return .error .denied
    | .inappropriateType _ code _ =>
      return .error (if code = 21 then .isDirectory else .notDirectory)
    | e => return .error (.other (toString e))

/-- Whether a command needs the standard input. -/
def Command.readsInput : Command → Bool
  | .run .. | .repl => true
  | _ => false

end Scriptlet

open Scriptlet in
def main (args : List String) : IO UInt32 := do
  let command? := Command.ofArgs? args
  let input ← match command? with
    | some c => if c.readsInput then readAll (← IO.getStdin) #[] else pure []
    | none => pure []
  let file ← match command? with
    | some (.run name _ _) | some (.check name) | some (.parse name) | some (.tokens name) =>
      readFile name
    | _ => pure (.error .missing)
  let now ← Std.Time.Timestamp.now
  let console := { Console.ofInput input with
    micros := (now.toNanosecondsSinceUnixEpoch.val / 1000).toNat }
  let (transcript, code) :=
    Command.execute Interpreter.ampleFuel (fun _ => file) console args
  let out ← IO.getStdout
  let err ← IO.getStderr
  for event in transcript do
    match event with
    | .out text => out.putStr text; out.flush
    | .err text => err.putStr text
  return code.toUInt32
