import Scriptlet.Fault
import Scriptlet.Program.Findings
import Scriptlet.Text.Blank

/-!
Diagnostics: errors, warnings and faults drawn under the line of the source that they are about.

The line is shown with its number in the margin. The characters of the label are underlined, and from
the middle of the line under them a branch leads to the message. A label that covers no character is
a single stroke, and one that goes on behind its first line is cut there. A label that lies outside
the source is left out, and so is the line.

Offsets are counted in characters.
-/
namespace Scriptlet

inductive Severity where
  | error
  | warning
  deriving DecidableEq, Repr

def Severity.text : Severity → String
  | error => "Error"
  | warning => "Warning"

structure Diagnostic where
  severity : Severity
  title : String
  /-- The place and the message. -/
  label? : Option (Span × String)

namespace Diagnostic

/-! ### Lines -/

/-- The characters that end a line. -/
def isLineEnd (c : Char) : Bool :=
  let n := c.toNat
  (0x0a ≤ n && n ≤ 0x0d) || n == 0x85 || n == 0x2028 || n == 0x2029

/-- The lines of a text, each with its end; `current` is what has been seen of the first one, from
its last character to its first. -/
def splitLines (current : List Char) : List Char → List (List Char)
  | [] => if current.isEmpty then [] else [current.reverse]
  | '\r' :: '\n' :: rest => ('\n' :: '\r' :: current).reverse :: splitLines [] rest
  | c :: rest =>
    if isLineEnd c then (c :: current).reverse :: splitLines [] rest
    else splitLines (c :: current) rest

/-- A line of a source. -/
structure Line where
  number : Nat
  start : Nat
  chars : List Char

/-- The last of these lines that does not start behind an offset. -/
def lineAt (offset : Nat) (line : Line) : List (List Char) → Line
  | [] => line
  | next :: rest =>
    let start := line.start + line.chars.length
    if start ≤ offset then lineAt offset ⟨line.number + 1, start, next⟩ rest else line

/-- The line of an offset in a text; an empty text has one line. -/
def findLine (source : List Char) (offset : Nat) : Line :=
  match splitLines [] source with
  | [] => ⟨1, 0, []⟩
  | first :: rest => lineAt offset ⟨1, 0, first⟩ rest

/-! ### Drawing -/

def repeated (n : Nat) (c : Char) : String :=
  String.ofList (List.replicate n c)

/-- A line with the label from column `start` up to `stop` under it. -/
def draw (file : String) (line : Line) (start stop : Nat) (message : String) : String :=
  let number := toString line.number
  let margin := number.length + 2
  let middle := start + (stop - start) / 2
  let gutter := repeated margin ' ' ++ "│"
  let underline :=
    if start < stop then
      repeated (middle - start) '─' ++ "┬" ++ repeated (stop - middle - 1) '─' ++ "  "
    else "│ "
  let text := String.ofList (Text.dropEndWhile Text.isBlank line.chars)
  String.join [
    repeated margin ' ', "╭─[ ", file, ":", number, ":", toString (start + 1), " ]\n",
    gutter, "\n",
    " ", number, " │ ", text, "\n",
    gutter, " ", repeated start ' ', underline, "\n",
    gutter, " ", repeated middle ' ', "╰", repeated (stop + 1 - middle) '─', " ", message, "\n",
    repeated margin '─', "╯\n"]

/-- The part of a diagnostic that shows its label, if that lies in the source. -/
def drawLabel (file : String) (source : List Char) (span : Span) (message : String) : String :=
  let final := max span.start (span.stop - 1)
  if final ≤ source.length then
    let line := findLine source span.start
    let stop :=
      if (findLine source final).number = line.number then span.stop
      else line.start + line.chars.length
    draw file line (span.start - line.start) (stop - line.start) message
  else ""

def render (d : Diagnostic) (file source : String) : String :=
  d.severity.text ++ ": " ++ d.title ++ "\n" ++
    match d.label? with
    | some (span, message) => drawLabel file source.toList span message
    | none => ""

end Diagnostic

def CompileError.diagnostic : CompileError → Diagnostic
  | .source stage message span => ⟨.error, stage.text ++ " error", some (span, message)⟩
  | .file message => ⟨.error, "IO error: " ++ message, none⟩

def Warning.diagnostic (w : Warning) : Diagnostic :=
  ⟨.warning, "warning[" ++ w.suspicion.kind ++ "]", some (w.span, w.suspicion.message)⟩

def Fault.diagnostic (f : Fault) (order : NameOrder := .bound) : Diagnostic :=
  ⟨.error, "runtime error", some (f.span, f.message order)⟩

end Scriptlet
