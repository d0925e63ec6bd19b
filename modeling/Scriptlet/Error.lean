import Scriptlet.Span

/-!
Errors found before a program runs.

Whatever the stage that finds it, such an error is shown by the name of the stage, the place and the
message. Only a failure to read a file has no place in a source.
-/
namespace Scriptlet

/-- The stages that a source passes through before it runs. -/
inductive Stage where
  | lexer
  | parser
  | analysis
  deriving DecidableEq, Repr

def Stage.text : Stage → String
  | lexer => "Lexer"
  | parser => "Parser"
  | analysis => "Analysis"

inductive CompileError where
  | source (stage : Stage) (message : String) (span : Span)
  | file (message : String)
  deriving DecidableEq, Repr

namespace CompileError

def message : CompileError → String
  | source _ message _ => message
  | file message => message

def span? : CompileError → Option Span
  | source _ _ span => some span
  | file _ => none

/-- The error on one line. -/
def text : CompileError → String
  | source stage message span => stage.text ++ " error at " ++ span.text ++ ": " ++ message
  | file message => "IO error: " ++ message

end CompileError
end Scriptlet
