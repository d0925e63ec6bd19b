/-!
Transcripts: what a command writes, on which of its two outputs, in order.
-/
namespace Scriptlet

inductive Event where
  | out (text : String)
  | err (text : String)
  deriving DecidableEq, Repr

abbrev Transcript := List Event

namespace Transcript

/-- All that goes to the standard output. -/
def out (t : Transcript) : String :=
  String.join (t.filterMap fun
    | .out text => some text
    | .err _ => none)

/-- All that goes to the error output. -/
def err (t : Transcript) : String :=
  String.join (t.filterMap fun
    | .err text => some text
    | .out _ => none)

end Transcript
end Scriptlet
