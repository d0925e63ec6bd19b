import Scriptlet.Buffer
import Scriptlet.Command.Basic
import Scriptlet.Command.Execution
import Scriptlet.Command.Files
import Scriptlet.Console
import Scriptlet.Diagnostic
import Scriptlet.Error
import Scriptlet.Eval.Basic
import Scriptlet.Eval.Operations
import Scriptlet.Eval.World
import Scriptlet.Fault
import Scriptlet.Interpreter
import Scriptlet.Json.Basic
import Scriptlet.Json.Printer
import Scriptlet.Json.Reader
import Scriptlet.Main
import Scriptlet.NameOrder
import Scriptlet.Native.Basic
import Scriptlet.Native.Call
import Scriptlet.Number.Binary
import Scriptlet.Number.Decimal
import Scriptlet.Number.Layout
import Scriptlet.Number.Reading
import Scriptlet.Program.Basic
import Scriptlet.Program.Findings
import Scriptlet.Program.Listing
import Scriptlet.Program.Marking
import Scriptlet.Program.Parser
import Scriptlet.Program.Source
import Scriptlet.Proofs.Store
import Scriptlet.Repl
import Scriptlet.Scope
import Scriptlet.Session
import Scriptlet.Span
import Scriptlet.Text.Blank
import Scriptlet.Text.Hidden
import Scriptlet.Text.Quoted
import Scriptlet.Text.Similar
import Scriptlet.Text.Utf8
import Scriptlet.Token.Basic
import Scriptlet.Token.Lexer
import Scriptlet.Transcript
import Scriptlet.Value.Basic
import Scriptlet.Value.Equality
import Scriptlet.Value.Rendering
import Scriptlet.Proofs.Correspondence
import Scriptlet.Proofs.Natives
import Scriptlet.Proofs.Operations
import Scriptlet.Proofs.Alike
import Scriptlet.Proofs.Simulation
import Scriptlet.Proofs.Placement
import Scriptlet.Proofs.Grammar.Basic
import Scriptlet.Proofs.Grammar.Reading
import Scriptlet.Proofs.Grammar.Soundness
import Scriptlet.Proofs.Grammar.Completeness
import Scriptlet.Proofs.Equality
import Scriptlet.Proofs.Layout
import Scriptlet.Proofs.Scanning
import Scriptlet.Proofs.Resources
import Scriptlet.Proofs.Signals
import Scriptlet.Proofs.Joining
import Scriptlet.Proofs.Runs
import Scriptlet.Proofs.Independence
import Scriptlet.Proofs.Pruning
import Scriptlet.Proofs.Territory
import Scriptlet.Proofs.Keeping
import Scriptlet.Proofs.Confinement
import Scriptlet.Proofs.Constants
import Scriptlet.Proofs.Data
import Scriptlet.Proofs.Rounding
import Scriptlet.Proofs.Doubles
import Scriptlet.Proofs.Decimals
import Scriptlet.Proofs.Numerals
import Scriptlet.Proofs.Literals
import Scriptlet.Proofs.Reproduction
import Scriptlet.Proofs.Reachability
import Scriptlet.Proofs.Isolation
import Scriptlet.Proofs.Patterns
import Scriptlet.Proofs.Tiling
import Scriptlet.Proofs.Reset
import Scriptlet.Proofs.Limits
import Scriptlet.Proofs.Termination
import Scriptlet.Proofs.Grammar.Refusals
import Scriptlet.Proofs.Pointing
import Scriptlet.Proofs.Semicolon
import Scriptlet.Proofs.Origins
import Scriptlet.Proofs.BareExpressions
import Scriptlet.Proofs.JsonForm
import Scriptlet.Proofs.Reports
import Scriptlet.Proofs.Equivalence
import Scriptlet.Proofs.Snapshots
import Scriptlet.Proofs.Cycles
import Scriptlet.Proofs.WholeNumbers
import Scriptlet.Proofs.RangeLoops
import Scriptlet.Proofs.Atomicity
import Scriptlet.Proofs.Elements
import Scriptlet.Proofs.PartialEffects
import Scriptlet.Proofs.Search
import Scriptlet.Proofs.Subscripts
import Scriptlet.Proofs.Aliasing
import Scriptlet.Proofs.Rejections
import Scriptlet.Proofs.EditDistance
import Scriptlet.Proofs.Nesting
import Scriptlet.Proofs.Grammar.Viability
import Scriptlet.Proofs.Hints
import Scriptlet.Proofs.ScopeChains
import Scriptlet.Proofs.Positions
import Scriptlet.Proofs.CallDepth
