import Scriptlet.Error
import Scriptlet.Program.Parser
import Scriptlet.Token.Lexer

/-!
Programs read from source text.
-/
namespace Scriptlet

def LexError.toCompileError (e : LexError) : CompileError :=
  .source .lexer e.message e.span

def ParseError.toCompileError (e : ParseError) : CompileError :=
  .source .parser e.message e.span

/-- The tokens of a source. -/
def tokenize (source : String) : Except CompileError (List (Located Token)) :=
  (Token.scan source).mapError LexError.toCompileError

/-- The program that a source text stands for. -/
def Program.ofSource (source : String) : Except CompileError Program := do
  let tokens ← tokenize source
  (Program.ofTokens source.utf8ByteSize tokens).mapError ParseError.toCompileError

/-- Whether a source is a program with a property is found out by reading it. -/
instance Program.decidableOfSource (source : String) (P : Program → Prop) [DecidablePred P] :
    Decidable (∃ p, Program.ofSource source = .ok p ∧ P p) :=
  match Program.ofSource source with
  | .error _ => isFalse nofun
  | .ok p =>
    if h : P p then isTrue ⟨p, rfl, h⟩
    else isFalse fun ⟨_, hp, hq⟩ => h (Except.ok.inj hp ▸ hq)

end Scriptlet
