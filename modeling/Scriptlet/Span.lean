/-!
Places in a source text.

A span is a range of byte offsets in the UTF-8 form of a text. `Span.position` is the line and the
column where it starts, both counted from one, the column in characters.
-/
namespace Scriptlet

/-- The bytes from `start` up to and without `stop`. -/
structure Span where
  start : Nat
  stop : Nat
  deriving DecidableEq, Repr, Inhabited

/-- A thing with its place in the source. -/
structure Located (α : Type) where
  val : α
  span : Span
  deriving Repr

namespace Span

/-- The least span that holds both. -/
def merge (a b : Span) : Span :=
  ⟨min a.start b.start, max a.stop b.stop⟩

/-- The span as `start..stop`. -/
def text (s : Span) : String :=
  s!"{s.start}..{s.stop}"

/-- The characters that lie within the first `n` bytes. -/
def charsBefore : Nat → List Char → List Char
  | _, [] => []
  | n, c :: cs => if c.utf8Size ≤ n then c :: charsBefore (n - c.utf8Size) cs else []

/-- The line and the column of a byte offset; an offset past the end counts as the end. -/
def lineColumn (source : List Char) (offset : Nat) : Nat × Nat :=
  let before := charsBefore offset source
  (before.count '\n' + 1, (before.reverse.takeWhile (· != '\n')).length + 1)

/-- The line and the column where a span starts. -/
def position (s : Span) (source : String) : Nat × Nat :=
  lineColumn source.toList s.start

end Span
end Scriptlet
