/-!
The nearest of a list of names.

`Text.editDistance` counts the insertions, deletions and substitutions of characters that turn one
word into another, row by row of the table of distances between their starts. `Text.suggest?` is the
first of the nearest candidates, if it is near enough for the length of the name.
-/
namespace Scriptlet.Text

/-- The rest of a row of distances: `left` is the cell just written, and the row above is given from
the cell above `left` on. -/
def rowFrom (c : Char) : Nat → List Char → List Nat → List Nat
  | left, d :: ds, corner :: above :: row =>
    let cell := min (corner + if c = d then 0 else 1) (min (above + 1) (left + 1))
    cell :: rowFrom c cell ds (above :: row)
  | _, _, _ => []

/-- The distances from a start one character longer to the starts of `word`. -/
def nextRow (word : List Char) (row : List Nat) (c : Char) : List Nat :=
  match row with
  | [] => []
  | first :: _ => (first + 1) :: rowFrom c (first + 1) word row

/-- The least number of single-character edits that turn `a` into `b`. -/
def editDistance (a b : List Char) : Nat :=
  (a.foldl (nextRow b) (List.range (b.length + 1))).getLastD 0

/-- How far a suggestion for a name of this length may be. -/
def suggestionLimit (length : Nat) : Nat :=
  if length ≤ 2 then 0 else if length ≤ 5 then 1 else 2

/-- Keep the best candidate so far unless the next one is nearer. -/
def nearer (best? : Option (Nat × String)) (next : Nat × String) : Option (Nat × String) :=
  match best? with
  | some best => if best.1 ≤ next.1 then some best else some next
  | none => some next

/-- The first of the nearest candidates other than the name itself, if one is within the limit. -/
def suggest? (name : String) (candidates : List String) : Option String :=
  let measured := (candidates.filter (· != name)).map fun candidate =>
    (editDistance name.toList candidate.toList, candidate)
  let near := measured.filter (·.1 ≤ suggestionLimit name.length)
  (near.foldl nearer none).map (·.2)

/-- The line that a suggestion adds to a message. -/
def hint : Option String → String
  | some name => s!"\n  hint: did you mean `{name}`?"
  | none => ""

end Scriptlet.Text
