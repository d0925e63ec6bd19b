import Scriptlet.Value.Basic

/-!
Equality of values.

Numbers, texts and arrays are compared by what they hold, functions by identity. Arrays may contain
themselves: a pair of arrays that is met again while it is compared does not make them differ. A
pair is opened only inside other pairs, so the number of pairs of arrays bounds the recursion.
-/
namespace Scriptlet.Heap

variable (h : Heap)

/-- Whether two values are equal inside the pairs of arrays `opened`, which are being compared. -/
def equalNested : Nat → List (ArrayRef × ArrayRef) → Value → Value → Bool
  | _, _, .nil, .nil => true
  | _, _, .bool a, .bool b => a == b
  | _, _, .float x, .float y => x == y
  | _, _, .text r, .text s => (h.text r).toList == (h.text s).toList
  | _, _, .function f, .function g => f.id == g.id
  | _, _, .native m, .native n => m == n
  | fuel, opened, .array r, .array s =>
    if r = s ∨ (r, s) ∈ opened then true
    else
      match fuel with
      | 0 => true
      | fuel + 1 =>
        let xs := (h.items r).toList
        let ys := (h.items s).toList
        xs.length == ys.length
          && (xs.zip ys).all fun (x, y) => equalNested fuel ((r, s) :: opened) x y
  | _, _, _, _ => false

/-- Whether two values are equal. -/
def equal (v w : Value) : Bool :=
  equalNested h (h.arrays.size * h.arrays.size + 1) [] v w

end Scriptlet.Heap
