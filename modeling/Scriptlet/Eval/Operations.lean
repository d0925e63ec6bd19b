import Scriptlet.Eval.World

/-!
What operators and subscripts do with values.
-/
namespace Scriptlet.Run

/-! ### Operators -/

def compare : BinaryOp → Float → Float → Bool
  | .lt, x, y => x < y
  | .le, x, y => x ≤ y
  | .gt, x, y => x > y
  | .ge, x, y => x ≥ y
  | _, _, _ => false

/-- An operator between two numbers. -/
def arithmetic? : BinaryOp → Float → Float → Option Value
  | .add, x, y => some (.float (x + y))
  | .sub, x, y => some (.float (x - y))
  | .mul, x, y => some (.float (x * y))
  | .div, x, y => some (.float (x / y))
  | .mod, x, y => some (.float (Number.remainder x y))
  | .lt, x, y => some (.bool (x < y))
  | .le, x, y => some (.bool (x ≤ y))
  | .gt, x, y => some (.bool (x > y))
  | .ge, x, y => some (.bool (x ≥ y))
  | _, _, _ => none

/-- An operator between two values, both of which have been evaluated. -/
def binary (op : BinaryOp) (v w : Value) (span : Span) : Run Value := do
  match op, v, w with
  | .eq, _, _ => return .bool ((← heap).equal v w)
  | .ne, _, _ => return .bool (!(← heap).equal v w)
  | .add, .text r, .text s =>
    let h ← heap
    newText ((h.text r).append (h.text s).toList)
  | .add, .array r, .array s =>
    let h ← heap
    newArray ((h.items r).append (h.items s).toList)
  | op, .float x, .float y =>
    match arithmetic? op x y with
    | some v => return v
    | none => fault (.operands op .float .float) span
  | op, v, w => fault (.operands op v.kind w.kind) span

def unary (op : UnaryOp) (v : Value) (span : Span) : Run Value := do
  match op, v with
  | .not, v => return .bool !v.truthy
  | .neg, .float x => return .float (-x)
  | .pos, .float x => return .float x
  | .typeOf, v => newText (.ofList v.kind.name.toList)
  | .stringify, v => newText (.ofList ((← heap).render v).toList)
  | op, v => fault (.operand op v.kind) span

/-! ### Subscripts -/

/-- The position that a subscript names; negative infinity names the start. -/
def position (v : Value) (span : Span) : Run Nat :=
  match v.toIndex? with
  | some i => return i
  | none =>
    if v.toFloat? == some Number.negativeInfinity then return 0
    else fault (.notIndex v.describe) span

/-- The end of a slice; positive infinity names the end of the sequence. -/
def sliceStop (v : Value) (length : Nat) (span : Span) : Run Nat :=
  if v.toFloat? == some Number.infinity then return length else position v span

/-- The item at a position; of a text, a new text of one character. -/
def index (target i : Value) (span : Span) : Run Value := do
  match target with
  | .array r =>
    let i ← position i span
    let b := (← heap).items r
    match b.get? i with
    | some v => return v
    | none => fault (.index i b.size) span
  | .text r =>
    let i ← position i span
    let b := (← heap).text r
    match b.get? i with
    | some c => newText (.ofList [c])
    | none => fault (.index i b.size) span
  | v => fault (.notIndexable v.kind) span

/-- A copy of a part of a sequence. -/
def slice (target start stop : Value) (span : Span) : Run Value := do
  match target with
  | .array r =>
    let b := (← heap).items r
    let start ← position start span
    let stop ← sliceStop stop b.size span
    match b.slice? start stop with
    | some part => newArray part
    | none => fault (.slice start stop b.size) span
  | .text r =>
    let b := (← heap).text r
    let start ← position start span
    let stop ← sliceStop stop b.size span
    match b.slice? start stop with
    | some part => newText part
    | none => fault (.slice start stop b.size) span
  | v => fault (.notSliceable v.kind) span

/-- The character of a text of one character. -/
def character? (h : Heap) : Value → Option Char
  | .text r =>
    match (h.text r).toList with
    | [c] => some c
    | _ => none
  | _ => none

/-- Assign an element of the sequence that a name is bound to in one frame. -/
def assignElement (env : FrameId) (global : Bool) (x : String) (i v : Value) (span : Span) :
    Run Value := do
  let frame ← targetFrame env global x span
  match ((← scopes).find? frame x).map Binding.value with
  | none => unbound frame x span
  | some (.array r) =>
    let i ← position i span
    let length := ((← heap).items r).size
    if i < length then setItem r i v else fault (.index i length) span
    return v
  | some (.text r) =>
    let i ← position i span
    match character? (← heap) v with
    | none => fault (.notCharacter v.describe) span
    | some c =>
      let length := ((← heap).text r).size
      if i < length then setChar r i c else fault (.index i length) span
      return v
  | some w => fault (.noElements w.kind) span

/-! ### Range loops -/

/-- A bound of a range, which has to be a whole number. -/
def rangeBound (v : Value) (span : Span) : Run Float :=
  match v with
  | .float x => if Number.isWhole x then return x else fault (.rangeBound v.describe) span
  | v => fault (.rangeBound v.describe) span

/-- The step of a range with this comparison between these bounds. -/
def rangeStep (cmp : Located BinaryOp) (first last : Float) (span : Span) : Run Float :=
  match cmp.val with
  | .lt | .le => if first > last then fault (.rangeDirection true first last) span else return 1
  | .gt | .ge => if first < last then fault (.rangeDirection false first last) span else return -1
  | op => fault (.rangeComparison op) cmp.span

/-- The counter of a range loop, which has to stay a number of the active frame. -/
def rangeCounter (env : FrameId) (x : Located String) : Run Float := do
  match ((← scopes).find? env x.val).map Binding.value with
  | some (.float i) => return i
  | some v => fault (.rangeCounter x.val v.kind) x.span
  | none => unbound env x.val x.span

end Scriptlet.Run
