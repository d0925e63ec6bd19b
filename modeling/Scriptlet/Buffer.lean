/-!
Buffers: the growing sequences behind texts and arrays.

A buffer is seen through `Buffer.toList`, and each operation is described by what it does to that
list. An operation that needs a position takes any number and answers `none` where the position is
not in range.
-/
namespace Scriptlet

structure Buffer (α : Type) where
  items : Array α
  deriving DecidableEq, Repr

namespace Buffer

variable {α : Type}

def empty : Buffer α := ⟨#[]⟩

def ofList (xs : List α) : Buffer α := ⟨xs.toArray⟩

def toList (b : Buffer α) : List α := b.items.toList

def size (b : Buffer α) : Nat := b.items.size

def get? (b : Buffer α) (i : Nat) : Option α := b.items[i]?

/-- Replace the item at a position. -/
def set? (b : Buffer α) (i : Nat) (x : α) : Option (Buffer α) :=
  if h : i < b.items.size then some ⟨b.items.set i x h⟩ else none

/-- A copy of the items from `start` up to and without `stop`. -/
def slice? (b : Buffer α) (start stop : Nat) : Option (Buffer α) :=
  if start ≤ stop ∧ stop ≤ b.size then some ⟨b.items.extract start stop⟩ else none

def push (b : Buffer α) (x : α) : Buffer α := ⟨b.items.push x⟩

/-- The items of `b` followed by more. -/
def append (b : Buffer α) (xs : List α) : Buffer α := xs.foldl push b

/-- Insert items before the one at a position, or at the end. -/
def insert? (b : Buffer α) (i : Nat) (xs : List α) : Option (Buffer α) :=
  if i ≤ b.size then some (ofList (b.toList.take i ++ xs ++ b.toList.drop i)) else none

/-- Take out the item at a position. -/
def erase? (b : Buffer α) (i : Nat) : Option (α × Buffer α) :=
  (b.get? i).map fun x => (x, ofList (b.toList.eraseIdx i))

/-- Take out the items from `start` up to and without `stop`. -/
def eraseRange? (b : Buffer α) (start stop : Nat) : Option (Buffer α) :=
  if start ≤ stop ∧ stop ≤ b.size then
    some (ofList (b.toList.take start ++ b.toList.drop stop))
  else none

/-- The position of the first occurrence of `needle` in a list. -/
def firstMatch? [BEq α] (needle : List α) : List α → Option Nat
  | [] => if needle.isEmpty then some 0 else none
  | x :: xs =>
    if needle.isPrefixOf (x :: xs) then some 0 else (firstMatch? needle xs).map (· + 1)

/-- The number of occurrences of `needle` found in a list from left to right, each behind the one
before; the first `skip` items belong to the one before. -/
def countMatches [BEq α] (needle : List α) : Nat → List α → Nat
  | _, [] => 0
  | skip + 1, _ :: xs => countMatches needle skip xs
  | 0, x :: xs =>
    if needle.isPrefixOf (x :: xs) then countMatches needle (needle.length - 1) xs + 1
    else countMatches needle 0 xs

/-- The position of the first occurrence of `needle`; an empty one occurs at the start. -/
def find? [BEq α] (b : Buffer α) (needle : List α) : Option Nat :=
  firstMatch? needle b.toList

/-- The number of occurrences of `needle` that do not overlap, found from left to right; none for an
empty one. -/
def count [BEq α] (b : Buffer α) (needle : List α) : Nat :=
  if needle.isEmpty then 0 else countMatches needle 0 b.toList

instance : Inhabited (Buffer α) := ⟨empty⟩

/-! ### The operations through `toList` -/

@[simp] theorem toList_empty : (empty : Buffer α).toList = [] := rfl

@[simp] theorem toList_ofList (xs : List α) : (ofList xs).toList = xs := rfl

@[simp] theorem length_toList (b : Buffer α) : b.toList.length = b.size := rfl

theorem get?_eq_getElem? (b : Buffer α) (i : Nat) : b.get? i = b.toList[i]? := by
  simp [get?, toList]

theorem toList_set? (b : Buffer α) (i : Nat) (x : α) :
    (b.set? i x).map toList = if i < b.size then some (b.toList.set i x) else none := by
  by_cases h : i < b.items.size <;> simp [set?, toList, size, h]

theorem toList_slice? (b : Buffer α) (start stop : Nat) :
    (b.slice? start stop).map toList =
      if start ≤ stop ∧ stop ≤ b.size then some ((b.toList.take stop).drop start) else none := by
  by_cases h : start ≤ stop ∧ stop ≤ b.items.size
  · simp [slice?, toList, size, h, List.drop_take]
  · simp [slice?, size, h]

@[simp] theorem toList_push (b : Buffer α) (x : α) : (b.push x).toList = b.toList ++ [x] := by
  simp [push, toList]

@[simp] theorem toList_append (b : Buffer α) (xs : List α) :
    (b.append xs).toList = b.toList ++ xs := by
  induction xs generalizing b with
  | nil => exact (List.append_nil _).symm
  | cons x xs ih =>
    calc (b.append (x :: xs)).toList = ((b.push x).append xs).toList := rfl
      _ = b.toList ++ [x] ++ xs := by rw [ih, toList_push]
      _ = b.toList ++ x :: xs := by rw [List.append_assoc, List.singleton_append]

theorem toList_insert? (b : Buffer α) (i : Nat) (xs : List α) :
    (b.insert? i xs).map toList =
      if i ≤ b.size then some (b.toList.take i ++ xs ++ b.toList.drop i) else none := by
  by_cases h : i ≤ b.size <;> simp [insert?, h]

theorem toList_eraseRange? (b : Buffer α) (start stop : Nat) :
    (b.eraseRange? start stop).map toList =
      if start ≤ stop ∧ stop ≤ b.size then some (b.toList.take start ++ b.toList.drop stop)
      else none := by
  by_cases h : start ≤ stop ∧ stop ≤ b.size <;> simp [eraseRange?, h]

end Buffer
end Scriptlet
