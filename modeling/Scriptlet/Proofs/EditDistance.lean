import Mathlib.Order.Bounds.Basic
import Mathlib.Order.MinMax
import Mathlib.Tactic.Common
import Scriptlet.Text.Similar

/-!
The distance between two words is the least number of edits.

An edit inserts, deletes or substitutes one character anywhere in a word (`Text.Edit`), and
`Text.Edits n a b` says that `n` edits in a row turn `a` into `b`. `Text.editDistance_isLeast` says
that the table of rows computes the least such number; that this is a metric on words follows from
the edits alone (`Text.editDistance_metric`).

The rows are related to the edits through the recurrence `Text.editCost`, which compares first
characters. The table grows at the end of both words, so its cell for two starts is the cost of the
starts read backwards: `Text.cells` is a row of such costs, and one step of the fold leads from the
row of a start to the row of the start with one more character (`Text.nextRow_cells`).

That the cost is least needs more than the recurrence. An edit in the middle of a word changes the
cost to any third word by one at most (`Text.Edit.editCost_le`), so `n` edits cannot bridge a cost
of more than `n`.
-/
namespace Scriptlet.Text

/-! ### Edits -/

/-- One character is inserted, deleted or substituted. -/
inductive Edit : List Char → List Char → Prop
  | insert (us : List Char) (c : Char) (vs : List Char) : Edit (us ++ vs) (us ++ c :: vs)
  | delete (us : List Char) (c : Char) (vs : List Char) : Edit (us ++ c :: vs) (us ++ vs)
  | substitute (us : List Char) (c d : Char) (vs : List Char) :
      Edit (us ++ c :: vs) (us ++ d :: vs)

/-- So many edits, one after the other, turn the first word into the second. -/
inductive Edits : Nat → List Char → List Char → Prop
  | none (a : List Char) : Edits 0 a a
  | next {n : Nat} {a b c : List Char} (first : Edit a b) (rest : Edits n b c) : Edits (n + 1) a c

variable {a b c : List Char} {m n : Nat}

theorem Edit.symm (h : Edit a b) : Edit b a := by
  cases h with
  | insert us c vs => exact .delete us c vs
  | delete us c vs => exact .insert us c vs
  | substitute us c d vs => exact .substitute us d c vs

theorem Edit.cons (h : Edit a b) (x : Char) : Edit (x :: a) (x :: b) := by
  cases h with
  | insert us c vs => exact .insert (x :: us) c vs
  | delete us c vs => exact .delete (x :: us) c vs
  | substitute us c d vs => exact .substitute (x :: us) c d vs

theorem Edit.reverse (h : Edit a b) : Edit a.reverse b.reverse := by
  cases h with
  | insert us c vs => simpa using Edit.insert vs.reverse c us.reverse
  | delete us c vs => simpa using Edit.delete vs.reverse c us.reverse
  | substitute us c d vs => simpa using Edit.substitute vs.reverse c d us.reverse

namespace Edits

theorem one (h : Edit a b) : Edits 1 a b :=
  .next h (.none b)

theorem trans (h : Edits m a b) (h' : Edits n b c) : Edits (m + n) a c := by
  induction h with
  | none a =>
    rw [Nat.zero_add]
    exact h'
  | @next m a b c first rest ih =>
    rw [Nat.add_right_comm]
    exact .next first (ih h')

theorem symm (h : Edits n a b) : Edits n b a := by
  induction h with
  | none a => exact .none a
  | next first rest ih => exact ih.trans (one first.symm)

theorem cons (h : Edits n a b) (x : Char) : Edits n (x :: a) (x :: b) := by
  induction h with
  | none a => exact .none (x :: a)
  | next first rest ih => exact .next (first.cons x) ih

theorem reverse (h : Edits n a b) : Edits n a.reverse b.reverse := by
  induction h with
  | none a => exact .none a.reverse
  | next first rest ih => exact .next first.reverse ih

theorem reverse_iff : Edits n a.reverse b.reverse ↔ Edits n a b := by
  refine ⟨fun h => ?_, reverse⟩
  simpa using h.reverse

theorem zero_iff : Edits 0 a b ↔ a = b := by
  constructor
  · intro h
    cases h
    rfl
  · rintro rfl
    exact .none a

end Edits

/-! ### The recurrence -/

/-- The cost of turning one word into another, by what happens to their first characters. -/
def editCost : List Char → List Char → Nat
  | [], b => b.length
  | a, [] => a.length
  | c :: a, d :: b =>
    min (editCost a b + if c = d then 0 else 1)
      (min (editCost a (d :: b) + 1) (editCost (c :: a) b + 1))
termination_by a b => a.length + b.length

@[simp] theorem editCost_nil_left (b : List Char) : editCost [] b = b.length := by
  rw [editCost]

@[simp] theorem editCost_nil_right (a : List Char) : editCost a [] = a.length := by
  cases a <;> simp [editCost]

theorem editCost_cons (x y : Char) (a b : List Char) :
    editCost (x :: a) (y :: b) = min (editCost a b + if x = y then 0 else 1)
      (min (editCost a (y :: b) + 1) (editCost (x :: a) b + 1)) := by
  rw [editCost]

theorem editCost_comm (a b : List Char) : editCost a b = editCost b a := by
  fun_induction editCost a b with
  | case1 b => rw [editCost_nil_right]
  | case2 a _ => rw [editCost_nil_left]
  | case3 x a y b keep drop add =>
    rw [editCost_cons, keep, drop, add, min_comm (editCost (y :: b) a + 1)]
    simp only [eq_comm]

/-- As many edits as the recurrence says are enough. -/
theorem edits_editCost (a b : List Char) : Edits (editCost a b) a b := by
  fun_induction editCost a b with
  | case1 b =>
    induction b with
    | nil => exact .none []
    | cons x b ih => exact .next (.insert [] x []) (ih.cons x)
  | case2 a _ =>
    clear * -
    induction a with
    | nil => exact .none []
    | cons x a ih => exact .next (.delete [] x a) ih
  | case3 x a y b keep drop add =>
    have hkeep : Edits (editCost a b + if x = y then 0 else 1) (x :: a) (y :: b) := by
      split
      · rename_i hxy
        rw [← hxy]
        exact keep.cons x
      · exact .next (.substitute [] x y a) (keep.cons y)
    have hdrop : Edits (editCost a (y :: b) + 1) (x :: a) (y :: b) := .next (.delete [] x a) drop
    have hadd : Edits (editCost (x :: a) b + 1) (x :: a) (y :: b) :=
      .next (.insert [] y (x :: a)) (add.cons y)
    -- the least of the three is one of them
    exact min_rec' (Edits · (x :: a) (y :: b)) hkeep
      (min_rec' (Edits · (x :: a) (y :: b)) hdrop hadd)

/-! ### An edit changes the cost by one at most -/

theorem editCost_self (a : List Char) : editCost a a = 0 := by
  induction a with
  | nil => simp
  | cons x a ih => simp [editCost_cons, ih]

theorem editCost_cons_left_le (x : Char) (a c : List Char) :
    editCost (x :: a) c ≤ editCost a c + 1 := by
  cases c with
  | nil => simp
  | cons z c =>
    rw [editCost_cons]
    omega

theorem editCost_cons_right_le (a : List Char) (z : Char) (c : List Char) :
    editCost a (z :: c) ≤ editCost a c + 1 := by
  rw [editCost_comm a, editCost_comm a]
  exact editCost_cons_left_le z c a

theorem editCost_le_cons_left (x : Char) (a c : List Char) :
    editCost a c ≤ editCost (x :: a) c + 1 := by
  induction c with
  | nil =>
    simp
    omega
  | cons z c ih =>
    have hadd := editCost_cons_right_le a z c
    rw [editCost_cons]
    omega

theorem editCost_substitute_le (x y : Char) (a c : List Char) :
    editCost (x :: a) c ≤ editCost (y :: a) c + 1 := by
  induction c with
  | nil => simp
  | cons z c ih =>
    rw [editCost_cons, editCost_cons]
    split <;> split <;> omega

/-- What holds behind a character that both words begin with holds in front of it. -/
theorem editCost_le_of_cons (x : Char) (h : ∀ c, editCost a c ≤ editCost b c + 1) (c : List Char) :
    editCost (x :: a) c ≤ editCost (x :: b) c + 1 := by
  induction c with
  | nil =>
    have := h []
    simp at this ⊢
    omega
  | cons z c ih =>
    have hkeep := h c
    have hdrop := h (z :: c)
    rw [editCost_cons, editCost_cons]
    omega

theorem Edit.editCost_le (h : Edit a b) (c : List Char) : editCost a c ≤ editCost b c + 1 := by
  cases h with
  | insert us x vs =>
    induction us generalizing c with
    | nil => exact editCost_le_cons_left x vs c
    | cons u us ih => exact editCost_le_of_cons u ih c
  | delete us x vs =>
    induction us generalizing c with
    | nil => exact editCost_cons_left_le x vs c
    | cons u us ih => exact editCost_le_of_cons u ih c
  | substitute us x y vs =>
    induction us generalizing c with
    | nil => exact editCost_substitute_le x y vs c
    | cons u us ih => exact editCost_le_of_cons u ih c

/-- Fewer edits than the recurrence says are not enough. -/
theorem Edits.editCost_le (h : Edits n a b) : editCost a b ≤ n := by
  -- for a fixed goal, every edit brings the word nearer to it by one at most
  have hle : ∀ c, editCost a c ≤ editCost b c + n := by
    intro c
    induction h with
    | none a => exact Nat.le_refl _
    | next first rest ih =>
      have hfirst := first.editCost_le c
      omega
  simpa [editCost_self] using hle b

theorem isLeast_editCost (a b : List Char) : IsLeast {n | Edits n a b} (editCost a b) :=
  ⟨edits_editCost a b, fun _ h => h.editCost_le⟩

/-! ### The table -/

/-- The costs of turning `s` into `p`, and into `p` with more and more characters in front of it. -/
def cells (s p : List Char) : List Char → List Nat
  | [] => [editCost s p]
  | d :: ds => editCost s p :: cells s (d :: p) ds

theorem cells_eq_cons (s p ds : List Char) :
    cells s p ds = editCost s p :: (cells s p ds).tail := by
  cases ds <;> rfl

theorem getLastD_cells (s p ds : List Char) (k : Nat) :
    (cells s p ds).getLastD k = editCost s (ds.reverse ++ p) := by
  induction ds generalizing p k with
  | nil => rfl
  | cons d ds ih =>
    rw [cells, List.getLastD_cons, ih]
    simp

/-- The row of the empty start counts up. -/
theorem cells_nil (p ds : List Char) : cells [] p ds = List.range' p.length (ds.length + 1) := by
  induction ds generalizing p with
  | nil => simp [cells]
  | cons d ds ih =>
    rw [cells, ih, List.length_cons, List.length_cons, List.range'_succ (n := ds.length + 1),
      editCost_nil_left]

/-- A cell is written from the one before it and the two above it. -/
theorem rowFrom_cells (x : Char) (s p ds : List Char) :
    rowFrom x (editCost (x :: s) p) ds (cells s p ds) = (cells (x :: s) p ds).tail := by
  induction ds generalizing p with
  | nil => rfl
  | cons d ds ih =>
    rw [cells, cells_eq_cons s (d :: p) ds, rowFrom, ← editCost_cons, ← cells_eq_cons, ih, cells,
      List.tail_cons, ← cells_eq_cons]

/-- One step of the fold: a row of costs becomes the row for a start with one more character. -/
theorem nextRow_cells (word s : List Char) (x : Char) :
    nextRow word (cells s [] word) x = cells (x :: s) [] word := by
  have hrow := rowFrom_cells x s [] word
  rw [cells_eq_cons s, nextRow, ← cells_eq_cons, cells_eq_cons (x :: s)]
  simp only [editCost_nil_right, List.length_cons] at hrow ⊢
  rw [hrow]

theorem foldl_nextRow (word a s : List Char) :
    a.foldl (nextRow word) (cells s [] word) = cells (a.reverse ++ s) [] word := by
  induction a generalizing s with
  | nil => rfl
  | cons x a ih =>
    rw [List.foldl_cons, nextRow_cells, ih]
    simp

/-- The last cell of the last row is the cost of the words read backwards. -/
theorem editDistance_eq (a b : List Char) : editDistance a b = editCost a.reverse b.reverse := by
  have hstart : List.range (b.length + 1) = cells [] [] b := by
    rw [cells_nil, List.length_nil, ← List.range_eq_range']
  rw [editDistance, hstart, foldl_nextRow, getLastD_cells]
  simp

theorem editDistance_isLeast (a b : List Char) : IsLeast {n | Edits n a b} (editDistance a b) := by
  rw [editDistance_eq]
  simpa only [Edits.reverse_iff] using isLeast_editCost a.reverse b.reverse

/-- **The distance between words is the least number of edits** that turn one into the other. It is
symmetric, zero between equal words only, and no way around is shorter. -/
theorem editDistance_metric :
    (∀ a b, IsLeast {n | Edits n a b} (editDistance a b)) ∧
    (∀ a b, editDistance a b = editDistance b a) ∧
    (∀ a b, editDistance a b = 0 ↔ a = b) ∧
    ∀ a b c, editDistance a c ≤ editDistance a b + editDistance b c := by
  have hreach : ∀ a b, Edits (editDistance a b) a b := fun a b => (editDistance_isLeast a b).1
  have hle : ∀ {n a b}, Edits n a b → editDistance a b ≤ n :=
    fun {n a b} h => (editDistance_isLeast a b).2 h
  refine ⟨editDistance_isLeast, fun a b => ?_, fun a b => ?_, fun a b c => ?_⟩
  · exact Nat.le_antisymm (hle (hreach b a).symm) (hle (hreach a b).symm)
  · rw [← Edits.zero_iff]
    constructor
    · intro h
      exact h ▸ hreach a b
    · intro h
      exact Nat.le_zero.mp (hle h)
  · exact hle ((hreach a b).trans (hreach b c))

end Scriptlet.Text
