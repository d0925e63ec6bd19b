import Scriptlet.Proofs.Elements
import Scriptlet.Proofs.WholeNumbers

/-!
Elements and slices that are read out of texts and arrays.

A subscript is converted to a position first (`Value.subscript?`), and the end of a slice likewise
(`Value.sliceEnd?`), with the infinities as names of the start and of the end. What reading then
gives is said by what the sequence holds: an element exactly below the length (`index_ok_iff`), and
a slice exactly between bounds that are in order and in range (`slice_ok_iff`), as a new sequence.
Adjacent slices add up (`add_slices`).

Actions of this kind either answer or fault, and a fault changes nothing. `World.Answers` says both
at once, so that each action is analysed in one go.
-/
namespace Scriptlet

/-! ### Positions -/

namespace Value

/-- The position that a value names as a subscript; negative infinity names the start. -/
def subscript? (v : Value) : Option Nat :=
  v.toIndex?.or (if v.toFloat? == some Number.negativeInfinity then some 0 else none)

/-- The position that a value names as the end of a slice; positive infinity names the end of the
sequence. -/
def sliceEnd? (v : Value) (length : Nat) : Option Nat :=
  if v.toFloat? == some Number.infinity then some length else v.subscript?

theorem sliceEnd?_of_subscript? {v : Value} {k : Nat} (h : v.subscript? = some k) (n : Nat) :
    v.sliceEnd? n = some k := by
  cases v with
  | float x =>
    rw [sliceEnd?]
    split
    · rename_i hx
      have hp := Number.parts_of_beq_infinity hx
      have hindex : Number.toIndex? x = none := by rw [Number.toIndex?, Number.toInt?, hp]
      rw [subscript?, toIndex?, hindex, Option.none_or] at h
      split at h
      · rename_i hneg
        cases hp.symm.trans (Number.parts_of_beq_negativeInfinity hneg)
      · cases h
    · exact h
  | _ => exact h

end Value

/-! ### Parts of what a sequence holds -/

/-- Adjacent parts make up the part from the start of one to the end of the other. -/
theorem drop_take_append {α : Type} (xs : List α) {a b d : Nat} (hab : a ≤ b) (hbd : b ≤ d) :
    (xs.take b).drop a ++ (xs.take d).drop b = (xs.take d).drop a := by
  have htake : xs.take b = (xs.take d).take b := by
    rw [List.take_take, Nat.min_eq_left hbd]
  have hdrop : (xs.take d).drop b = ((xs.take d).drop a).drop (b - a) := by
    rw [List.drop_drop, Nat.add_sub_cancel' hab]
  rw [htake, hdrop, List.drop_take, List.take_append_drop]

/-- What is made of a part of a buffer is made of the elements between the two positions. -/
theorem Buffer.map_slice? {α β : Type} (f : List α → β) (b : Buffer α) (i j : Nat) :
    (b.slice? i j).map (fun part => f part.toList) =
      if i ≤ j ∧ j ≤ b.toList.length then some (f ((b.toList.take j).drop i)) else none := by
  have hpart := congrArg (Option.map f) (b.toList_slice? i j)
  rw [Option.map_map] at hpart
  rw [Buffer.length_toList]
  refine hpart.trans ?_
  split <;> rfl

namespace Contents

def length : Contents → Nat
  | chars cs => cs.length
  | items vs => vs.length

/-- The elements from a position up to and without another. -/
def slice : Contents → Nat → Nat → Contents
  | chars cs, a, b => chars ((cs.take b).drop a)
  | items vs, a, b => items ((vs.take b).drop a)

/-- The elements between two positions that are in order and in range. -/
def slice? (c : Contents) (a b : Nat) : Option Contents :=
  if a ≤ b ∧ b ≤ c.length then some (c.slice a b) else none

/-- The elements of two sequences of the same kind in a row. -/
def append? : Contents → Contents → Option Contents
  | chars cs, chars ds => some (chars (cs ++ ds))
  | items us, items vs => some (items (us ++ vs))
  | _, _ => none

theorem slice?_chars (b : Buffer Char) (i j : Nat) :
    (chars b.toList).slice? i j = (b.slice? i j).map fun part => chars part.toList :=
  (b.map_slice? chars i j).symm

theorem slice?_items (b : Buffer Value) (i j : Nat) :
    (items b.toList).slice? i j = (b.slice? i j).map fun part => items part.toList :=
  (b.map_slice? items i j).symm

variable {c : Contents} {k : Nat}

theorem get?_eq_none_iff : c.get? k = none ↔ c.length ≤ k := by
  cases c with
  | chars cs => simp [get?, length]
  | items vs => simp [get?, length]

theorem exists_get? (h : k < c.length) : ∃ el, c.get? k = some el := by
  refine Option.ne_none_iff_exists'.mp fun hnone => ?_
  exact absurd (get?_eq_none_iff.mp hnone) (Nat.not_le.mpr h)

/-- Adjacent slices make up the slice from the start of one to the end of the other. -/
theorem append?_slice {a b d : Nat} (hab : a ≤ b) (hbd : b ≤ d) :
    (c.slice a b).append? (c.slice b d) = some (c.slice a d) := by
  cases c with
  | chars cs => rw [slice, slice, append?, drop_take_append cs hab hbd, slice]
  | items vs => rw [slice, slice, append?, drop_take_append vs hab hbd, slice]

end Contents

/-! ### Actions that look, and how they are answered -/

namespace World

/-- The same world with another heap. -/
def withHeap (w : World) (heap : Heap) : World :=
  { w with host := { w.host with heap } }

/-- How an action on values ends: with a value and a heap that are as they should be for what there
is to be given, or, if there is nothing to be given, by a fault that changes nothing. -/
def Answers {γ : Type} (w : World) (r : EStateM.Result Stop World Value)
    (P : γ → Value → Heap → Prop) (given? : Option γ) : Prop :=
  match given? with
  | some x => ∃ y heap, r = .ok y (w.withHeap heap) ∧ P x y heap
  | none => ∃ e, r = .error e w

variable {γ : Type} {w : World} {r : EStateM.Result Stop World Value} {P : γ → Value → Heap → Prop}
  {given? : Option γ}

/-- There is an answer exactly if there is something to be given. -/
theorem Answers.ok_iff (h : w.Answers r P given?) :
    (∃ y w', r = .ok y w') ↔ ∃ x, given? = some x := by
  cases given? with
  | none =>
    obtain ⟨e, rfl⟩ := h
    constructor
    · rintro ⟨y, w', hok⟩
      cases hok
    · rintro ⟨x, hx⟩
      cases hx
  | some x =>
    obtain ⟨y, heap, rfl, -⟩ := h
    exact ⟨fun _ => ⟨x, rfl⟩, fun _ => ⟨y, _, rfl⟩⟩

theorem Answers.of_ok {y : Value} {w' : World} (h : w.Answers r P given?) (hok : r = .ok y w') :
    ∃ x heap, given? = some x ∧ w' = w.withHeap heap ∧ P x y heap := by
  cases given? with
  | none =>
    obtain ⟨e, he⟩ := h
    cases he.symm.trans hok
  | some x =>
    obtain ⟨z, heap, hz, hx⟩ := h
    cases hz.symm.trans hok
    exact ⟨x, heap, rfl, rfl, hx⟩

theorem Answers.eq_of_error {e : Stop} {w' : World} (h : w.Answers r P given?)
    (he : r = .error e w') : w' = w := by
  cases given? with
  | none =>
    obtain ⟨e', he'⟩ := h
    cases he'.symm.trans he
    rfl
  | some x =>
    obtain ⟨y, heap, hok, -⟩ := h
    cases hok.symm.trans he

end World

namespace Run

variable {α : Type}

/-- An action gives what is there to be seen, or ends with a fault, and changes nothing. -/
def Reads (act : Run α) (w : World) (seen? : Option α) : Prop :=
  match seen? with
  | some a => act w = .ok a w
  | none => ∃ e, act w = .error e w

variable {w : World}

/-- An action that answers after what it has seen. -/
theorem Reads.answers {γ : Type} {act : Run α} {seen? : Option α} {k : α → Run Value}
    {P : γ → Value → Heap → Prop} {given? : α → Option γ} (hread : act.Reads w seen?)
    (hk : ∀ a, w.Answers (k a w) P (given? a)) :
    w.Answers ((act >>= k) w) P (seen?.bind given?) := by
  show w.Answers (EStateM.bind act k w) P _
  cases seen? with
  | none =>
    obtain ⟨e, he⟩ := hread
    rw [EStateM.bind, he]
    exact ⟨e, rfl⟩
  | some a =>
    have ha : act w = .ok a w := hread
    rw [EStateM.bind, ha]
    exact hk a

variable {span : Span} {s i j : Value} {c : Contents} {n : Nat}

theorem heap_bind (k : Heap → Run α) : (heap >>= k) w = k w.host.heap w :=
  rfl

theorem position_reads : (position i span).Reads w i.subscript? := by
  rw [position, Value.subscript?]
  cases i.toIndex? with
  | some k => rfl
  | none =>
    rw [Option.none_or]
    dsimp only
    split
    · rfl
    · exact ⟨_, rfl⟩

theorem sliceStop_reads : (sliceStop j n span).Reads w (j.sliceEnd? n) := by
  rw [sliceStop, Value.sliceEnd?]
  split
  · rfl
  · exact position_reads

/-! ### Reading -/

/-- A subscript gives the element at the position that it names. -/
theorem index_answers (span : Span) (hc : w.host.heap.contents? s = some c) :
    w.Answers (index s i span w) (fun el => el.GivenAs w.host.heap)
      (i.subscript?.bind c.get?) := by
  cases s with
  | text r =>
    cases hc
    refine position_reads.answers fun k => ?_
    rw [heap_bind, Buffer.get?_eq_getElem?, Contents.get?]
    cases (w.host.heap.text r).toList[k]? with
    | none => exact ⟨_, rfl⟩
    | some ch => exact ⟨_, _, rfl, Heap.gains_newText (.ofList [ch])⟩
  | array r =>
    cases hc
    refine position_reads.answers fun k => ?_
    rw [heap_bind, Buffer.get?_eq_getElem?, Contents.get?]
    cases (w.host.heap.items r).toList[k]? with
    | none => exact ⟨_, rfl⟩
    | some v => exact ⟨_, _, rfl, rfl, rfl⟩
  | _ => cases hc

/-- A slice is a new sequence of the elements between two positions. -/
theorem slice_answers (span : Span) (hc : w.host.heap.contents? s = some c) :
    w.Answers (slice s i j span w) w.host.heap.Gains
      (i.subscript?.bind fun a => (j.sliceEnd? c.length).bind fun b => c.slice? a b) := by
  cases s with
  | text r =>
    cases hc
    rw [slice, heap_bind]
    refine position_reads.answers fun a => sliceStop_reads.answers fun b => ?_
    rw [Contents.slice?_chars]
    cases (w.host.heap.text r).slice? a b with
    | none => exact ⟨_, rfl⟩
    | some part => exact ⟨_, _, rfl, Heap.gains_newText part⟩
  | array r =>
    cases hc
    rw [slice, heap_bind]
    refine position_reads.answers fun a => sliceStop_reads.answers fun b => ?_
    rw [Contents.slice?_items]
    cases (w.host.heap.items r).slice? a b with
    | none => exact ⟨_, rfl⟩
    | some part => exact ⟨_, _, rfl, Heap.gains_newArray part⟩
  | _ => cases hc

/-- The sum of two texts or two arrays is a new one that holds what both hold. -/
theorem add_answers {t : Value} {d : Contents} (span : Span)
    (hc : w.host.heap.contents? s = some c) (hd : w.host.heap.contents? t = some d) :
    w.Answers (binary .add s t span w) w.host.heap.Gains (c.append? d) := by
  cases s with
  | text r =>
    cases hc
    cases t with
    | text q =>
      cases hd
      have hgains := Heap.gains_newText (h := w.host.heap)
        ((w.host.heap.text r).append (w.host.heap.text q).toList)
      rw [Buffer.toList_append] at hgains
      exact ⟨_, _, rfl, hgains⟩
    | array q =>
      cases hd
      exact ⟨_, rfl⟩
    | _ => cases hd
  | array r =>
    cases hc
    cases t with
    | array q =>
      cases hd
      have hgains := Heap.gains_newArray (h := w.host.heap)
        ((w.host.heap.items r).append (w.host.heap.items q).toList)
      rw [Buffer.toList_append] at hgains
      exact ⟨_, _, rfl, hgains⟩
    | text q =>
      cases hd
      exact ⟨_, rfl⟩
    | _ => cases hd
  | _ => cases hc

variable {a b k : Nat}

theorem index_eq_ok {el : Element} (span : Span) (hc : w.host.heap.contents? s = some c)
    (hi : i.subscript? = some k) (hel : c.get? k = some el) :
    ∃ y heap, index s i span w = .ok y (w.withHeap heap) ∧ el.GivenAs w.host.heap y heap := by
  have h := index_answers (i := i) span hc
  rw [hi, Option.bind_some, hel] at h
  exact h

theorem index_ok_iff (hc : w.host.heap.contents? s = some c) :
    (∃ y w', index s i span w = .ok y w') ↔ ∃ k, i.subscript? = some k ∧ k < c.length := by
  rw [(index_answers span hc).ok_iff]
  constructor
  · rintro ⟨el, hel⟩
    obtain ⟨k, hk, hget⟩ := Option.bind_eq_some_iff.mp hel
    refine ⟨k, hk, Nat.lt_of_not_le fun hle => ?_⟩
    cases hget.symm.trans (Contents.get?_eq_none_iff.mpr hle)
  · rintro ⟨k, hk, hlt⟩
    obtain ⟨el, hel⟩ := Contents.exists_get? hlt
    exact ⟨el, Option.bind_eq_some_iff.mpr ⟨k, hk, hel⟩⟩

theorem slice_eq_ok (span : Span) (hc : w.host.heap.contents? s = some c)
    (hi : i.subscript? = some a) (hj : j.sliceEnd? c.length = some b) (hab : a ≤ b)
    (hb : b ≤ c.length) :
    ∃ y heap, slice s i j span w = .ok y (w.withHeap heap) ∧
      w.host.heap.Gains (c.slice a b) y heap := by
  have h := slice_answers (i := i) (j := j) span hc
  rw [hi, Option.bind_some, hj, Option.bind_some, Contents.slice?, if_pos ⟨hab, hb⟩] at h
  exact h

theorem slice_ok_iff (hc : w.host.heap.contents? s = some c) :
    (∃ y w', slice s i j span w = .ok y w') ↔
      ∃ a b, i.subscript? = some a ∧ j.sliceEnd? c.length = some b ∧ a ≤ b ∧ b ≤ c.length := by
  constructor
  · intro h
    obtain ⟨part, hpart⟩ := (slice_answers span hc).ok_iff.mp h
    obtain ⟨a, ha, hrest⟩ := Option.bind_eq_some_iff.mp hpart
    obtain ⟨b, hb, hslice⟩ := Option.bind_eq_some_iff.mp hrest
    rw [Contents.slice?] at hslice
    split at hslice
    · rename_i hle
      exact ⟨a, b, ha, hb, hle⟩
    · cases hslice
  · rintro ⟨a, b, ha, hb, hab, hle⟩
    obtain ⟨y, heap, hok, -⟩ := slice_eq_ok span hc ha hb hab hle
    exact ⟨y, _, hok⟩

/-- The sum of adjacent slices. -/
theorem add_slices {l : Value} {d : Nat} (hs : w.host.heap.IsBuffer s)
    (hc : w.host.heap.contents? s = some c) (hi : i.subscript? = some a)
    (hj : j.subscript? = some b) (hl : l.sliceEnd? c.length = some d) (hab : a ≤ b) (hbd : b ≤ d)
    (hd : d ≤ c.length) :
    ∃ y heap, (do
        let left ← slice s i j span
        let right ← slice s j l span
        binary .add left right span) w = .ok y (w.withHeap heap) ∧
      heap.contents? y = some (c.slice a d) := by
  -- the second slice is taken where the first is there already, and the sum where both are
  obtain ⟨left, h₁, hleft, hgains₁⟩ := slice_eq_ok span hc hi
    (Value.sliceEnd?_of_subscript? hj c.length) hab (hbd.trans hd)
  have hc₁ : (w.withHeap h₁).host.heap.contents? s = some c := (hgains₁.others s hs).trans hc
  obtain ⟨right, h₂, hright, hgains₂⟩ := slice_eq_ok span hc₁ hj hl hbd hd
  have hheld : (w.withHeap h₂).host.heap.contents? left = some (c.slice a b) :=
    (hgains₂.others left hgains₁.there).trans hgains₁.holds
  have hsum := add_answers (w := w.withHeap h₂) span hheld hgains₂.holds
  rw [Contents.append?_slice hab hbd] at hsum
  obtain ⟨y, heap, hok, hgains⟩ := hsum
  refine ⟨y, heap, ?_, hgains.holds⟩
  show EStateM.bind _ _ w = _
  rw [EStateM.bind, hleft]
  show EStateM.bind _ _ (w.withHeap h₁) = _
  rw [EStateM.bind, hright]
  exact hok

end Run

namespace World

/-- A slice of a sequence or the sum of two, made in this world. -/
inductive Copies (w : World) (y : Value) : Prop
  | slice {t i j : Value} {span : Span} {w' : World} (h : Run.slice t i j span w = .ok y w')
  | sum {t u : Value} {c d : Contents} {span : Span} {w' : World}
    (ht : w.host.heap.contents? t = some c) (hu : w.host.heap.contents? u = some d)
    (h : Run.binary .add t u span w = .ok y w')

/-- What subscripts and slices of the sequence `s` give when it holds `c`. -/
structure ReadsSequence (w : World) (s : Value) (c : Contents) : Prop where
  /-- There is an element exactly at the positions below the length. -/
  index_iff : ∀ i span, (∃ y w', Run.index s i span w = .ok y w') ↔
    ∃ k, i.subscript? = some k ∧ k < c.length
  index_gives : ∀ i span k el, i.subscript? = some k → c.get? k = some el →
    ∃ y heap, Run.index s i span w = .ok y (w.withHeap heap) ∧ el.GivenAs w.host.heap y heap
  /-- There is a slice exactly between positions that are in order and in range. -/
  slice_iff : ∀ i j span, (∃ y w', Run.slice s i j span w = .ok y w') ↔
    ∃ a b, i.subscript? = some a ∧ j.sliceEnd? c.length = some b ∧ a ≤ b ∧ b ≤ c.length
  /-- It is a new sequence. -/
  slice_gives : ∀ i j span a b, i.subscript? = some a → j.sliceEnd? c.length = some b → a ≤ b →
    b ≤ c.length → ∃ y heap, Run.slice s i j span w = .ok y (w.withHeap heap) ∧
      w.host.heap.Gains (c.slice a b) y heap
  /-- Adjacent slices add up. -/
  slices_add : ∀ i j l span a b d, w.host.heap.IsBuffer s → i.subscript? = some a →
    j.subscript? = some b → l.sliceEnd? c.length = some d → a ≤ b → b ≤ d → d ≤ c.length →
    ∃ y heap, (do
        let left ← Run.slice s i j span
        let right ← Run.slice s j l span
        Run.binary .add left right span) w = .ok y (w.withHeap heap) ∧
      heap.contents? y = some (c.slice a d)

variable {w : World} {s y : Value} {c : Contents}

/-- A copy is not one of the texts and arrays that were there when it was made. -/
theorem Copies.new (h : w.Copies y) : ¬ w.host.heap.IsBuffer y := by
  cases h with
  | @slice t i j span w' h =>
    cases ht : w.host.heap.contents? t with
    | some c =>
      obtain ⟨_, _, -, -, hgains⟩ := (Run.slice_answers span ht).of_ok h
      exact hgains.new
    | none =>
      cases t with
      | text r => cases ht
      | array r => cases ht
      | _ => cases h
  | @sum t u c d span w' ht hu h =>
    obtain ⟨_, _, -, -, hgains⟩ := (Run.add_answers span ht hu).of_ok h
    exact hgains.new

theorem readsSequence (hc : w.host.heap.contents? s = some c) : w.ReadsSequence s c where
  index_iff _ _ := Run.index_ok_iff hc
  index_gives _ span _ _ hi hel := Run.index_eq_ok span hc hi hel
  slice_iff _ _ _ := Run.slice_ok_iff hc
  slice_gives _ _ span _ _ hi hj hab hb := Run.slice_eq_ok span hc hi hj hab hb
  slices_add _ _ _ _ _ _ _ hs hi hj hl hab hbd hd := Run.add_slices hs hc hi hj hl hab hbd hd

end World
end Scriptlet
