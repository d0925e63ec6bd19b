import Scriptlet.Scope

/-!
The heap and the frames after each operation.

What can be observed of a heap is the text and the items behind each reference, and of the frames
the bindings of each number and the frames around it. The frames around a frame are found by going up
from link to link (`Scopes.chain`), and all that goes up goes through that list: `Scopes.global_eq`,
`Scopes.lookup?_eq`, `Scopes.visibleNames_eq`. Every operation is described here by these views:

* `Heap.items_newArray`, `Heap.items_modifyArray`: an operation on one array leaves the others as
  they are, and so do `Heap.text_newText` and `Heap.text_modifyText` for texts;
* `Scopes.bindings_add`, `Scopes.bindings_remove`: binding and forgetting a name touch one frame, and
  in it one name (`Scopes.find?_add`, `Scopes.find?_remove`);
* `Scopes.shape`: which frames there are and what is around them. It changes only when a call opens
  its frame (`Scopes.shape_child`) and closes it (`Scopes.shape_leave`).
-/
namespace Scriptlet

namespace Heap

theorem items_newArray (h : Heap) (b : Buffer Value) (r : ArrayRef) :
    (h.newArray b).2.items r = if r.index = h.arrays.size then b else h.items r := by
  simp only [newArray, items, Array.getD_eq_getD_getElem?, Array.getElem?_push]
  by_cases hr : r.index = h.arrays.size
  · rw [if_pos hr, if_pos hr]
    rfl
  · rw [if_neg hr, if_neg hr]

theorem items_modifyArray (h : Heap) (r s : ArrayRef) (f : Buffer Value → Buffer Value) :
    (h.modifyArray r f).items s =
      if r = s ∧ s.index < h.arrays.size then f (h.items s) else h.items s := by
  simp only [modifyArray, items, Array.getD_eq_getD_getElem?, Array.getElem?_modify]
  by_cases hr : r = s
  · subst hr
    by_cases hs : r.index < h.arrays.size
    · simp [hs]
    · simp [hs]
  · have hi : r.index ≠ s.index := by
      intro hi
      apply hr
      cases r
      cases s
      simp only at hi
      rw [hi]
    simp [hr, hi]

theorem text_newText (h : Heap) (b : Buffer Char) (r : TextRef) :
    (h.newText b).2.text r = if r.index = h.texts.size then b else h.text r := by
  simp only [newText, text, Array.getD_eq_getD_getElem?, Array.getElem?_push]
  by_cases hr : r.index = h.texts.size
  · rw [if_pos hr, if_pos hr]
    rfl
  · rw [if_neg hr, if_neg hr]

theorem text_modifyText (h : Heap) (r s : TextRef) (f : Buffer Char → Buffer Char) :
    (h.modifyText r f).text s =
      if r = s ∧ s.index < h.texts.size then f (h.text s) else h.text s := by
  simp only [modifyText, text, Array.getD_eq_getD_getElem?, Array.getElem?_modify]
  by_cases hr : r = s
  · subst hr
    by_cases hs : r.index < h.texts.size
    · simp [hs]
    · simp [hs]
  · have hi : r.index ≠ s.index := by
      intro hi
      apply hr
      cases r
      cases s
      simp only at hi
      rw [hi]
    simp [hr, hi]

/-- There is nothing behind a reference that has not been given yet. -/
theorem items_of_le (h : Heap) {r : ArrayRef} (hr : h.arrays.size ≤ r.index) :
    h.items r = .empty := by
  simp [items, Array.getD_eq_getD_getElem?, hr]

@[simp] theorem size_newText (h : Heap) (b : Buffer Char) :
    (h.newText b).2.texts.size = h.texts.size + 1 := by
  simp [newText]

@[simp] theorem size_modifyText (h : Heap) (r : TextRef) (f : Buffer Char → Buffer Char) :
    (h.modifyText r f).texts.size = h.texts.size := by
  simp [modifyText]

@[simp] theorem size_newArray (h : Heap) (b : Buffer Value) :
    (h.newArray b).2.arrays.size = h.arrays.size + 1 := by
  simp [newArray]

@[simp] theorem size_modifyArray (h : Heap) (r : ArrayRef) (f : Buffer Value → Buffer Value) :
    (h.modifyArray r f).arrays.size = h.arrays.size := by
  simp [modifyArray]

end Heap

namespace Scopes

/-! ### Going up -/

/-- A frame and the frames around it, from the inside out. -/
def chain (s : Scopes) (f : FrameId) : List FrameId :=
  f :: match _ : s.parent? f with
    | some p => s.chain p
    | none => []
termination_by f
decreasing_by exact parent?_lt ‹_›

theorem parent?_of_le {s : Scopes} {f : FrameId} (hf : s.frames.size ≤ f) : s.parent? f = none := by
  simp [parent?, frame, Array.getD_eq_getD_getElem?, hf]

theorem chain_of_some {s : Scopes} {f p : FrameId} (h : s.parent? f = some p) :
    s.chain f = f :: s.chain p := by
  rw [chain]
  split
  · rename_i q hq
    rw [Option.some.inj (hq.symm.trans h)]
  · rename_i hq
    cases hq.symm.trans h

theorem chain_of_none {s : Scopes} {f : FrameId} (h : s.parent? f = none) : s.chain f = [f] := by
  rw [chain]
  split
  · rename_i q hq
    cases hq.symm.trans h
  · rfl

theorem global_of_some {s : Scopes} {f p : FrameId} (h : s.parent? f = some p) :
    s.global f = s.global p := by
  rw [global]
  split
  · rename_i q hq
    rw [Option.some.inj (hq.symm.trans h)]
  · rename_i hq
    cases hq.symm.trans h

theorem global_of_none {s : Scopes} {f : FrameId} (h : s.parent? f = none) : s.global f = f := by
  rw [global]
  split
  · rename_i q hq
    cases hq.symm.trans h
  · rfl

theorem lookup?_of_some {s : Scopes} {f : FrameId} {x : String} {b : Binding}
    (h : s.find? f x = some b) : s.lookup? f x = some b := by
  rw [lookup?, h]

theorem lookup?_of_none {s : Scopes} {f : FrameId} {x : String} (h : s.find? f x = none) :
    s.lookup? f x = (s.parent? f).bind (s.lookup? · x) := by
  rw [lookup?, h]
  dsimp only
  split
  · rename_i p hp
    rw [hp, Option.bind_some]
  · rename_i hp
    rw [hp, Option.bind_none]

theorem visibleNames_eq_cons (s : Scopes) (f : FrameId) :
    s.visibleNames f = s.names f :: ((s.parent? f).map s.visibleNames).getD [] := by
  rw [visibleNames]
  split
  · rename_i p hp
    rw [hp, Option.map_some, Option.getD_some]
  · rename_i hp
    rw [hp, Option.map_none, Option.getD_none]

/-- What holds of a frame if it holds of the one around it holds of all. -/
theorem ascend {s : Scopes} {motive : FrameId → Prop}
    (step : ∀ f, (∀ p, s.parent? f = some p → motive p) → motive f) (f : FrameId) : motive f := by
  induction f using Nat.strongRecOn with
  | ind f ih => exact step f fun p hp => ih p (parent?_lt hp)

/-- The walk depends on the links only. -/
theorem chain_congr {s t : Scopes} {f : FrameId} (h : ∀ g, g ≤ f → s.parent? g = t.parent? g) :
    s.chain f = t.chain f := by
  induction f using Nat.strongRecOn with
  | ind f ih =>
    have hf := h f (Nat.le_refl f)
    cases hp : s.parent? f with
    | none => rw [chain_of_none hp, chain_of_none (hf.symm.trans hp)]
    | some p =>
      have hlt := parent?_lt hp
      rw [chain_of_some hp, chain_of_some (hf.symm.trans hp),
        ih p hlt fun g hg => h g (Nat.le_trans hg (Nat.le_of_lt hlt))]

/-- The frames around a frame. -/
def outer (s : Scopes) (f : FrameId) : List FrameId :=
  (s.chain f).tail

theorem chain_eq_cons (s : Scopes) (f : FrameId) : s.chain f = f :: s.outer f := by
  cases hp : s.parent? f with
  | none => rw [outer, chain_of_none hp, List.tail_cons]
  | some p => rw [outer, chain_of_some hp, List.tail_cons]

theorem outer_of_some {s : Scopes} {f p : FrameId} (h : s.parent? f = some p) :
    s.outer f = p :: s.outer p := by
  rw [outer, chain_of_some h, List.tail_cons, chain_eq_cons]

theorem outer_of_none {s : Scopes} {f : FrameId} (h : s.parent? f = none) : s.outer f = [] := by
  rw [outer, chain_of_none h, List.tail_cons]

theorem mem_chain_self (s : Scopes) (f : FrameId) : f ∈ s.chain f := by
  rw [chain_eq_cons]
  exact List.mem_cons_self

/-- What is around a frame of a chain is in the chain. -/
theorem mem_chain_of_outer {s : Scopes} {env f g : FrameId} (hf : f ∈ s.chain env)
    (hg : g ∈ s.outer f) : g ∈ s.chain env := by
  induction env using s.ascend with
  | step env ih =>
    rw [chain_eq_cons] at hf ⊢
    rcases List.mem_cons.mp hf with rfl | hf
    · exact List.mem_cons_of_mem f hg
    · cases hp : s.parent? env with
      | none =>
        rw [outer_of_none hp] at hf
        cases hf
      | some p =>
        rw [outer_of_some hp, ← chain_eq_cons] at hf ⊢
        exact List.mem_cons_of_mem env (ih p hp hf)

theorem parent?_eq_head? (s : Scopes) (f : FrameId) : s.parent? f = (s.outer f).head? := by
  cases hp : s.parent? f with
  | none => rw [outer_of_none hp, List.head?_nil]
  | some p => rw [outer_of_some hp, List.head?_cons]

theorem global_eq (s : Scopes) (f : FrameId) : s.global f = (s.outer f).getLastD f := by
  induction f using s.ascend with
  | step f ih =>
    cases hp : s.parent? f with
    | none => rw [global_of_none hp, outer_of_none hp, List.getLastD_nil]
    | some p => rw [global_of_some hp, outer_of_some hp, List.getLastD_cons, ih p hp]

/-- Reading a name goes through the chain. -/
theorem lookup?_eq (s : Scopes) (f : FrameId) (x : String) :
    s.lookup? f x = (s.chain f).findSome? (s.find? · x) := by
  induction f using s.ascend with
  | step f ih =>
    rw [chain_eq_cons, List.findSome?_cons]
    cases hx : s.find? f x with
    | some b => rw [lookup?_of_some hx]
    | none =>
      rw [lookup?_of_none hx]
      cases hp : s.parent? f with
      | none => rw [outer_of_none hp, Option.bind_none, List.findSome?_nil]
      | some p => rw [Option.bind_some, ih p hp, outer_of_some hp, chain_eq_cons]

theorem visibleNames_eq (s : Scopes) (f : FrameId) : s.visibleNames f = (s.chain f).map s.names := by
  induction f using s.ascend with
  | step f ih =>
    rw [chain_eq_cons, List.map_cons, visibleNames_eq_cons]
    cases hp : s.parent? f with
    | none => rw [outer_of_none hp, Option.map_none, Option.getD_none, List.map_nil]
    | some p => rw [outer_of_some hp, Option.map_some, Option.getD_some, ih p hp, chain_eq_cons]

/-! ### Shapes -/

/-- The frames around each frame, by number. -/
def shape (s : Scopes) : List (List FrameId) :=
  (List.range s.frames.size).map s.outer

/-- The bindings of a frame. -/
def bindings (s : Scopes) (f : FrameId) : List (String × Binding) :=
  (s.frame f).bindings

theorem length_shape (s : Scopes) : s.shape.length = s.frames.size := by
  simp [shape]

theorem outer_eq (s : Scopes) (f : FrameId) : s.outer f = s.shape.getD f [] := by
  rw [shape, List.getD_eq_getElem?_getD, List.getElem?_map]
  by_cases hf : f < s.frames.size
  · rw [List.getElem?_range hf, Option.map_some, Option.getD_some]
  · rw [List.getElem?_eq_none (by simpa using hf), Option.map_none, Option.getD_none,
      outer_of_none (parent?_of_le (Nat.le_of_not_lt hf))]

/-- The chain of a frame is a matter of shape. -/
theorem chain_eq (s : Scopes) (f : FrameId) : s.chain f = f :: s.shape.getD f [] := by
  rw [chain_eq_cons, outer_eq]

/-- So is whether a frame is the global one. -/
theorem isGlobal_eq (s : Scopes) (f : FrameId) : s.isGlobal f = (s.shape.getD f []).isEmpty := by
  rw [isGlobal, parent?_eq_head?, ← outer_eq]
  cases s.outer f with
  | nil => rfl
  | cons => rfl

theorem outer_congr {s t : Scopes} {f : FrameId} (h : ∀ g, g ≤ f → s.parent? g = t.parent? g) :
    s.outer f = t.outer f :=
  congrArg List.tail (chain_congr h)

/-- Equal links make equal shapes. -/
theorem shape_congr {s t : Scopes} (hsize : s.frames.size = t.frames.size)
    (h : ∀ g, s.parent? g = t.parent? g) : s.shape = t.shape := by
  rw [shape, shape, hsize]
  exact List.map_congr_left fun f _ => outer_congr fun g _ => h g

theorem frame_modify (s : Scopes) {φ : Frame → Frame} (h : ∀ a, (φ a).parent? = a.parent?)
    (f g : FrameId) :
    (s.modify f φ h).frame g =
      if f = g ∧ g < s.frames.size then φ (s.frame g) else s.frame g := by
  simp only [modify, frame, Array.getD_eq_getD_getElem?, Array.getElem?_modify]
  by_cases hf : f = g
  · subst hf
    by_cases hg : f < s.frames.size
    · simp [hg]
    · simp [hg]
  · simp [hf]

theorem shape_modify (s : Scopes) {φ : Frame → Frame} (h : ∀ a, (φ a).parent? = a.parent?)
    (f : FrameId) : (s.modify f φ h).shape = s.shape := by
  refine shape_congr Array.size_modify fun g => ?_
  rw [parent?, frame_modify s h, parent?]
  split
  · rw [h]
  · rfl

@[simp] theorem shape_add (s : Scopes) (f : FrameId) (x : String) (b : Binding) :
    (s.add f x b).shape = s.shape :=
  shape_modify s (Frame.parent?_add · x b) f

@[simp] theorem shape_replace (s : Scopes) (f : FrameId) (x : String) (b : Binding) :
    (s.replace f x b).shape = s.shape :=
  shape_modify s (Frame.parent?_replace · x b) f

@[simp] theorem shape_remove (s : Scopes) (f : FrameId) (x : String) :
    (s.remove f x).shape = s.shape :=
  shape_modify s (Frame.parent?_remove · x) f

theorem parent?_child (s : Scopes) (f g : FrameId) :
    (s.child f).2.parent? g = if g = s.frames.size then s.link? f else s.parent? g := by
  simp only [child, parent?, frame, Array.getD_eq_getD_getElem?, Array.getElem?_push]
  split
  · rfl
  · rfl

theorem leave_eq {s : Scopes} (h : 1 < s.frames.size) :
    s.leave = ⟨s.frames.pop, size_pop_pos h, s.ordered.pop⟩ := by
  rw [leave, dif_pos h]

theorem parent?_leave {s : Scopes} (h : 1 < s.frames.size) (g : FrameId) :
    s.leave.parent? g = if g < s.frames.size - 1 then s.parent? g else none := by
  simp only [leave_eq h, parent?, frame, Array.getD_eq_getD_getElem?, Array.getElem?_pop]
  split
  · rfl
  · rfl

/-- The frames around a new frame: the frame that it is put into, if that is there, and those around
it. -/
def around (shape : List (List FrameId)) (f : FrameId) : List FrameId :=
  if f < shape.length then f :: shape.getD f [] else []

theorem mem_around {shape : List (List FrameId)} {f g : FrameId} (h : g ∈ around shape f) :
    g = f ∨ g ∈ shape.getD f [] := by
  unfold around at h
  split at h
  · exact List.mem_cons.mp h
  · cases h

/-- The frames that are there keep their chains. -/
theorem outer_child_of_lt {s : Scopes} {g : FrameId} (hg : g < s.frames.size) (f : FrameId) :
    (s.child f).2.outer g = s.outer g := by
  refine outer_congr fun k hk => ?_
  rw [parent?_child, if_neg (Nat.ne_of_lt (Nat.lt_of_le_of_lt hk hg))]

theorem outer_child_self (s : Scopes) (f : FrameId) :
    (s.child f).2.outer s.frames.size = around s.shape f := by
  have hparent : (s.child f).2.parent? s.frames.size = s.link? f := by rw [parent?_child, if_pos rfl]
  rw [around, length_shape]
  by_cases hf : f < s.frames.size
  · rw [link?, if_pos hf] at hparent
    rw [outer_of_some hparent, if_pos hf, outer_child_of_lt hf, outer_eq]
  · rw [link?, if_neg hf] at hparent
    rw [outer_of_none hparent, if_neg hf]

theorem shape_child (s : Scopes) (f : FrameId) :
    (s.child f).2.shape = s.shape ++ [around s.shape f] := by
  have hsize : (s.child f).2.frames.size = s.frames.size + 1 := by simp [child]
  rw [shape, hsize, List.range_succ, List.map_append, List.map_singleton, outer_child_self]
  refine congrArg (· ++ _) (List.map_congr_left fun g hg => ?_)
  exact outer_child_of_lt (List.mem_range.mp hg) f

theorem shape_leave {s : Scopes} (h : 1 < s.frames.size) : s.leave.shape = s.shape.dropLast := by
  have hsize : s.leave.frames.size = s.frames.size - 1 := by simp [leave_eq h]
  have hrange : (List.range s.frames.size).dropLast = List.range (s.frames.size - 1) := by
    cases s.frames.size with
    | zero => rfl
    | succ n => rw [List.range_succ, List.dropLast_concat, Nat.add_sub_cancel]
  rw [shape, hsize, shape, ← List.map_dropLast, hrange]
  refine List.map_congr_left fun g hg => outer_congr fun k hk => ?_
  rw [parent?_leave h, if_pos (Nat.lt_of_le_of_lt hk (List.mem_range.mp hg))]

/-- Inside a frame there is one that can be left. -/
theorem one_lt_size_of_shape {s : Scopes} {shape : List (List FrameId)} {outer : List FrameId}
    (hshape : 0 < shape.length) (h : s.shape = shape ++ [outer]) : 1 < s.frames.size := by
  rw [← length_shape, h, List.length_append, List.length_singleton]
  exact Nat.succ_lt_succ hshape

theorem shape_start (bindings : List (String × Binding)) : (start bindings).shape = [[]] := by
  have hglobal : (start bindings).outer 0 = [] := outer_of_none rfl
  show [(start bindings).outer 0] = [[]]
  rw [hglobal]

/-! ### Bindings -/

theorem bindings_add (s : Scopes) (f g : FrameId) (x : String) (b : Binding) :
    (s.add f x b).bindings g =
      if f = g ∧ g < s.shape.length then Frame.add.go x b (s.bindings g) else s.bindings g := by
  rw [bindings, add, frame_modify s (Frame.parent?_add · x b), length_shape]
  split
  · rfl
  · rfl

theorem bindings_remove (s : Scopes) (f g : FrameId) (x : String) :
    (s.remove f x).bindings g =
      if f = g ∧ g < s.shape.length then (s.bindings g).filter (·.1 != x) else s.bindings g := by
  rw [bindings, remove, frame_modify s (Frame.parent?_remove · x), length_shape]
  split
  · rfl
  · rfl

/-- A name is bound anew only where it is bound. -/
theorem bindings_replace (s : Scopes) (f g : FrameId) (x : String) (b : Binding) :
    (s.replace f x b).bindings g =
      if f = g ∧ g < s.shape.length ∧ (s.find? g x).isSome then
        Frame.add.go x b (s.bindings g)
      else s.bindings g := by
  rw [bindings, replace, frame_modify s (Frame.parent?_replace · x b), length_shape, find?]
  by_cases h : f = g ∧ g < s.frames.size
  · rw [if_pos h, Frame.replace]
    split
    · rename_i hx
      rw [if_pos ⟨h.1, h.2, hx⟩]
      rfl
    · rename_i hx
      rw [if_neg fun hc => hx hc.2.2]
      rfl
  · rw [if_neg h, if_neg fun hc => h ⟨hc.1, hc.2.1⟩]
    rfl

theorem bindings_child (s : Scopes) (f g : FrameId) :
    (s.child f).2.bindings g = if g = s.shape.length then [] else s.bindings g := by
  simp only [child, bindings, frame, Array.getD_eq_getD_getElem?, Array.getElem?_push,
    length_shape]
  split
  · rfl
  · rfl

theorem bindings_leave {s : Scopes} (h : 1 < s.frames.size) (g : FrameId) :
    s.leave.bindings g = if g < s.shape.length - 1 then s.bindings g else [] := by
  simp only [leave_eq h, bindings, frame, Array.getD_eq_getD_getElem?, Array.getElem?_pop,
    length_shape]
  split
  · rfl
  · rfl

/-! ### Names -/

theorem lookup_cons_eq (z : String) (c : Binding) (bs : List (String × Binding)) (y : String) :
    ((z, c) :: bs).lookup y = if y = z then some c else bs.lookup y := by
  rw [List.lookup_cons]
  by_cases hy : y = z
  · simp [hy]
  · rw [if_neg hy, beq_eq_false_iff_ne.mpr hy]

theorem lookup_go (x : String) (b : Binding) (bs : List (String × Binding)) (y : String) :
    (Frame.add.go x b bs).lookup y = if y = x then some b else bs.lookup y := by
  induction bs with
  | nil => rw [Frame.add.go, lookup_cons_eq]
  | cons c bs ih =>
    obtain ⟨z, c⟩ := c
    rw [Frame.add.go]
    by_cases hz : x = z
    · subst hz
      rw [if_pos rfl, lookup_cons_eq, lookup_cons_eq]
      by_cases hy : y = x
      · rw [if_pos hy, if_pos hy]
      · rw [if_neg hy, if_neg hy, if_neg hy]
    · rw [if_neg hz, lookup_cons_eq, lookup_cons_eq, ih]
      by_cases hy : y = z
      · subst hy
        rw [if_pos rfl, if_pos rfl, if_neg fun h => hz h.symm]
      · rw [if_neg hy, if_neg hy]

theorem lookup_filter_ne (x : String) (bs : List (String × Binding)) (y : String) :
    (bs.filter (·.1 != x)).lookup y = if y = x then none else bs.lookup y := by
  induction bs with
  | nil => simp
  | cons c bs ih =>
    obtain ⟨z, c⟩ := c
    by_cases hz : z = x
    · subst hz
      rw [List.filter_cons_of_neg (by simp), ih, lookup_cons_eq]
      by_cases hy : y = z
      · rw [if_pos hy, if_pos hy]
      · rw [if_neg hy, if_neg hy, if_neg hy]
    · rw [List.filter_cons_of_pos (by simpa using hz), lookup_cons_eq, lookup_cons_eq, ih]
      by_cases hy : y = z
      · subst hy
        rw [if_pos rfl, if_pos rfl, if_neg hz]
      · rw [if_neg hy, if_neg hy]

theorem find?_eq (s : Scopes) (f : FrameId) (x : String) : s.find? f x = (s.bindings f).lookup x :=
  rfl

theorem find?_add (s : Scopes) (f g : FrameId) (x y : String) (b : Binding) :
    (s.add f x b).find? g y =
      if f = g ∧ g < s.shape.length ∧ y = x then some b else s.find? g y := by
  rw [find?_eq, bindings_add]
  by_cases h : f = g ∧ g < s.shape.length
  · rw [if_pos h, lookup_go]
    simp [h, find?_eq]
  · rw [if_neg h, if_neg fun hc => h ⟨hc.1, hc.2.1⟩, find?_eq]

theorem find?_remove (s : Scopes) (f g : FrameId) (x y : String) :
    (s.remove f x).find? g y =
      if f = g ∧ g < s.shape.length ∧ y = x then none else s.find? g y := by
  rw [find?_eq, bindings_remove]
  by_cases h : f = g ∧ g < s.shape.length
  · rw [if_pos h, lookup_filter_ne]
    simp [h, find?_eq]
  · rw [if_neg h, if_neg fun hc => h ⟨hc.1, hc.2.1⟩, find?_eq]

theorem find?_replace (s : Scopes) (f g : FrameId) (x y : String) (b : Binding) :
    (s.replace f x b).find? g y =
      if f = g ∧ g < s.shape.length ∧ (s.find? g x).isSome ∧ y = x then some b
      else s.find? g y := by
  rw [find?_eq, bindings_replace]
  by_cases h : f = g ∧ g < s.shape.length ∧ (s.find? g x).isSome
  · rw [if_pos h, lookup_go]
    simp only [h.1, h.2.1, h.2.2, true_and, ← find?_eq]
  · rw [if_neg h, if_neg fun hc => h ⟨hc.1, hc.2.1, hc.2.2.1⟩, find?_eq]

/-- A frame that binds a name is there. -/
theorem lt_of_find? {s : Scopes} {f : FrameId} {x : String} {b : Binding}
    (h : s.find? f x = some b) : f < s.shape.length := by
  rw [length_shape]
  refine Nat.lt_of_not_le fun hf => ?_
  have hempty : s.frame f = ⟨none, []⟩ := by
    simp [frame, Array.getD_eq_getD_getElem?, hf]
  rw [find?, hempty] at h
  cases h

end Scopes
end Scriptlet
