/-!
The order in which names are told.

The names of a frame are kept in a table, which gives them in an order of its own: it may differ from
table to table and from run to run. Only the frames have an order, from the inside out. So whatever
depends on the order of the names takes one as a parameter.
-/
namespace Scriptlet

/-- For every frame, counted from the inside, an order of its names. -/
structure NameOrder where
  arrange : Nat → List String → List String
  perm : ∀ (frame : Nat) (names : List String), (arrange frame names).Perm names

namespace NameOrder

/-- The names in the order in which they have been bound. -/
def bound : NameOrder :=
  ⟨fun _ names => names, fun _ names => .refl names⟩

theorem perm_first (x : String) (_ : Nat) (names : List String) :
    (if x ∈ names then x :: names.erase x else names).Perm names := by
  split
  · rename_i hx
    exact (List.perm_cons_erase hx).symm
  · exact .refl names

/-- The names as they have been bound, but with one of them in front. -/
def first (x : String) : NameOrder where
  arrange _ names := if x ∈ names then x :: names.erase x else names
  perm := perm_first x

/-- The names of these frames, from the given frame on. -/
def listFrom (o : NameOrder) : Nat → List (List String) → List String
  | _, [] => []
  | frame, names :: frames => o.arrange frame names ++ o.listFrom (frame + 1) frames

/-- The names of all frames in a row. -/
def list (o : NameOrder) (frames : List (List String)) : List String :=
  o.listFrom 0 frames

variable {o : NameOrder} {x : String}

theorem mem_arrange {frame : Nat} {names : List String} : x ∈ o.arrange frame names ↔ x ∈ names :=
  (o.perm frame names).mem_iff

theorem arrange_first {frame : Nat} {names : List String} (h : x ∈ names) :
    (first x).arrange frame names = x :: names.erase x :=
  if_pos h

theorem mem_listFrom {frame : Nat} {frames : List (List String)} :
    x ∈ o.listFrom frame frames ↔ ∃ names ∈ frames, x ∈ names := by
  induction frames generalizing frame with
  | nil => simp [listFrom]
  | cons names frames ih => simp [listFrom, mem_arrange, ih]

/-- The order makes no difference to which names there are. -/
theorem mem_list {frames : List (List String)} :
    x ∈ o.list frames ↔ ∃ names ∈ frames, x ∈ names :=
  mem_listFrom

theorem listFrom_append (o : NameOrder) (frame : Nat) (inner outer : List (List String)) :
    o.listFrom frame (inner ++ outer) =
      o.listFrom frame inner ++ o.listFrom (frame + inner.length) outer := by
  induction inner generalizing frame with
  | nil => rfl
  | cons names inner ih =>
    rw [List.cons_append, listFrom, listFrom, ih, List.append_assoc, List.length_cons,
      Nat.add_assoc, Nat.add_comm 1]

/-- The frame that a name is listed for, with all names of the frames further inside before it. -/
theorem exists_frame {frame : Nat} {frames : List (List String)} {before after : List String}
    (h : o.listFrom frame frames = before ++ x :: after) :
    ∃ inner names outer, frames = inner ++ names :: outer ∧ x ∈ names ∧
      ∀ ns ∈ inner, ∀ y ∈ ns, y ∈ before := by
  induction frames generalizing frame before with
  | nil => simp [listFrom] at h
  | cons names frames ih =>
    by_cases hx : x ∈ names
    · exact ⟨[], names, frames, rfl, hx, nofun⟩
    · rw [listFrom] at h
      -- the names of this frame all come before
      obtain ⟨rest, rfl, hrest⟩ : ∃ rest, before = o.arrange frame names ++ rest ∧
          o.listFrom (frame + 1) frames = rest ++ x :: after := by
        rcases List.append_eq_append_iff.mp h with ⟨rest, rfl, hrest⟩ | ⟨rest, hnames, hrest⟩
        · exact ⟨rest, rfl, hrest⟩
        · cases rest with
          | nil => exact ⟨[], by simpa using hnames.symm, hrest.symm⟩
          | cons z rest =>
            obtain ⟨rfl, -⟩ := List.cons.inj hrest
            have hmem : x ∈ o.arrange frame names := by simp [hnames]
            exact absurd (mem_arrange.mp hmem) hx
      obtain ⟨inner, names', outer, rfl, hx', hbefore⟩ := ih hrest
      refine ⟨names :: inner, names', outer, rfl, hx', fun ns hns y hy => ?_⟩
      rcases List.mem_cons.mp hns with rfl | hns
      · exact List.mem_append_left _ (mem_arrange.mpr hy)
      · exact List.mem_append_right _ (hbefore ns hns y hy)

end NameOrder
end Scriptlet
