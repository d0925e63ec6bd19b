import Mathlib
import Scriptlet.Eval.Operations
import Scriptlet.Proofs.Equality

/-!
Equality of values as a relation.

On every heap equality is symmetric and transitive, and reflexive except at a NaN
(`Heap.equal_partialEquivalence`). For arrays this is not to be seen from the comparison: the pairs
that it opens for `x` and `z` are not put together from those that it opens for `x` and `y` and for
`y` and `z`, where the arrays contain themselves after different numbers of steps. But equality
contains every relation that satisfies the clauses (`Heap.equal_of_related`), so it is enough that
these are satisfied by the converse of equality (`Heap.Related.symm`) and by one or two steps of it
(`Heap.Related.chain`).
-/
namespace Scriptlet.Heap

variable {h : Heap} {R : Value → Value → Prop} {x y z : Value}

/-- Related by one step or by two. The one step is for arrays that are compared by identity: their
items need not be related to themselves. -/
def OneOrTwo (R : Value → Value → Prop) (u v : Value) : Prop :=
  R u v ∨ Relation.Comp R R u v

theorem forall₂_oneOrTwo {us vs ws : List Value} (huv : List.Forall₂ R us vs)
    (hvw : List.Forall₂ R vs ws) : List.Forall₂ (OneOrTwo R) us ws := by
  induction huv generalizing ws with
  | nil =>
    cases hvw
    exact .nil
  | cons hfirst _ ih =>
    cases hvw with
    | cons hsecond hrest => exact .cons (.inr ⟨_, hfirst, hsecond⟩) (ih hrest)

/-- The clauses do not tell left from right. -/
theorem Related.symm (hxy : h.Related R x y) : h.Related (fun u v => R v u) y x := by
  unfold Related at hxy
  split at hxy
  · trivial
  · exact Eq.symm hxy
  · exact PartialEquivBEq.symm hxy
  · exact hxy.imp Eq.symm Eq.symm
  · exact Eq.symm hxy
  · exact Eq.symm hxy
  · exact hxy.imp Eq.symm List.Forall₂.flip
  · exact hxy.elim

/-- The clauses can be chained. -/
theorem Related.chain (hxy : h.Related R x y) (hyz : h.Related R y z) :
    h.Related (OneOrTwo R) x z := by
  -- all three values are of one kind, or one of the clauses fails
  cases x <;> cases y <;> simp only [Related] at hxy <;> cases z <;> simp only [Related] at hyz ⊢
  · exact Eq.trans hxy hyz
  · exact PartialEquivBEq.trans hxy hyz
  · rcases hxy with rfl | hxy
    · exact hyz
    · rcases hyz with rfl | hyz
      · exact .inr hxy
      · exact .inr (hxy.trans hyz)
  · -- an array that is the same in one step has its items related by the other
    rcases hxy with rfl | hxy
    · exact hyz.imp_right fun hitems => hitems.imp fun _ _ => .inl
    · rcases hyz with rfl | hyz
      · exact .inr (hxy.imp fun _ _ => .inl)
      · exact .inr (forall₂_oneOrTwo hxy hyz)
  · exact Eq.trans hxy hyz
  · exact Eq.trans hxy hyz

theorem equal_symm (hxy : h.equal x y = true) : h.equal y x = true := by
  refine equal_of_related (S := fun u v => h.equal v u = true) ?_ hxy
  intro u v huv
  exact (related_of_equal huv).symm

theorem equal_trans (hxy : h.equal x y = true) (hyz : h.equal y z = true) :
    h.equal x z = true := by
  refine equal_of_related (S := OneOrTwo fun u v => h.equal u v = true) ?_ (.inr ⟨y, hxy, hyz⟩)
  rintro u w (huw | ⟨v, huv, hvw⟩)
  · exact (related_of_equal huw).mono fun _ _ => .inl
  · exact (related_of_equal huv).chain (related_of_equal hvw)

/-- A value is equal to itself if and only if it is not a NaN. -/
theorem equal_self_iff : h.equal x x = true ↔ ∀ f, x = .float f → f.isNaN = false := by
  constructor
  · rintro hx f rfl
    have hself : (f == f) = true := related_of_equal hx
    rw [Float.isNaN_eq_decide_eq_nan, decide_eq_false_iff_not]
    exact Float.beq_self_iff.mp hself
  · intro hx
    refine equal_of_related_equal ?_
    cases x with
    | nil => trivial
    | bool b => rfl
    | float f =>
      have hnan := hx f rfl
      rw [Float.isNaN_eq_decide_eq_nan, decide_eq_false_iff_not] at hnan
      exact Float.beq_self_iff.mpr hnan
    | text r => exact .inl rfl
    | array r => exact .inl rfl
    | function f => rfl
    | native n => rfl

/-- **Equality is a partial equivalence**, on every heap, whatever its arrays share and contain. It
is symmetric and transitive, and every value is equal to itself but a NaN. The operators `==` and
`!=` answer by it, and leave the world as it is. -/
theorem equal_partialEquivalence (h : Heap) :
    (∀ x y, h.equal x y = true → h.equal y x = true) ∧
    (∀ x y z, h.equal x y = true → h.equal y z = true → h.equal x z = true) ∧
    (∀ x, h.equal x x = true ↔ ∀ f, x = .float f → f.isNaN = false) ∧
    ∀ (w : World) (x y : Value) (span : Span), w.host.heap = h →
      Run.binary .eq x y span w = .ok (.bool (h.equal x y)) w ∧
      Run.binary .ne x y span w = .ok (.bool (!h.equal x y)) w := by
  refine ⟨fun _ _ => equal_symm, fun _ _ _ => equal_trans, fun _ => equal_self_iff, ?_⟩
  rintro w x y span rfl
  exact ⟨rfl, rfl⟩

/-- Three ways to write the endless array `[1, [1, [1, ..` : one that contains itself, and two that
contain each other. The first is equal to the second and the second to the third. A list of a NaN is
equal to itself, but not to another such list. -/
theorem equal_partialEquivalence_cycles :
    let h : Heap := ⟨#[], #[.ofList [.float 1, .array ⟨0⟩], .ofList [.float 1, .array ⟨2⟩],
      .ofList [.float 1, .array ⟨1⟩], .ofList [.float Number.nan], .ofList [.float Number.nan]]⟩
    h.equal (.array ⟨0⟩) (.array ⟨1⟩) = true ∧ h.equal (.array ⟨1⟩) (.array ⟨2⟩) = true ∧
      h.equal (.array ⟨0⟩) (.array ⟨2⟩) = true ∧ h.equal (.array ⟨2⟩) (.array ⟨0⟩) = true ∧
      h.equal (.array ⟨3⟩) (.array ⟨3⟩) = true ∧ h.equal (.array ⟨3⟩) (.array ⟨4⟩) = false := by
  intro h
  obtain ⟨hsymm, htrans, hself, -⟩ := equal_partialEquivalence h
  have hfirst : h.equal (.array ⟨0⟩) (.array ⟨1⟩) = true := by decide +kernel
  have hsecond : h.equal (.array ⟨1⟩) (.array ⟨2⟩) = true := by decide +kernel
  have hboth := htrans _ _ _ hfirst hsecond
  refine ⟨hfirst, hsecond, hboth, hsymm _ _ hboth, (hself _).mpr ?_, by decide +kernel⟩
  intro f hf
  cases hf

end Scriptlet.Heap
