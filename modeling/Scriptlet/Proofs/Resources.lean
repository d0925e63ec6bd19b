import Scriptlet.Proofs.Plans

/-!
Runs that are given more fuel, or a higher limit on nested calls.

`Run.Extends` compares an action with one that may go further: from any world the second does
exactly what the first does, unless the first stops for a cause that is excused. Actions that are put
together from extended ones are extended, and so are plans that are carried out with extended tasks
(`Plan.run_extends`). So evaluation with more resources extends evaluation with less, where the lack of
what there is more of is excused (`Task.run_extends`). In particular a result does not depend on the fuel
that it was found with (`Task.run_eq_of_le`).
-/
namespace Scriptlet

/-- The second action does what the first does, or the first stops for a cause that is excused. -/
def Run.Extends (Excused : Stop → Prop) {α : Type} (a b : Run α) : Prop :=
  ∀ w, (∃ e w', a w = .error e w' ∧ Excused e) ∨ b w = a w

namespace Run.Extends

variable {Excused : Stop → Prop} {α β : Type}

theorem refl (a : Run α) : a.Extends Excused a :=
  fun _ => .inr rfl

theorem excused {e : Stop} (he : Excused e) (b : Run α) :
    Run.Extends Excused (throw e : Run α) b :=
  fun w => .inl ⟨e, w, rfl, he⟩

theorem bind {a b : Run α} {k l : α → Run β} (hab : a.Extends Excused b)
    (hkl : ∀ x, (k x).Extends Excused (l x)) : (a >>= k).Extends Excused (b >>= l) := by
  intro w
  show (∃ e w', EStateM.bind a k w = .error e w' ∧ Excused e) ∨
    EStateM.bind b l w = EStateM.bind a k w
  unfold EStateM.bind
  rcases hab w with ⟨e, w', ha, he⟩ | hb
  · rw [ha]
    exact .inl ⟨e, w', rfl, he⟩
  · rw [hb]
    cases a w with
    | ok x w' => exact hkl x w'
    | error e w' => exact .inr rfl

theorem ensuring {a b : Run α} (hab : a.Extends Excused b) (after : World → World) :
    (a.ensuring after).Extends Excused (b.ensuring after) := by
  intro w
  rcases hab w with ⟨e, w', ha, he⟩ | hb
  · refine .inl ⟨e, after w', ?_, he⟩
    rw [Run.ensuring, ha]
  · refine .inr ?_
    rw [Run.ensuring, Run.ensuring, hb]

end Run.Extends

/-- What has to be excused for more fuel, and for a limit that may be higher. -/
structure Stop.Excuses (Excused : Stop → Prop) (limit limit' : Nat) : Prop where
  outOfFuel : Excused .outOfFuel
  limit_le : limit ≤ limit'
  overflow : limit ≠ limit' → ∀ span, Excused (.fault ⟨.stackOverflow limit, span⟩)

section

variable {Excused : Stop → Prop} {limit limit' : Nat} {r r' : Task.Runner}

/-- A plan is extended if it is carried out with tasks that are. -/
theorem Plan.run_extends (hr : ∀ t, (r t).Extends Excused (r' t)) {α : Type} (p : Plan α) :
    (p.run r).Extends Excused (p.run r') := by
  induction p with
  | act a => exact .refl a
  | step a next ih => exact (Run.Extends.refl a).bind ih
  | only t => exact hr t
  | invoke t next ih => exact (hr t).bind ih
  | within t leave next ih => exact ((hr t).ensuring leave).bind ih

/-- Calls alone look at the limit. -/
theorem Task.plan_eq (limit limit' : Nat) {t : Task}
    (ht : ∀ env depth f args span, t ≠ .call env depth f args span) : t.plan limit = t.plan limit' := by
  cases t with
  | call env depth f args span => exact absurd rfl (ht env depth f args span)
  | evalAll env depth es => cases es <;> rfl
  | evalOr env depth absent e => cases e <;> rfl
  | execBlock env depth ss => cases ss <;> rfl
  | _ => rfl

theorem Task.carryOut_call_extends (hx : Stop.Excuses Excused limit limit')
    (hr : ∀ t, (r t).Extends Excused (r' t)) (env : FrameId) (depth : Depth) (f : Function)
    (args : List Value) (span : Span) :
    (carryOut limit r (.call env depth f args span)).Extends Excused
      (carryOut limit' r' (.call env depth f args span)) := by
  by_cases heq : limit = limit'
  · rw [← heq]
    exact Plan.run_extends hr _
  · rw [carryOut, carryOut, plan, plan]
    by_cases hover : limit < depth.enterCall.calls
    · rw [if_pos hover]
      exact .excused (hx.overflow heq span) _
    · have hover' : ¬ limit' < depth.enterCall.calls :=
        fun h => hover (Nat.lt_of_le_of_lt hx.limit_le h)
      rw [if_neg hover, if_neg hover']
      exact Plan.run_extends hr _

theorem Task.carryOut_extends (hx : Stop.Excuses Excused limit limit')
    (hr : ∀ t, (r t).Extends Excused (r' t)) (t : Task) :
    (carryOut limit r t).Extends Excused (carryOut limit' r' t) := by
  by_cases hcall : ∃ env depth f args span, t = .call env depth f args span
  · obtain ⟨env, depth, f, args, span, rfl⟩ := hcall
    exact carryOut_call_extends hx hr env depth f args span
  · have hplan : t.plan limit = t.plan limit' :=
      plan_eq limit limit' fun env depth f args span ht => hcall ⟨env, depth, f, args, span, ht⟩
    rw [carryOut, carryOut, hplan]
    exact Plan.run_extends hr _

/-- **Evaluation with more resources extends evaluation with less.** -/
theorem Task.run_extends (hx : Stop.Excuses Excused limit limit') {fuel fuel' : Nat}
    (h : fuel ≤ fuel') (t : Task) : (t.run limit fuel).Extends Excused (t.run limit' fuel') := by
  induction fuel generalizing fuel' t with
  | zero =>
    rw [run_zero]
    exact .excused hx.outOfFuel _
  | succ fuel ih =>
    obtain ⟨fuel', rfl⟩ := Nat.exists_eq_add_one.mpr (Nat.lt_of_lt_of_le (Nat.succ_pos fuel) h)
    rw [run_succ, run_succ]
    exact carryOut_extends hx (ih (Nat.le_of_succ_le_succ h)) t

end

theorem excuses_outOfFuel (limit : Nat) : Stop.Excuses (· = .outOfFuel) limit limit where
  outOfFuel := rfl
  limit_le := Nat.le_refl limit
  overflow h := absurd rfl h

/-- A run that has ended, with a result or a fault, and does not lack fuel. -/
def Settled {α : Type} (x : EStateM.Result Stop World α) : Prop :=
  ∀ w, x ≠ .error .outOfFuel w

/-- A run that has ended stays the same with more fuel. -/
theorem Task.run_eq_of_le {limit fuel fuel' : Nat} (h : fuel ≤ fuel') {t : Task} {w : World}
    (hw : Settled (t.run limit fuel w)) : t.run limit fuel' w = t.run limit fuel w := by
  rcases t.run_extends (excuses_outOfFuel limit) h w with ⟨e, w', he, rfl⟩ | heq
  · exact absurd he (hw w')
  · exact heq

end Scriptlet
