import Scriptlet.Proofs.Findings
import Scriptlet.Proofs.Simulation

/-!
Accepted programs never fault for something misplaced.

A program without violations is alike to itself under `Likeness.placement`, which asks every
`break`, `continue`, `return` and `global` to be where it belongs (`Block.alike_self`). A run of it
therefore matches itself under a correspondence that allows no such fault, whatever functions it
stores, passes around and calls: all of them are alike to themselves too, since they come from the
program. This gives `check_sound`.
-/
namespace Scriptlet

/-- The same code at the same places, with everything where it belongs. -/
def Likeness.placement : Likeness where
  Spans := Eq
  placed := True
  loose := False
  merge := by
    rintro a _ c _ rfl rfl
    rfl

open Likeness (placement)

/-- **A program that is accepted never faults for something misplaced**: neither for a `break`,
`continue` or `return` outside what it refers to, nor for a `global` in the global frame. -/
theorem check_sound (p : Program) (hp : p.check.error? = none) (limit : Nat) (console : Console)
    (fuel : Nat) (f : Fault) (i : Interpreter)
    (hr : (Interpreter.new limit console).run fuel p = (.error (.fault f), i)) :
    f.kind ≠ .controlFlow ∧ ∀ x, f.cause ≠ .globalScope x := by
  have halike : Block.Alike placement .top p.body p.body :=
    Block.alike_self (fun _ => rfl) p.body fun _ => Program.check_accepted.mp hp
  have hw := Interpreter.new_corresponds placement.correspondence limit console
  have hm := Interpreter.action_alike hw rfl rfl halike fuel
  rw [Interpreter.action_of_run_error hr] at hm
  cases hm with
  | error he _ =>
    cases he with
    | @fault c _ _ hc _ =>
      have hplaced : ¬ c.IsMisplaced := hc trivial
      refine ⟨?_, ?_⟩
      · intro hk
        apply hplaced
        cases c <;> trivial
      · rintro x rfl
        exact hplaced trivial

/-- A function that returns from inside its loop is accepted, and called its run may fault, but for
another reason: what it returns calls `nil`. -/
theorem check_sound_return_in_loop :
    let s : Span := ⟨0, 0⟩
    let p : Program := ⟨[.expr s (.call s (.function s () []
      [.while s (.bool s true) [.return s (some (.call s (.nil s) []))]]) [])]⟩
    p.check.error? = none ∧
      ∃ f i, (Interpreter.new 10 (.ofInput [])).run 20 p = (.error (.fault f), i) ∧
        f.kind = .typeMismatch ∧ f.kind ≠ .controlFlow ∧ ∀ x, f.cause ≠ .globalScope x := by
  intro s p
  exact ⟨rfl, _, _, rfl, rfl, check_sound p rfl 10 (.ofInput []) 20 _ _ rfl⟩

end Scriptlet
