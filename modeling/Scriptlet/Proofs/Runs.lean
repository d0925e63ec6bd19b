import Scriptlet.Proofs.Sessions
import Scriptlet.Proofs.Signals

/-!
What a run of a program tells.

From outside, a run is its outcome, the text that it has written and what is told of the global
bindings that it leaves. Alike programs, run by interpreters in corresponding worlds, have
corresponding outcomes and leave corresponding worlds (`Interpreter.run_alike`). Corresponding outcomes
are the same but for places (`Interpreter.sameEnd_of_outcomes`), and interpreters in corresponding worlds
tell the same (`Interpreter.agree_of_worlds`).
-/
namespace Scriptlet

/-- Outcomes of the same sort: two signals, or two stops for the same cause. -/
inductive Correspondence.Outcomes (K : Correspondence) :
    Except Stop Signal → Except Stop Signal → Prop
  | ended {s t : Signal} (h : K.Signals s t) : Outcomes K (.ok s) (.ok t)
  | stopped {e d : Stop} (h : K.Stops e d) : Outcomes K (.error e) (.error d)

namespace Interpreter

/-- Interpreters that have written the same and tell the same of their global bindings: of those
that are listed, and of all, natives included. -/
structure Agree (i j : Interpreter) : Prop where
  output : i.output = j.output
  globals : i.globals = j.globals
  entries : i.entries = j.entries

variable {i j : Interpreter} {shape : List (List FrameId)}

theorem agree_of_worlds {K : Correspondence} (hw : K.Worlds shape i.world j.world) :
    i.Agree j where
  output := congrArg Console.output hw.host.console
  globals := globals_eq hw
  entries := entries_eq hw

/-- **Alike programs have corresponding runs.** -/
theorem run_alike {L : Likeness} {lead : Lead} {p q : Program}
    (hw : (L.ahead lead).Worlds shape i.world j.world) (hl : i.limit = j.limit)
    (hn : i.statements = j.statements) (hpq : Block.Alike L .top p.body q.body) (fuel : Nat) :
    (L.ahead lead).Outcomes (i.run fuel p).1 (j.run fuel q).1 ∧
      (L.ahead lead).Worlds shape (i.run fuel p).2.world (j.run fuel q).2.world := by
  have hmatch := action_alike hw hl hn hpq fuel
  rw [run_eq, run_eq]
  generalize i.action fuel p i.world = x at hmatch ⊢
  generalize j.action fuel q j.world = y at hmatch ⊢
  cases hmatch with
  | ok hs hw => exact ⟨.ended hs, hw⟩
  | error he hw => exact ⟨.stopped he, hw⟩

/-- Runs that both end well, or with faults that agree in kind and message, or both need more fuel. -/
inductive SameEnd : Except Stop Signal → Except Stop Signal → Prop
  | well : SameEnd (.ok .normal) (.ok .normal)
  | fault {f g : Fault} (h : f.Agree g) : SameEnd (.error (.fault f)) (.error (.fault g))
  | outOfFuel : SameEnd (.error .outOfFuel) (.error .outOfFuel)

theorem sameEnd_of_outcomes {K : Correspondence} {p q : Program} {fuel : Nat}
    (h : K.Outcomes (i.run fuel p).1 (j.run fuel q).1) :
    SameEnd (i.run fuel p).1 (j.run fuel q).1 := by
  generalize hx : (i.run fuel p).1 = x at h ⊢
  generalize hy : (j.run fuel q).1 = y at h ⊢
  cases h with
  | ended hs =>
    rw [eq_normal_of_run hx, eq_normal_of_run hy]
    exact .well
  | stopped he =>
    cases he with
    | fault hc hspan => exact .fault (.of_cause rfl)
    | outOfFuel => exact .outOfFuel

end Interpreter
end Scriptlet
