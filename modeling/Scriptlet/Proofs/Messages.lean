import Scriptlet.Fault
import Scriptlet.Proofs.Suggestions

/-!
What the messages of faults depend on.

A fault about a name that is not bound lists the visible names frame by frame, and its message suggests
the best of them. The order in which a frame tells its names is not fixed, so that a message may differ
from run to run; but only in the choice between tied names (`Fault.isTied_iff`). Hence faults for one
cause agree, whatever the orders are under which their messages are written (`Fault.Agree.of_cause`).
-/
namespace Scriptlet

namespace Text

theorem hint_some (x : String) : hint (some x) = "\n  hint: did you mean `" ++ x ++ "`?" := rfl

theorem hint_some_ne (x : String) : hint (some x) ≠ hint none := by
  rw [hint_some]
  intro h
  exact absurd (String.append_eq_empty_iff.mp h).2 (by decide)

theorem hint_inj {x y : Option String} (h : hint x = hint y) : x = y := by
  cases x with
  | none =>
    cases y with
    | none => rfl
    | some y => exact absurd h.symm (hint_some_ne y)
  | some x =>
    cases y with
    | none => exact absurd h (hint_some_ne x)
    | some y =>
      rw [hint_some, hint_some, String.append_left_inj, String.append_right_inj] at h
      rw [h]

end Text

namespace Fault

/-- Two names of one frame are equally good suggestions for the name that is not bound. -/
def IsTied (f : Fault) : Prop :=
  ∃ x visible, f.cause = .unbound x visible ∧ Text.Tied x visible

/-- Faults of one kind with the same message. If the messages are written under two orders of the names,
they are still the same but for the choice between tied names. -/
structure Agree (f g : Fault) : Prop where
  kind : f.kind = g.kind
  message : ∀ order, f.message order = g.message order
  tied : ∀ order order', f.message order ≠ g.message order' → f.IsTied ∧ g.IsTied

theorem Cause.message_unbound (order : NameOrder) (x : String) (visible : List (List String)) :
    (Cause.unbound x visible).message order =
      s!"undefined variable `{x}`" ++ Text.hint (Text.suggest? x (order.list visible)) := rfl

/-- Only a name that is not bound has a message that tells other names. -/
theorem Cause.eq_unbound {c : Cause} {order order' : NameOrder}
    (h : c.message order ≠ c.message order') : ∃ x visible, c = .unbound x visible := by
  cases c with
  | unbound x visible => exact ⟨x, visible, rfl⟩
  | _ => exact absurd rfl h

variable {f g : Fault}

theorem isTied_of_ne {order order' : NameOrder} (h : f.message order ≠ f.message order') :
    f.IsTied := by
  obtain ⟨x, visible, hcause⟩ := Cause.eq_unbound h
  refine ⟨x, visible, hcause, Text.tied_iff.mpr ⟨order, order', fun heq => h ?_⟩⟩
  rw [message, message, hcause, Cause.message_unbound, Cause.message_unbound, heq]

/-- A message depends on the order of the names just if names are tied. -/
theorem isTied_iff : f.IsTied ↔ ∃ order order', f.message order ≠ f.message order' := by
  constructor
  · rintro ⟨x, visible, hcause, htied⟩
    obtain ⟨order, order', hne⟩ := Text.tied_iff.mp htied
    refine ⟨order, order', fun heq => hne (Text.hint_inj ?_)⟩
    rw [message, message, hcause, Cause.message_unbound, Cause.message_unbound] at heq
    exact (String.append_right_inj _).mp heq
  · rintro ⟨order, order', hne⟩
    exact isTied_of_ne hne

theorem Agree.of_cause (h : f.cause = g.cause) : f.Agree g where
  kind := congrArg Cause.kind h
  message order := congrArg (Cause.message order) h
  tied order order' hne := by
    have hmessage : g.message order' = f.message order' := congrArg (Cause.message order') h.symm
    obtain ⟨x, visible, hcause, htied⟩ := isTied_of_ne (hmessage ▸ hne)
    exact ⟨⟨x, visible, hcause, htied⟩, x, visible, h ▸ hcause, htied⟩

end Fault
end Scriptlet
