import Scriptlet.Proofs.Runs

/-!
A higher limit changes nothing but overflows.

How deep calls may nest is looked at in one place only, where a call is about to go deeper. So a run
under a higher limit takes the same steps as one under the lower limit, for as long as the latter does
not stop there (`Task.run_extends`). What a run comes to, `Interpreter.Ends`, is free of the fuel
that it was found with (`Interpreter.Ends.eventually`), hence there is one such end at most, and a run
that has ended without an overflow has the same end under every higher limit
(`Interpreter.ends_raised`).
-/
namespace Scriptlet

/-- Whether an action has stopped because there was not enough of something: of fuel, or of room for
one more call. -/
def Stop.IsLack : Stop → Prop
  | .outOfFuel => True
  | .fault f => f.kind = .stackOverflow

theorem Stop.excuses_isLack {limit limit' : Nat} (h : limit ≤ limit') :
    Stop.Excuses Stop.IsLack limit limit' where
  outOfFuel := trivial
  limit_le := h
  overflow _ _ := rfl

/-- How a run can end: with a signal or with a fault. -/
abbrev Ending := Except Fault Signal

namespace Ending

/-- The result of an action that ends so in a world. -/
def result (e : Ending) (w : World) : EStateM.Result Stop World Signal :=
  match e with
  | .ok signal => .ok signal w
  | .error f => .error (.fault f) w

/-- The outcome of a run that ends so. -/
def outcome (e : Ending) : Except Stop Signal :=
  match e with
  | .ok signal => .ok signal
  | .error f => .error (.fault f)

/-- The run has gone deeper than the limit allows. -/
def IsOverflow (e : Ending) : Prop :=
  ∃ f, e = .error f ∧ f.kind = .stackOverflow

theorem settled_result (e : Ending) (w : World) : Settled (e.result w) := by
  intro w' h
  cases e <;> cases h

theorem not_isLack_of_result {e : Ending} (he : ¬ e.IsOverflow) {w w' : World} {stop : Stop}
    (h : e.result w = .error stop w') : ¬ stop.IsLack := by
  intro hlack
  cases e with
  | ok signal => cases h
  | error f =>
    cases h
    exact he ⟨f, rfl, hlack⟩

theorem result_inj {e d : Ending} {w v : World} (h : e.result w = d.result v) : e = d ∧ w = v := by
  cases e <;> cases d <;> cases h <;> exact ⟨rfl, rfl⟩

end Ending

namespace Interpreter

/-- The same interpreter with another limit. -/
def withLimit (i : Interpreter) (limit : Nat) : Interpreter :=
  { i with limit }

/-- The run of a program comes to this end, given enough fuel, and leaves the interpreter `j`. -/
def Ends (i : Interpreter) (p : Program) (e : Ending) (j : Interpreter) : Prop :=
  ∃ fuel, i.run fuel p = (e.outcome, j)

variable {i j : Interpreter} {p : Program} {e : Ending}

theorem run_eq_iff {fuel : Nat} :
    i.run fuel p = (e.outcome, j) ↔
      ∃ w, i.action fuel p i.world = e.result w ∧ j = i.after p w := by
  rw [run_eq]
  constructor
  · intro h
    split at h
    · rename_i signal w hw
      cases e with
      | ok signal' =>
        simp only [Ending.outcome, Prod.mk.injEq, Except.ok.injEq] at h
        exact ⟨w, by rw [hw, h.1]; rfl, h.2.symm⟩
      | error f => simp [Ending.outcome] at h
    · rename_i stop w hw
      cases e with
      | ok signal => simp [Ending.outcome] at h
      | error f =>
        simp only [Ending.outcome, Prod.mk.injEq, Except.error.injEq] at h
        exact ⟨w, by rw [hw, h.1]; rfl, h.2.symm⟩
  · rintro ⟨w, hw, rfl⟩
    rw [hw]
    cases e <;> rfl

/-- An end that is found with some fuel is found with all greater fuel. -/
theorem Ends.eventually (h : i.Ends p e j) :
    ∃ fuel, ∀ fuel', fuel ≤ fuel' → i.run fuel' p = (e.outcome, j) := by
  obtain ⟨fuel, hrun⟩ := h
  obtain ⟨w, haction, hj⟩ := run_eq_iff.mp hrun
  refine ⟨fuel, fun fuel' hle => run_eq_iff.mpr ⟨w, ?_, hj⟩⟩
  have hsettled : Settled (i.action fuel p i.world) := haction ▸ e.settled_result w
  rw [action_eq_of_le hle hsettled, haction]

/-- A run has one end at most. -/
theorem Ends.unique (h : i.Ends p e j) {d : Ending} {k : Interpreter} (h' : i.Ends p d k) :
    e = d ∧ j = k := by
  obtain ⟨m, hm⟩ := h.eventually
  obtain ⟨n, hn⟩ := h'.eventually
  -- fuel that is enough for both
  obtain ⟨w, hw, rfl⟩ := run_eq_iff.mp (hm (max m n) (Nat.le_max_left m n))
  obtain ⟨v, hv, rfl⟩ := run_eq_iff.mp (hn (max m n) (Nat.le_max_right m n))
  obtain ⟨rfl, rfl⟩ := Ending.result_inj (hw.symm.trans hv)
  exact ⟨rfl, rfl⟩

theorem Ends.sameEnd (h : i.Ends p e j) : SameEnd e.outcome e.outcome := by
  obtain ⟨fuel, hrun⟩ := h
  cases e with
  | ok signal =>
    have hrun : (i.run fuel p).1 = .ok signal := congrArg Prod.fst hrun
    rw [eq_normal_of_run hrun]
    exact .well
  | error f => exact .fault (.of_cause rfl)

/-- Under a higher limit a program does what it does under the lower one, unless it lacks something
there. -/
theorem action_extends {limit limit' : Nat} (h : limit ≤ limit') (fuel : Nat) :
    ((i.withLimit limit).action fuel p).Extends Stop.IsLack
      ((i.withLimit limit').action fuel p) :=
  (Task.execBlock 0 .top (p.mark i.statements)).run_extends (Stop.excuses_isLack h) (Nat.le_refl fuel)

/-- **A higher limit changes nothing for a run that does not overflow.** Such a run ends under every
higher limit too, and in one way only: with the same signal or fault, and with the same world, which
holds the output, the bindings and the heap. The message of the fault is the same in whatever orders the
two runs tell names, but for the choice between tied names. -/
theorem ends_raised (i : Interpreter) (p : Program) {limit limit' : Nat} (hle : limit ≤ limit')
    {e : Ending} {j : Interpreter} (hend : (i.withLimit limit).Ends p e j)
    (hover : ¬ e.IsOverflow) (d : Ending) (k : Interpreter) :
    ((i.withLimit limit').Ends p d k ↔ d = e ∧ k = j.withLimit limit') ∧
      ((i.withLimit limit').Ends p d k → SameEnd e.outcome d.outcome) := by
  have hraised : (i.withLimit limit').Ends p e (j.withLimit limit') := by
    obtain ⟨fuel, hrun⟩ := hend
    obtain ⟨w, hw, rfl⟩ := run_eq_iff.mp hrun
    refine ⟨fuel, run_eq_iff.mpr ⟨w, ?_, rfl⟩⟩
    rcases action_extends hle fuel i.world with ⟨stop, w', hstop, hlack⟩ | heq
    · exact absurd hlack (Ending.not_isLack_of_result hover (hw.symm.trans hstop))
    · exact heq.trans hw
  refine ⟨⟨fun hd => hd.unique hraised, ?_⟩, fun hd => ?_⟩
  · rintro ⟨rfl, rfl⟩
    exact hraised
  · obtain ⟨rfl, -⟩ := hd.unique hraised
    exact hd.sameEnd

/-- Two calls, one inside the other, overflow under the limit one. Under the limit two the inner one
faults by itself, and so it does under the limit seven. -/
theorem ends_raised_nested :
    let s : Span := ⟨0, 0⟩
    let inner : Expr Unit := .function s () [] [.return s (some (.call s (.nil s) []))]
    let outer : Expr Unit := .function s () [] [.return s (some (.call s inner []))]
    let p : Program := ⟨[.expr s (.call s outer [])]⟩
    let i := Interpreter.new 1 (.ofInput [])
    (∃ e j, i.Ends p e j ∧ e.IsOverflow) ∧
      ∃ e j, (i.withLimit 2).Ends p e j ∧ ¬ e.IsOverflow ∧
        (i.withLimit 7).Ends p e (j.withLimit 7) ∧ SameEnd e.outcome e.outcome := by
  intro s inner outer p i
  refine ⟨⟨.error ⟨.stackOverflow 1, s⟩, _, ⟨20, rfl⟩, _, rfl, rfl⟩, ?_⟩
  have hend : ∃ j, (i.withLimit 2).Ends p (.error ⟨.notCallable .nil, s⟩) j := ⟨_, 20, rfl⟩
  have hover : ¬ Ending.IsOverflow (.error ⟨.notCallable .nil, s⟩) := by
    rintro ⟨f, hf, hkind⟩
    cases hf
    cases hkind
  obtain ⟨j, hj⟩ := hend
  have hle : 2 ≤ 7 := by decide
  obtain ⟨hiff, hsame⟩ := ends_raised i p hle hj hover _ (j.withLimit 7)
  have hend := hiff.mpr ⟨rfl, rfl⟩
  exact ⟨_, j, hj, hover, hend, hsame hend⟩

end Interpreter
end Scriptlet
