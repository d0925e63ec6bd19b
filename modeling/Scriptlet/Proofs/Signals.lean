import Scriptlet.Interpreter

/-!
Where the signals of statements end.

A `break` or `continue` is signalled only inside a loop and a `return` only inside a call, and a
loop passes on no signal that is meant for a loop (`signals_at`). Hence statements outside every
loop and call end normally if they end at all (`execBlock_top`), and the body of a function, which
is inside no loop of its caller, ends normally or returns (`execBlock_enterCall`). So neither a
program nor a call, which both take no notice of a signal that they do not expect, ever meets one
(`signals_contained`).

The signal of a statement does not depend on the values that expressions have, so the induction on
the fuel is over the four parts of evaluation that give signals.
-/
namespace Scriptlet

/-- One action after another has a result if the first has one, and the second has it from there. -/
theorem Run.bind_eq_ok {α β : Type} {a : Run α} {k : α → Run β} {w w' : World} {y : β} :
    (a >>= k) w = .ok y w' ↔ ∃ x v, a w = .ok x v ∧ k x v = .ok y w' := by
  show EStateM.bind a k w = .ok y w' ↔ _
  unfold EStateM.bind
  cases a w with
  | ok x v =>
    constructor
    · intro h
      exact ⟨x, v, rfl, h⟩
    · rintro ⟨x, v, hx, h⟩
      cases hx
      exact h
  | error e v =>
    constructor
    · exact nofun
    · rintro ⟨x, v, hx, -⟩
      cases hx

/-- All results of an action, from whatever world, satisfy `P`. -/
def Run.Gives {α : Type} (P : α → Prop) (a : Run α) : Prop :=
  ∀ w x w', a w = .ok x w' → P x

namespace Run.Gives

variable {α β : Type} {P : α → Prop}

theorem pure {x : α} (h : P x) : Run.Gives P (pure x : Run α) := by
  intro w y w' hy
  cases hy
  exact h

theorem fault (c : Fault.Cause) (span : Span) : Run.Gives P (Run.fault c span : Run α) :=
  fun _ _ _ => nofun

theorem bind {Q : β → Prop} {a : Run β} {k : β → Run α} (ha : a.Gives Q)
    (hk : ∀ x, Q x → (k x).Gives P) : (a >>= k).Gives P := by
  intro w y w' hy
  obtain ⟨x, v, hx, hy⟩ := Run.bind_eq_ok.mp hy
  exact hk x (ha w x v hx) v y w' hy

/-- Nothing need be known of what comes before the last action. -/
theorem of_last {a : Run β} {k : β → Run α} (hk : ∀ x, (k x).Gives P) : (a >>= k).Gives P :=
  bind (fun _ _ _ _ => trivial) fun x _ => hk x

theorem ensuring {a : Run α} (ha : a.Gives P) (after : World → World) :
    (a.ensuring after).Gives P := by
  intro w x w' hx
  rw [Run.ensuring] at hx
  split at hx
  · rename_i y w'' hy
    cases hx
    exact ha w x w'' hy
  · cases hx

end Run.Gives

/-- What a signal is meant for is around the statement that gives it. -/
def Signal.Meant (depth : Depth) : Signal → Prop
  | .normal => True
  | .break | .continue => depth.inLoop = true
  | .return _ => depth.inCall = true

/-- The signals that a loop passes on. -/
def Signal.Passes (depth : Depth) : Signal → Prop
  | .normal => True
  | .break | .continue => False
  | .return _ => depth.inCall = true

theorem Signal.Passes.meant {depth : Depth} {s : Signal} (h : s.Passes depth) : s.Meant depth := by
  cases s with
  | normal => trivial
  | «break» => exact h.elim
  | «continue» => exact h.elim
  | «return» v => exact h

/-- The signals that statements and loops give with this fuel. -/
structure SignalsAt (limit fuel : Nat) : Prop where
  exec : ∀ env depth s, (exec limit fuel env depth s).Gives (Signal.Meant depth)
  execBlock : ∀ env depth ss, (execBlock limit fuel env depth ss).Gives (Signal.Meant depth)
  execWhile : ∀ env depth e ss, (execWhile limit fuel env depth e ss).Gives (Signal.Passes depth)
  execRange : ∀ env depth x cmp last step ss,
    (execRange limit fuel env depth x cmp last step ss).Gives (Signal.Passes depth)

namespace SignalsAt

variable {limit fuel : Nat} (ih : SignalsAt limit fuel) (env : FrameId) (depth : Depth)
include ih

theorem exec_step (s : Stmt FunctionId) :
    (Scriptlet.exec limit (fuel + 1) env depth s).Gives (Signal.Meant depth) := by
  cases s with
  | expr span e => exact .of_last fun v => .pure trivial
  | block span body => exact ih.execBlock env depth body
  | cond span test yes no =>
    refine .of_last fun v => ?_
    split
    · exact ih.execBlock env depth yes
    · cases no with
      | none => exact .pure trivial
      | some no => exact ih.execBlock env depth no
  | «while» span test body =>
    exact fun w s w' hs => (ih.execWhile env depth test body w s w' hs).meant
  | range span x cmp first last body =>
    refine .of_last fun v => .of_last fun i => .of_last fun w => .of_last fun j => ?_
    refine .of_last fun step => .of_last fun _ => .ensuring ?_ _
    exact fun w s w' hs => (ih.execRange env depth x cmp.val j step body w s w' hs).meant
  | «break» span =>
    rw [Scriptlet.exec]
    split
    · rename_i hloop
      exact .pure hloop
    · exact .fault _ span
  | «continue» span =>
    rw [Scriptlet.exec]
    split
    · rename_i hloop
      exact .pure hloop
    · exact .fault _ span
  | «return» span value =>
    rw [Scriptlet.exec]
    split
    · rename_i hcall
      exact .of_last fun v => .pure hcall
    · exact .fault _ span

theorem execBlock_step (ss : Block FunctionId) :
    (Scriptlet.execBlock limit (fuel + 1) env depth ss).Gives (Signal.Meant depth) := by
  cases ss with
  | nil => exact .pure trivial
  | cons s ss =>
    refine (ih.exec env depth s).bind fun signal hs => ?_
    cases signal with
    | normal => exact ih.execBlock env depth ss
    | _ => exact .pure hs

theorem execWhile_step (test : Expr FunctionId) (body : Block FunctionId) :
    (Scriptlet.execWhile limit (fuel + 1) env depth test body).Gives (Signal.Passes depth) := by
  refine .of_last fun v => ?_
  split
  · refine (ih.execBlock env depth.enterLoop body).bind fun signal hs => ?_
    -- the body is inside one more loop, but inside no more calls
    cases signal with
    | «break» => exact .pure trivial
    | «return» v => exact .pure hs
    | _ => exact ih.execWhile env depth test body
  · exact .pure trivial

theorem execRange_step (x : Located String) (cmp : BinaryOp) (last step : Float)
    (body : Block FunctionId) :
    (Scriptlet.execRange limit (fuel + 1) env depth x cmp last step body).Gives
      (Signal.Passes depth) := by
  refine .of_last fun i => ?_
  split
  · refine (ih.execBlock env depth.enterLoop body).bind fun signal hs => ?_
    cases signal with
    | «break» => exact .pure trivial
    | «return» v => exact .pure hs
    | _ => exact .of_last fun i => .of_last fun _ => ih.execRange env depth x cmp last step body
  · exact .pure trivial

end SignalsAt

theorem signals_at (limit fuel : Nat) : SignalsAt limit fuel := by
  induction fuel with
  | zero => constructor <;> intros <;> exact fun _ _ _ => nofun
  | succ fuel ih =>
    exact {
      exec := fun env depth s => ih.exec_step env depth s
      execBlock := fun env depth ss => ih.execBlock_step env depth ss
      execWhile := fun env depth e ss => ih.execWhile_step env depth e ss
      execRange := fun env depth x cmp last step ss =>
        ih.execRange_step env depth x cmp last step ss }

/-- Outside every loop and call, statements end normally if they end at all. -/
theorem execBlock_top {limit fuel : Nat} {env : FrameId} {ss : Block FunctionId} {w w' : World}
    {s : Signal} (h : execBlock limit fuel env .top ss w = .ok s w') : s = .normal := by
  have hs := (signals_at limit fuel).execBlock env .top ss w s w' h
  cases s with
  | normal => rfl
  | «break» => cases hs
  | «continue» => cases hs
  | «return» v => cases hs

/-- A program that ends well ends normally: no signal leaves its top level. -/
theorem Interpreter.eq_normal_of_run {i : Interpreter} {fuel : Nat} {p : Program} {s : Signal}
    (h : (i.run fuel p).1 = .ok s) : s = .normal := by
  obtain ⟨world, limit, statements⟩ := i
  simp only [run, perform] at h
  split at h
  · rename_i t w ht
    cases h
    exact execBlock_top ht
  · cases h

/-- The statements of a function end normally or return. -/
theorem execBlock_enterCall {limit fuel : Nat} {env : FrameId} {depth : Depth}
    {ss : Block FunctionId} {w w' : World} {s : Signal}
    (h : execBlock limit fuel env depth.enterCall ss w = .ok s w') :
    s = .normal ∨ ∃ v, s = .return v := by
  have hs := (signals_at limit fuel).execBlock env depth.enterCall ss w s w' h
  cases s with
  | normal => exact .inl rfl
  | «break» => cases hs
  | «continue» => cases hs
  | «return» v => exact .inr ⟨v, rfl⟩

theorem Run.ensuring_eq_ok {α : Type} {a : Run α} {after : World → World} {w w' : World} {x : α}
    (h : a.ensuring after w = .ok x w') : ∃ v, a w = .ok x v ∧ w' = after v := by
  rw [Run.ensuring] at h
  split at h
  · rename_i y v hy
    cases h
    exact ⟨v, hy, rfl⟩
  · cases h

/-- The value of a call is what its statements return, or `nil` if they end normally. -/
theorem call_eq_ok {limit fuel : Nat} {env : FrameId} {depth : Depth} {f : Function}
    {args : List Value} {span : Span} {w w' : World} {v : Value}
    (h : call limit (fuel + 1) env depth f args span w = .ok v w') :
    ∃ frame inner s outer, Run.enterFrame env f.params args w = .ok frame inner ∧
      execBlock limit fuel frame depth.enterCall f.body inner = .ok s outer ∧
      w' = Run.leaveFrame outer ∧ (s = .normal ∧ v = .nil ∨ s = .return v) := by
  rw [call] at h
  split at h
  · cases h
  · obtain ⟨frame, inner, hframe, h⟩ := Run.bind_eq_ok.mp h
    obtain ⟨s, after, hs, h⟩ := Run.bind_eq_ok.mp h
    obtain ⟨outer, hbody, rfl⟩ := Run.ensuring_eq_ok hs
    refine ⟨frame, inner, s, outer, hframe, hbody, ?_⟩
    rcases execBlock_enterCall hbody with rfl | ⟨u, rfl⟩
    · cases h
      exact ⟨rfl, .inl ⟨rfl, rfl⟩⟩
    · cases h
      exact ⟨rfl, .inr rfl⟩

/-- Whether a statement is a loop. -/
def Stmt.isLoop {φ : Type} : Stmt φ → Bool
  | .while .. | .range .. => true
  | _ => false

/-- A loop passes on no signal that is meant for a loop. -/
theorem exec_isLoop {limit fuel : Nat} {env : FrameId} {depth : Depth} {s : Stmt FunctionId}
    (hs : s.isLoop = true) : (exec limit fuel env depth s).Gives (Signal.Passes depth) := by
  cases fuel with
  | zero => exact fun _ _ _ => nofun
  | succ fuel =>
    cases s with
    | «while» span test body => exact (signals_at limit fuel).execWhile env depth test body
    | range span x cmp first last body =>
      refine .of_last fun v => .of_last fun i => .of_last fun w => .of_last fun j => ?_
      refine .of_last fun step => .of_last fun _ => .ensuring ?_ _
      exact (signals_at limit fuel).execRange env depth x cmp.val j step body
    | _ => cases hs

/-- **No signal leaves the construct that it is meant for.** Whatever the tree, a statement or a
block ends with `break` or `continue` only if a loop is around it and with `return` only if a call
is, and a loop never ends with `break` or `continue`. Hence a program ends normally if it ends
without a fault, and the statements of a function end normally or return; and so what a call drops
to give `nil` is never a signal that was meant for something else. -/
theorem signals_contained (limit fuel : Nat) :
    (∀ env depth s w signal w', exec limit fuel env depth s w = .ok signal w' →
      (signal = .break ∨ signal = .continue → 0 < depth.loops) ∧
        ∀ v, signal = .return v → 0 < depth.calls) ∧
    (∀ env depth ss w signal w', execBlock limit fuel env depth ss w = .ok signal w' →
      (signal = .break ∨ signal = .continue → 0 < depth.loops) ∧
        ∀ v, signal = .return v → 0 < depth.calls) ∧
    (∀ env depth s w signal w', s.isLoop = true → exec limit fuel env depth s w = .ok signal w' →
      signal ≠ .break ∧ signal ≠ .continue) ∧
    (∀ (i : Interpreter) p signal, (i.run fuel p).1 = .ok signal → signal = .normal) ∧
    (∀ frame (depth : Depth) (f : Function) w signal w',
      execBlock limit fuel frame depth.enterCall f.body w = .ok signal w' →
      signal = .normal ∨ ∃ v, signal = .return v) ∧
    (∀ env depth f args span w v w', call limit (fuel + 1) env depth f args span w = .ok v w' →
      ∃ frame inner signal outer, Run.enterFrame env f.params args w = .ok frame inner ∧
        execBlock limit fuel frame depth.enterCall f.body inner = .ok signal outer ∧
        w' = Run.leaveFrame outer ∧ (signal = .normal ∧ v = .nil ∨ signal = .return v)) := by
  have hmeant : ∀ {signal : Signal} {depth : Depth}, signal.Meant depth →
      (signal = .break ∨ signal = .continue → 0 < depth.loops) ∧
        ∀ v, signal = .return v → 0 < depth.calls := by
    intro signal depth h
    constructor
    · rintro (rfl | rfl) <;> exact of_decide_eq_true h
    · rintro v rfl
      exact of_decide_eq_true h
  refine ⟨fun env depth s w signal w' h => ?_, fun env depth ss w signal w' h => ?_,
    fun env depth s w signal w' hs h => ?_, fun i p signal => Interpreter.eq_normal_of_run,
    fun frame depth f w signal w' => execBlock_enterCall,
    fun env depth f args span w v w' => call_eq_ok⟩
  · exact hmeant ((signals_at limit fuel).exec env depth s w signal w' h)
  · exact hmeant ((signals_at limit fuel).execBlock env depth ss w signal w' h)
  · have hpasses := exec_isLoop hs w signal w' h
    constructor <;> rintro rfl <;> exact hpasses

/-- A loop that is left by `break`, another that is left by `return`, and a call of a function that
consists of both. -/
theorem signals_contained_loops :
    let s : Span := ⟨0, 0⟩
    let broken : Stmt FunctionId := .while s (.bool s true) [.break s]
    let returned : Stmt FunctionId := .while s (.bool s true) [.return s (some (.bool s true))]
    (∃ w w', exec 10 10 0 ⟨0, 1⟩ (.break s) w = .ok .break w' ∧ 0 < (⟨0, 1⟩ : Depth).loops) ∧
    (∃ w w', execBlock 10 10 0 ⟨1, 0⟩ [broken, returned] w = .ok (.return (.bool true)) w' ∧
      0 < (⟨1, 0⟩ : Depth).calls) ∧
    (∃ w w' signal, exec 10 10 0 .top broken w = .ok signal w' ∧ signal ≠ .break ∧
      signal ≠ .continue) ∧
    (∃ (i : Interpreter) (p : Program) (signal : Signal), p.body.length = 1 ∧
      (i.run 10 p).1 = .ok signal ∧ signal = .normal) ∧
    (∃ w w' signal, execBlock 10 10 0 (Depth.enterCall ⟨0, 1⟩) [broken] w = .ok signal w' ∧
      (signal = .normal ∨ ∃ v, signal = .return v)) ∧
    ∃ w w' frame inner signal outer,
      call 10 11 0 ⟨0, 1⟩ ⟨[], [], [broken, returned]⟩ [] s w = .ok (.bool true) w' ∧
      Run.enterFrame 0 [] [] w = .ok frame inner ∧
      execBlock 10 10 frame ⟨1, 0⟩ [broken, returned] inner = .ok signal outer ∧
      (signal = .normal ∧ Value.bool true = .nil ∨ signal = .return (.bool true)) := by
  intro s broken returned
  obtain ⟨hexec, hblock, hloop, hrun, hbody, hcall⟩ := signals_contained 10 10
  refine ⟨⟨default, _, rfl, ?_⟩, ⟨default, _, rfl, ?_⟩, ⟨default, _, _, rfl, ?_⟩,
    ⟨.new 10 (.ofInput []), ⟨[.while s (.bool s true) [.break s]]⟩, _, rfl, rfl, ?_⟩,
    ⟨default, _, _, rfl, ?_⟩, ?_⟩
  · exact (hexec 0 ⟨0, 1⟩ (.break s) default _ _ rfl).1 (.inl rfl)
  · exact (hblock 0 ⟨1, 0⟩ [broken, returned] default _ _ rfl).2 _ rfl
  · exact hloop 0 .top broken default _ _ rfl rfl
  · exact hrun (.new 10 (.ofInput [])) ⟨[.while s (.bool s true) [.break s]]⟩ _ rfl
  · exact hbody 0 ⟨0, 1⟩ ⟨[], [], [broken]⟩ default _ _ rfl
  · obtain ⟨frame, inner, signal, outer, hframe, hs, -, hv⟩ :=
      hcall 0 ⟨0, 1⟩ ⟨[], [], [broken, returned]⟩ [] s default (.bool true) _ rfl
    exact ⟨default, _, frame, inner, signal, outer, rfl, hframe, hs, hv⟩

end Scriptlet
