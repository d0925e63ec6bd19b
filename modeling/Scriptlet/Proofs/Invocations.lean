import Scriptlet.Proofs.Atomicity
import Scriptlet.Proofs.Isolation
import Scriptlet.Proofs.Signals

/-!
Which evaluations take place inside an evaluation.

A task carries out its plan, so plans say which tasks are run in the course of a task, and from which
worlds (`Task.Nested`), and a fault is raised by an action of one of these (`Task.exists_raises`).
Nothing catches it (`Task.Nested.run_eq_error`).

Calls open a frame inside the newest one and close it again. So the frames of a run are one stack, and
there are as many around the active frame as there are calls around the task: a plan preserves this
(`Task.Stacked.gets`), and hence a whole run does (`Task.Nested.stacked`).
-/
namespace Scriptlet

/-! ### Where a plan gets -/

theorem Run.ensuring_eq_error {α : Type} {a : Run α} {after : World → World} {w w' : World} {e : Stop}
    (h : a.ensuring after w = .error e w') : ∃ v, a w = .error e v := by
  rw [Run.ensuring] at h
  split at h
  · cases h
  · rename_i d v hd
    cases h
    exact ⟨v, hd⟩

namespace Plan

variable {r : Task.Runner} {α : Type}

/-- Carried out from one world, the plan gets to the rest of it in another. -/
inductive Gets (r : Task.Runner) {α : Type} : Plan α → World → Plan α → World → Prop
  | here {p : Plan α} {w : World} : Gets r p w p w
  | step {β : Type} {a : Run β} {next : β → Plan α} {x : β} {q : Plan α} {w v v' : World}
    (h : a w = .ok x v) (rest : Gets r (next x) v q v') : Gets r (.step a next) w q v'
  | invoke {t : Task} {next : t.Result → Plan α} {x : t.Result} {q : Plan α} {w v v' : World}
    (h : r t w = .ok x v) (rest : Gets r (next x) v q v') : Gets r (.invoke t next) w q v'
  | within {t : Task} {leave : World → World} {next : t.Result → Plan α} {x : t.Result} {q : Plan α}
    {w v v' : World} (h : r t w = .ok x v) (rest : Gets r (next x) (leave v) q v') :
    Gets r (.within t leave next) w q v'

/-- The task that a plan begins with. -/
def task? : Plan α → Option Task
  | act _ | step _ _ => none
  | only t | invoke t _ | within t _ _ => some t

/-- The action that a plan begins with stops. -/
def StopsAt (e : Stop) (w : World) : Plan α → Prop
  | act a => ∃ v, a w = .error e v
  | step a _ => ∃ v, a w = .error e v
  | only _ | invoke _ _ | within _ _ _ => False

/-- All actions of the plan, whatever comes before them, satisfy `P`. -/
def Acts (P : {β : Type} → Run β → Prop) {α : Type} : Plan α → Prop
  | act a => P a
  | step a next => P a ∧ ∀ x, (next x).Acts P
  | only _ => True
  | invoke _ next => ∀ x, (next x).Acts P
  | within _ _ next => ∀ x, (next x).Acts P

theorem Acts.ite {P : {β : Type} → Run β → Prop} {c : Prop} [Decidable c] {p q : Plan α}
    (hp : p.Acts P) (hq : q.Acts P) : (if c then p else q).Acts P := by
  split
  · exact hp
  · exact hq

theorem Gets.acts {P : {β : Type} → Run β → Prop} {p q : Plan α} {w v : World} (h : Gets r p w q v)
    (hp : p.Acts P) : q.Acts P := by
  induction h with
  | here => exact hp
  | step _ _ ih => exact ih (hp.2 _)
  | invoke _ _ ih => exact ih (hp _)
  | within _ _ ih => exact ih (hp _)

theorem Acts.of_stopsAt {P : {β : Type} → Run β → Prop} {p : Plan α} {e : Stop} {w : World}
    (hp : p.Acts P) (h : p.StopsAt e w) :
    ∃ (β : Type) (a : Run β) (v : World), P a ∧ a w = .error e v := by
  cases p with
  | act a =>
    obtain ⟨v, hv⟩ := h
    exact ⟨_, a, v, hp, hv⟩
  | step a next =>
    obtain ⟨v, hv⟩ := h
    exact ⟨_, a, v, hp.1, hv⟩
  | only | invoke | within => exact h.elim

/-- A plan stops where one of its actions does, or one of its tasks. -/
theorem exists_stop {p : Plan α} {w w' : World} {e : Stop} (h : p.run r w = .error e w') :
    ∃ q v, Gets r p w q v ∧ (q.StopsAt e v ∨ ∃ u v', q.task? = some u ∧ r u v = .error e v') := by
  induction p generalizing w with
  | act a => exact ⟨_, w, .here, .inl ⟨w', h⟩⟩
  | only t => exact ⟨_, w, .here, .inr ⟨t, w', rfl, h⟩⟩
  | step a next ih =>
    rcases Actions.bind_eq_error.mp h with h | ⟨x, v, hx, h⟩
    · exact ⟨_, w, .here, .inl ⟨w', h⟩⟩
    · obtain ⟨q, v', hq, hstop⟩ := ih x h
      exact ⟨q, v', .step hx hq, hstop⟩
  | invoke t next ih =>
    rcases Actions.bind_eq_error.mp h with h | ⟨x, v, hx, h⟩
    · exact ⟨_, w, .here, .inr ⟨t, w', rfl, h⟩⟩
    · obtain ⟨q, v', hq, hstop⟩ := ih x h
      exact ⟨q, v', .invoke hx hq, hstop⟩
  | within t leave next ih =>
    rcases Actions.bind_eq_error.mp h with h | ⟨x, v, hx, h⟩
    · obtain ⟨v, hv⟩ := Run.ensuring_eq_error h
      exact ⟨_, w, .here, .inr ⟨t, v, rfl, hv⟩⟩
    · obtain ⟨u, hu, rfl⟩ := Run.ensuring_eq_ok hx
      obtain ⟨q, v', hq, hstop⟩ := ih x h
      exact ⟨q, v', .within hu hq, hstop⟩

/-- What is left of a plan does the rest of it. -/
theorem Gets.run_eq {p q : Plan α} {w v : World} (h : Gets r p w q v) : p.run r w = q.run r v := by
  have hbind : ∀ {β : Type} {a : Run β} {k : β → Run α} {x : β} {w v : World}, a w = .ok x v →
      (a >>= k) w = k x v := by
    intro β a k x w v ha
    show EStateM.bind a k w = k x v
    rw [EStateM.bind, ha]
  induction h with
  | here => rfl
  | step ha _ ih => exact (hbind ha).trans ih
  | invoke ht _ ih => exact (hbind ht).trans ih
  | @within t leave next x q w v v' ht _ ih =>
    have hensuring : Run.ensuring (r t) leave w = .ok x (leave v) := by
      rw [Run.ensuring, ht]
    exact (hbind hensuring).trans ih

/-- A plan stops where its first task does. -/
theorem run_eq_error {p : Plan α} {u : Task} (hu : p.task? = some u) {w v : World} {e : Stop}
    (h : r u w = .error e v) : ∃ v', p.run r w = .error e v' := by
  cases p with
  | act | step => cases hu
  | only t =>
    cases hu
    exact ⟨v, h⟩
  | invoke t next =>
    cases hu
    exact ⟨v, Actions.bind_eq_error.mpr (.inl h)⟩
  | within t leave next =>
    cases hu
    refine ⟨leave v, Actions.bind_eq_error.mpr (.inl ?_)⟩
    rw [Run.ensuring, h]

end Plan

/-! ### Tasks inside a task -/

namespace Task

/-- In the course of one task, with some fuel and from some world, another one is run. -/
inductive Nested (limit : Nat) : Nat → Task → World → Nat → Task → World → Prop
  | self {fuel : Nat} {t : Task} {w : World} : Nested limit fuel t w fuel t w
  | inner {fuel k : Nat} {t u t' : Task} {q : Plan t.Result} {w v w' : World}
    (gets : (t.plan limit).Gets (fun u => u.run limit fuel) w q v) (invokes : q.task? = some u)
    (rest : Nested limit fuel u v k t' w') : Nested limit (fuel + 1) t w k t' w'

namespace Nested

variable {limit fuel k : Nat} {t u : Task} {w v : World}

/-- A task that is run in the course of another one is that one, or some task invokes it. -/
theorem eq_or_invoked (h : Nested limit fuel t w k u v) :
    (fuel = k ∧ t = u ∧ w = v) ∨ ∃ t' w' q, Nested limit fuel t w (k + 1) t' w' ∧
      (t'.plan limit).Gets (fun u => u.run limit k) w' q v ∧ q.task? = some u := by
  induction h with
  | self => exact .inl ⟨rfl, rfl, rfl⟩
  | inner gets invokes rest ih =>
    rcases ih with ⟨rfl, rfl, rfl⟩ | ⟨t', w', q, hnested, hgets, hinvokes⟩
    · exact .inr ⟨_, _, _, .self, gets, invokes⟩
    · exact .inr ⟨t', w', q, .inner gets invokes hnested, hgets, hinvokes⟩

/-- What such a task invokes is run as well. -/
theorem invoked (h : Nested limit fuel t w (k + 1) u v) {t' : Task} {q : Plan u.Result} {v' : World}
    (hgets : (u.plan limit).Gets (fun u => u.run limit k) v q v') (hinvokes : q.task? = some t') :
    Nested limit fuel t w k t' v' := by
  generalize hk : k + 1 = m at h
  induction h with
  | self =>
    subst hk
    exact .inner hgets hinvokes .self
  | inner gets invokes _ ih => exact .inner gets invokes (ih hgets hinvokes hk)

/-- Nothing catches a stop. -/
theorem run_eq_error (h : Nested limit fuel t w k u v) {e : Stop} {v' : World}
    (hstop : u.run limit k v = .error e v') : ∃ w', t.run limit fuel w = .error e w' := by
  induction h with
  | self => exact ⟨v', hstop⟩
  | inner gets invokes _ ih =>
    obtain ⟨w', hw'⟩ := ih hstop
    rw [run_succ, gets.run_eq]
    exact Plan.run_eq_error invokes hw'

end Nested

/-- In the course of one task, the fault is raised by an action of another one, in this world. -/
def Raises (limit fuel : Nat) (t : Task) (w : World) (f : Fault) (u : Task) (v : World) : Prop :=
  ∃ k v₀ q, Nested limit fuel t w (k + 1) u v₀ ∧
    (u.plan limit).Gets (fun u => u.run limit k) v₀ q v ∧ q.StopsAt (.fault f) v

/-- **Every fault is raised somewhere**, by an action of a task that is run in the course of the one
that faults. -/
theorem exists_raises {limit fuel : Nat} {t : Task} {w w' : World} {f : Fault}
    (h : t.run limit fuel w = .error (.fault f) w') : ∃ u v, t.Raises limit fuel w f u v := by
  induction fuel generalizing t w w' with
  | zero =>
    rw [run_zero] at h
    cases h
  | succ fuel ih =>
    rw [run_succ] at h
    -- the task's own action stopped, or a task that it invoked, with less fuel
    obtain ⟨q, v, hq, hstop | ⟨u, v', hu, hstop⟩⟩ := Plan.exists_stop h
    · exact ⟨t, v, fuel, w, q, .self, hq, hstop⟩
    · obtain ⟨t', v'', k, v₀, q', hnested, hq', hstop'⟩ := ih hstop
      exact ⟨t', v'', k, v₀, q', .inner hq hu hnested, hq', hstop'⟩

end Task

/-! ### Frames and calls -/

/-- The frames of so many calls: around each frame are all those before it, the newest first. -/
def frameStack (n : Nat) : List (List FrameId) :=
  (List.range n).map fun k => (List.range k).reverse

theorem frameStack_succ (n : Nat) : frameStack (n + 1) = frameStack n ++ [(List.range n).reverse] := by
  simp [frameStack, List.range_succ]

theorem Scopes.size_of_frameStack {s : Scopes} {n : Nat} (h : s.shape = frameStack n) :
    s.frames.size = n := by
  rw [← length_shape, h, frameStack, List.length_map, List.length_range]

/-- The chain of a frame goes down to the global one. -/
theorem Scopes.chain_of_frameStack {s : Scopes} {n : Nat} (h : s.shape = frameStack n) {f : FrameId}
    (hf : f < n) : s.chain f = (List.range (f + 1)).reverse := by
  rw [Scopes.chain_eq, h, List.range_succ, List.reverse_append]
  simp [frameStack, hf]

/-- A frame inside the newest one has all before it around. -/
theorem around_frameStack (n : Nat) :
    Scopes.around (frameStack (n + 1)) n = (List.range (n + 1)).reverse := by
  simp [Scopes.around, frameStack, List.range_succ]

namespace Task

/-- The frames are those of the calls around the task, and its own is the newest. -/
structure Stacked (t : Task) (w : World) : Prop where
  shape : w.scopes.shape = frameStack (t.env + 1)
  calls : t.depth.calls = t.env

end Task

namespace Run

/-- The action leaves the frames that are there. -/
def LeavesFrames {α : Type} (a : Run α) : Prop :=
  ∀ w x v, a w = .ok x v → v.scopes.shape = w.scopes.shape

theorem LeavesFrames.of_onlyReads {α : Type} {a : Run α} (h : Actions.OnlyReads a) :
    a.LeavesFrames := by
  intro w x v hx
  rw [h.eq_of_ok hx]

theorem rangeBound_leavesFrames (v : Value) (span : Span) : LeavesFrames (rangeBound v span) := by
  refine .of_onlyReads fun w => ?_
  cases v with
  | float x =>
    have hbound : rangeBound (.float x) span = if Number.isWhole x then pure x else
        fault (.rangeBound (Value.float x).describe) span := rfl
    rw [hbound]
    cases Number.isWhole x with
    | true => exact .inl ⟨x, rfl⟩
    | false => exact .inr ⟨_, rfl⟩
  | _ => exact .inr ⟨_, rfl⟩

theorem rangeStep_leavesFrames (cmp : Located BinaryOp) (first last : Float) (span : Span) :
    LeavesFrames (rangeStep cmp first last span) := by
  refine .of_onlyReads fun w => ?_
  obtain ⟨op, p⟩ := cmp
  unfold rangeStep
  cases op with
  | lt | le | gt | ge =>
    dsimp only
    split
    · exact .inr ⟨_, rfl⟩
    · exact .inl ⟨_, rfl⟩
  | _ => exact .inr ⟨_, rfl⟩

theorem modifyScopes_leavesFrames {f : Scopes → Scopes} (hf : ∀ s, (f s).shape = s.shape) :
    LeavesFrames (modifyScopes f) := by
  intro w x w' h
  cases h
  exact hf w.scopes

theorem rangeCounter_leavesFrames (env : FrameId) (x : Located String) :
    LeavesFrames (rangeCounter env x) := by
  intro w i w' h
  obtain ⟨s, v, hs, h⟩ := Actions.bind_eq_ok.mp h
  cases hs
  generalize Option.map Binding.value (w.scopes.find? env x.val) = value? at h
  cases value? with
  | none => cases h
  | some value =>
    cases value with
    | float j =>
      cases h
      rfl
    | _ => cases h

/-- A call opens one frame, inside the active one. -/
theorem enterFrame_eq_ok {env frame : FrameId} {params : List (Located String)} {args : List Value}
    {w w' : World} (h : enterFrame env params args w = .ok frame w') :
    frame = w.scopes.frames.size ∧
      w'.scopes.shape = w.scopes.shape ++ [Scopes.around w.scopes.shape env] := by
  have hbind : ∀ (l : List (Located String × Value)) (s : Scopes) (f : FrameId),
      (l.foldl (fun s p => s.add f p.1.val ⟨p.2, true⟩) s).shape = s.shape := by
    intro l s f
    induction l generalizing s with
    | nil => rfl
    | cons p l ih => rw [List.foldl_cons, ih, Scopes.shape_add]
  cases h
  exact ⟨rfl, (hbind _ _ _).trans (Scopes.shape_child _ _)⟩

end Run

namespace Plan

variable {α : Type} {env : FrameId} {calls : Nat}

/-- The tasks of the plan are in one frame, inside so many calls, and the actions before them leave
the frames that are there. -/
def Stays (env : FrameId) (calls : Nat) {α : Type} : Plan α → Prop
  | act _ => True
  | step a next => a.LeavesFrames ∧ ∀ x, (next x).Stays env calls
  | only t => t.env = env ∧ t.depth.calls = calls
  | invoke t next => (t.env = env ∧ t.depth.calls = calls) ∧ ∀ x, (next x).Stays env calls
  | within t leave next =>
    (t.env = env ∧ t.depth.calls = calls) ∧ (∀ w, (leave w).scopes.shape = w.scopes.shape) ∧
      ∀ x, (next x).Stays env calls

theorem Stays.ite {c : Prop} [Decidable c] {p q : Plan α} (hp : p.Stays env calls)
    (hq : q.Stays env calls) : (if c then p else q).Stays env calls := by
  split
  · exact hp
  · exact hq

theorem Stays.of_task? {p : Plan α} {u : Task} (h : p.Stays env calls) (hu : p.task? = some u) :
    u.env = env ∧ u.depth.calls = calls := by
  cases p with
  | act | step => cases hu
  | only t =>
    cases hu
    exact h
  | invoke t next | within t leave next =>
    cases hu
    exact h.1

/-- What is left of such a plan is such a plan, in a world with the same frames. -/
theorem Gets.stays {r : Task.Runner}
    (hr : ∀ t w x v, r t w = .ok x v → v.scopes.shape = w.scopes.shape) {p q : Plan α} {w v : World}
    (h : Gets r p w q v) (hp : p.Stays env calls) :
    v.scopes.shape = w.scopes.shape ∧ q.Stays env calls := by
  induction h with
  | here => exact ⟨rfl, hp⟩
  | step ha _ ih =>
    obtain ⟨hshape, hq⟩ := ih (hp.2 _)
    exact ⟨hshape.trans (hp.1 _ _ _ ha), hq⟩
  | invoke ht _ ih =>
    obtain ⟨hshape, hq⟩ := ih (hp.2 _)
    exact ⟨hshape.trans (hr _ _ _ _ ht), hq⟩
  | within ht _ ih =>
    obtain ⟨hshape, hq⟩ := ih (hp.2.2 _)
    exact ⟨hshape.trans ((hp.2.1 _).trans (hr _ _ _ _ ht)), hq⟩

end Plan

namespace Task

variable {limit fuel : Nat} {w v : World}

theorem planExpr_stays (env : FrameId) (depth : Depth) (e : Expr FunctionId) :
    (planExpr env depth e).Stays env depth.calls := by
  have hplace : env = env ∧ depth.calls = depth.calls := ⟨rfl, rfl⟩
  cases e with
  | number | text | bool | nil | name | function => trivial
  | array | unary | assign => exact ⟨hplace, fun _ => trivial⟩
  | group => exact hplace
  | binary span op left right =>
    cases op with
    | and => exact ⟨hplace, fun v => .ite hplace trivial⟩
    | or => exact ⟨hplace, fun v => .ite trivial hplace⟩
    | _ => exact ⟨hplace, fun _ => ⟨hplace, fun _ => trivial⟩⟩
  | conditional => exact ⟨hplace, fun v => .ite hplace hplace⟩
  | call span callee args =>
    refine ⟨hplace, fun f => ?_⟩
    cases f with
    | function f => exact .ite ⟨hplace, fun _ => hplace⟩ trivial
    | native n => exact .ite ⟨hplace, fun _ => trivial⟩ trivial
    | _ => trivial
  | index => exact ⟨hplace, fun _ => ⟨hplace, fun _ => trivial⟩⟩
  | slice => exact ⟨hplace, fun _ => ⟨hplace, fun _ => ⟨hplace, fun _ => trivial⟩⟩⟩
  | assignIndex => exact .ite trivial ⟨hplace, fun _ => ⟨hplace, fun _ => trivial⟩⟩

theorem planStmt_stays (env : FrameId) (depth : Depth) (s : Stmt FunctionId) :
    (planStmt env depth s).Stays env depth.calls := by
  have hplace : env = env ∧ depth.calls = depth.calls := ⟨rfl, rfl⟩
  cases s with
  | expr => exact ⟨hplace, fun _ => trivial⟩
  | block | «while» => exact hplace
  | cond span test yes no =>
    cases no with
    | none => exact ⟨hplace, fun v => .ite hplace trivial⟩
    | some no => exact ⟨hplace, fun v => .ite hplace hplace⟩
  | range span x cmp first last body =>
    have hbound : ∀ v p, Run.LeavesFrames (Run.rangeBound v p) := Run.rangeBound_leavesFrames
    exact ⟨hplace, fun v => ⟨hbound v _, fun i => ⟨hplace, fun w => ⟨hbound w _, fun j =>
      ⟨Run.rangeStep_leavesFrames cmp i j _, fun step => ⟨Run.modifyScopes_leavesFrames fun s =>
        Scopes.shape_add s _ _ _, fun _ => ⟨hplace, fun w => Scopes.shape_remove _ _ _,
          fun _ => trivial⟩⟩⟩⟩⟩⟩⟩
  | «break» | «continue» => exact .ite trivial trivial
  | «return» => exact .ite ⟨hplace, fun _ => trivial⟩ trivial

/-- A task that is no call stays in its frame. -/
theorem plan_stays {t : Task} (ht : ∀ env depth f args span, t ≠ .call env depth f args span) :
    (t.plan limit).Stays t.env t.depth.calls := by
  cases t with
  | eval env depth e => exact planExpr_stays env depth e
  | exec env depth s => exact planStmt_stays env depth s
  | call env depth f args span => exact absurd rfl (ht env depth f args span)
  | evalAll env depth es =>
    cases es with
    | nil => trivial
    | cons e es => exact ⟨⟨rfl, rfl⟩, fun _ => ⟨⟨rfl, rfl⟩, fun _ => trivial⟩⟩
  | evalOr env depth absent e =>
    cases e with
    | none => trivial
    | some e => exact ⟨rfl, rfl⟩
  | execBlock env depth ss =>
    cases ss with
    | nil => trivial
    | cons s ss =>
      refine ⟨⟨rfl, rfl⟩, fun signal => ?_⟩
      cases signal with
      | normal => exact ⟨rfl, rfl⟩
      | _ => trivial
  | execWhile env depth test body =>
    refine ⟨⟨rfl, rfl⟩, fun v => .ite ⟨⟨rfl, rfl⟩, fun signal => ?_⟩ trivial⟩
    cases signal with
    | normal | «continue» => exact ⟨rfl, rfl⟩
    | _ => trivial
  | execRange env depth x cmp last step body =>
    refine ⟨Run.rangeCounter_leavesFrames env x, fun i => .ite ⟨⟨rfl, rfl⟩, fun signal => ?_⟩ trivial⟩
    cases signal with
    | normal | «continue» =>
      exact ⟨Run.rangeCounter_leavesFrames env x, fun i =>
        ⟨Run.modifyScopes_leavesFrames fun s => Scopes.shape_add s _ _ _, fun _ => ⟨rfl, rfl⟩⟩⟩
    | _ => trivial

/-- Nothing stops a plan that is done. -/
theorem not_stopsAt_done {α : Type} {x : α} {e : Stop} : ¬ (Plan.done x).StopsAt e w := by
  rintro ⟨v, h⟩
  cases h

/-- A call is about to open its frame, or in the frame it runs its body, if the limit has room for it, or
only its result is left. -/
theorem call_gets {r : Task.Runner} {env : FrameId} {depth : Depth} {f : Function}
    {args : List Value} {span : Span} {q : Plan Value}
    (hq : ((Task.call env depth f args span).plan limit).Gets r w q v) :
    (v = w ∧ q.task? = none) ∨
    (¬ limit < depth.enterCall.calls ∧ ∃ frame, Run.enterFrame env f.params args w = .ok frame v ∧
      q.task? = some (.execBlock frame depth.enterCall f.body) ∧ ∀ e, ¬ q.StopsAt e v) ∨
    (q.task? = none ∧ ∀ e, ¬ q.StopsAt e v) := by
  rw [plan] at hq
  split at hq
  · -- the limit stops the call before a frame is opened
    cases hq
    exact .inl ⟨rfl, rfl⟩
  · rename_i hroom
    cases hq with
    | here => exact .inl ⟨rfl, rfl⟩
    | @step _ _ _ frame _ _ _ _ hframe hq =>
      cases hq with
      | here => exact .inr (.inl ⟨hroom, frame, hframe, rfl, fun _ => False.elim⟩)
      | @within _ _ _ signal _ _ _ _ _ hq =>
        cases signal with
        | normal | «break» | «continue» | «return» =>
          cases hq
          exact .inr (.inr ⟨rfl, fun _ => not_stopsAt_done⟩)

/-- A call stops in its own frame, and its body is run in a new one on top of it. -/
theorem Stacked.of_call {env : FrameId} {depth : Depth} {f : Function} {args : List Value} {span : Span}
    {q : Plan Value} (h : (Task.call env depth f args span).Stacked w)
    (hq : ((Task.call env depth f args span).plan limit).Gets (fun u => u.run limit fuel) w q v) :
    (∀ u, q.task? = some u → u.Stacked v) ∧
      ∀ e, q.StopsAt e v → v.scopes.shape = w.scopes.shape := by
  rcases call_gets hq with ⟨rfl, hnone⟩ | ⟨-, frame, hframe, hbody, hstops⟩ | ⟨hnone, hstops⟩
  · exact ⟨fun u hu => (by cases hnone.symm.trans hu), fun _ _ => rfl⟩
  · refine ⟨fun u hu => ?_, fun e he => absurd he (hstops e)⟩
    cases hbody.symm.trans hu
    obtain ⟨rfl, hshape⟩ := Run.enterFrame_eq_ok hframe
    have hstack : w.scopes.shape = frameStack (env + 1) := h.shape
    have hsize : w.scopes.frames.size = env + 1 := Scopes.size_of_frameStack hstack
    refine ⟨?_, ?_⟩
    · show v.scopes.shape = frameStack (w.scopes.frames.size + 1)
      rw [hshape, hsize, hstack, frameStack_succ (env + 1), around_frameStack]
    · show depth.calls + 1 = w.scopes.frames.size
      rw [hsize]
      exact congrArg Nat.succ h.calls
  · exact ⟨fun u hu => (by cases hnone.symm.trans hu), fun e he => absurd he (hstops e)⟩

/-- **Frames and calls agree.** What a task gets to is in the frame of the task, or in a new one on top
of it for the body of a call. -/
theorem Stacked.gets {t : Task} {q : Plan t.Result} (h : t.Stacked w)
    (hq : (t.plan limit).Gets (fun u => u.run limit fuel) w q v) :
    (∀ u, q.task? = some u → u.Stacked v) ∧
      ∀ e, q.StopsAt e v → v.scopes.shape = w.scopes.shape := by
  by_cases hcall : ∃ env depth f args span, t = .call env depth f args span
  · obtain ⟨env, depth, f, args, span, rfl⟩ := hcall
    exact h.of_call hq
  · have hstays : (t.plan limit).Stays t.env t.depth.calls :=
      plan_stays fun env depth f args span ht => hcall ⟨env, depth, f, args, span, ht⟩
    obtain ⟨hshape, hq⟩ := hq.stays (fun _ _ _ _ => shape_run) hstays
    refine ⟨fun u hu => ?_, fun _ _ => hshape⟩
    obtain ⟨henv, hcalls⟩ := hq.of_task? hu
    exact ⟨by rw [hshape, h.shape, henv], by rw [henv, hcalls, h.calls]⟩

/-- So they agree throughout a run. -/
theorem Nested.stacked {k : Nat} {t u : Task} (hn : Nested limit fuel t w k u v) (h : t.Stacked w) :
    u.Stacked v := by
  induction hn with
  | self => exact h
  | inner gets invokes _ ih => exact ih ((h.gets gets).1 _ invokes)

theorem Raises.stacked {t u : Task} {f : Fault} (hraises : t.Raises limit fuel w f u v)
    (h : t.Stacked w) : u.Stacked v := by
  obtain ⟨k, v₀, q, hn, hq, hstop⟩ := hraises
  have hu := hn.stacked h
  exact ⟨((hu.gets hq).2 _ hstop).trans hu.shape, hu.calls⟩

end Task
end Scriptlet
