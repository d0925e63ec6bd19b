import Mathlib.Logic.Basic
import Scriptlet.Eval.Basic

/-!
Evaluation as tasks with plans.

A task is one of the functions of evaluation with its arguments. What it does by itself is its plan:
actions, and other tasks that it invokes in between. The rules of evaluation are opened here only:
with some fuel a task carries out its plan, and invokes the others with less (`Task.run_succ`). So what
holds of tasks that are done in any way, and then also of those that carry out their plans with these,
holds of evaluation (`Task.run_induction`).
-/
namespace Scriptlet

/-! ### Tasks -/

/-- One of the functions of evaluation with its arguments, but for the fuel. -/
inductive Task where
  | eval (env : FrameId) (depth : Depth) (e : Expr FunctionId)
  | evalAll (env : FrameId) (depth : Depth) (es : List (Expr FunctionId))
  | evalOr (env : FrameId) (depth : Depth) (absent : Value) (e : Option (Expr FunctionId))
  | call (env : FrameId) (depth : Depth) (f : Function) (args : List Value) (span : Span)
  | exec (env : FrameId) (depth : Depth) (s : Stmt FunctionId)
  | execBlock (env : FrameId) (depth : Depth) (ss : Block FunctionId)
  | execWhile (env : FrameId) (depth : Depth) (test : Expr FunctionId) (body : Block FunctionId)
  | execRange (env : FrameId) (depth : Depth) (x : Located String) (cmp : BinaryOp)
      (last step : Float) (body : Block FunctionId)

/-- What a call makes of the signal of its body. -/
def Signal.result : Signal → Value
  | .return v => v
  | _ => .nil

namespace Task

/-- The active frame. -/
def env : Task → FrameId
  | eval env .. | evalAll env .. | evalOr env .. | call env .. | exec env .. | execBlock env ..
  | execWhile env .. | execRange env .. => env

/-- The calls and loops around. -/
def depth : Task → Depth
  | eval _ depth .. | evalAll _ depth .. | evalOr _ depth .. | call _ depth .. | exec _ depth ..
  | execBlock _ depth .. | execWhile _ depth .. | execRange _ depth .. => depth

/-- What a task gives. -/
abbrev Result : Task → Type
  | eval .. | evalOr .. | call .. => Value
  | evalAll .. => List Value
  | exec .. | execBlock .. | execWhile .. | execRange .. => Signal

/-- A way to do all tasks. -/
abbrev Runner := (t : Task) → Run t.Result

/-- The action of a task. -/
def run (limit fuel : Nat) : Runner
  | eval env depth e => Scriptlet.eval limit fuel env depth e
  | evalAll env depth es => Scriptlet.evalAll limit fuel env depth es
  | evalOr env depth absent e => Scriptlet.evalOr limit fuel env depth absent e
  | call env depth f args span => Scriptlet.call limit fuel env depth f args span
  | exec env depth s => Scriptlet.exec limit fuel env depth s
  | execBlock env depth ss => Scriptlet.execBlock limit fuel env depth ss
  | execWhile env depth test body => Scriptlet.execWhile limit fuel env depth test body
  | execRange env depth x cmp last step body =>
    Scriptlet.execRange limit fuel env depth x cmp last step body

end Task

/-! ### Plans -/

/-- What is done, one thing after the other: actions, and other tasks. -/
inductive Plan : Type → Type 1 where
  /-- An action, and nothing else. -/
  | act {α : Type} (a : Run α) : Plan α
  /-- An action, and what is done with its result. -/
  | step {α β : Type} (a : Run β) (next : β → Plan α) : Plan α
  /-- A task, and nothing else. -/
  | only (t : Task) : Plan t.Result
  /-- A task, and what is done with its result. -/
  | invoke {α : Type} (t : Task) (next : t.Result → Plan α) : Plan α
  /-- A task that is followed by something however it ends. -/
  | within {α : Type} (t : Task) (leave : World → World) (next : t.Result → Plan α) : Plan α

namespace Plan

/-- Carry out a plan, with the tasks done as given. -/
def run (r : Task.Runner) {α : Type} : Plan α → Run α
  | act a => a
  | step a next => a >>= fun x => (next x).run r
  | only t => r t
  | invoke t next => r t >>= fun x => (next x).run r
  | within t leave next => Run.ensuring (r t) leave >>= fun x => (next x).run r

def done {α : Type} (x : α) : Plan α :=
  act (pure x)

end Plan

namespace Task

open Plan (done only)

/-- What an expression does besides the evaluation of its parts. -/
def planExpr (env : FrameId) (depth : Depth) : Expr FunctionId → Plan Value
  | .number _ x => done (.float x)
  | .text _ s => .act (Run.newText (.ofList s.toList))
  | .bool _ b => done (.bool b)
  | .nil _ => done .nil
  | .array _ items => .invoke (.evalAll env depth items) fun vs => .act (Run.newArray (.ofList vs))
  | .group _ inner => only (.eval env depth inner)
  | .name span global x => .act (Run.readName env global x span)
  | .binary _ .and left right => .invoke (.eval env depth left) fun v =>
    if v.truthy then only (.eval env depth right) else done v
  | .binary _ .or left right => .invoke (.eval env depth left) fun v =>
    if v.truthy then done v else only (.eval env depth right)
  | .binary span op left right =>
    .invoke (.eval env depth left) fun v => .invoke (.eval env depth right) fun w =>
      .act (Run.binary op v w span)
  | .unary span op operand =>
    .invoke (.eval env depth operand) fun v => .act (Run.unary op v span)
  | .conditional _ test yes no => .invoke (.eval env depth test) fun v =>
    if v.truthy then only (.eval env depth yes) else only (.eval env depth no)
  | .call span callee args => .invoke (.eval env depth callee) fun
    | .function f =>
      if f.params.length = args.length then
        .invoke (.evalAll env depth args) fun vs => only (.call env depth f vs span)
      else
        .act (Run.fault (.arity callee.calleeName (.exactly f.params.length) args.length) span)
    | .native n =>
      if n.arity.accepts args.length then
        .invoke (.evalAll env depth args) fun vs => .act (Run.native n vs span)
      else
        .act (Run.fault (.arity n.signature n.arity args.length) span)
    | v => .act (Run.fault (.notCallable v.kind) callee.span)
  | .index span target i =>
    .invoke (.eval env depth target) fun v => .invoke (.eval env depth i) fun i =>
      .act (Run.index v i span)
  | .slice span target start stop =>
    .invoke (.eval env depth target) fun v =>
    .invoke (.evalOr env depth (.float Number.negativeInfinity) start) fun start =>
    .invoke (.evalOr env depth (.float Number.infinity) stop) fun stop =>
      .act (Run.slice v start stop span)
  | .assign span global constant x value =>
    .invoke (.eval env depth value) fun v => .act (Run.assign env global constant x v span)
  | .assignIndex span global constant x i value =>
    if constant then .act (Run.fault (.constantElement x) span)
    else
      .invoke (.eval env depth i) fun i => .invoke (.eval env depth value) fun v =>
        .act (Run.assignElement env global x i v span)
  | .function _ id params body => done (.function ⟨id, params, body⟩)

/-- What a statement does besides what is inside it. -/
def planStmt (env : FrameId) (depth : Depth) : Stmt FunctionId → Plan Signal
  | .expr _ e => .invoke (.eval env depth e) fun _ => done .normal
  | .block _ body => only (.execBlock env depth body)
  | .cond _ test yes no => .invoke (.eval env depth test) fun v =>
    if v.truthy then only (.execBlock env depth yes)
    else
      match no with
      | some no => only (.execBlock env depth no)
      | none => done .normal
  | .while _ test body => only (.execWhile env depth test body)
  | .range _ x cmp first last body =>
    .invoke (.eval env depth first) fun v => .step (Run.rangeBound v first.span) fun i =>
    .invoke (.eval env depth last) fun w => .step (Run.rangeBound w last.span) fun j =>
    .step (Run.rangeStep cmp i j (first.span.merge last.span)) fun step =>
    .step (Run.modifyScopes (·.add env x.val ⟨.float i, true⟩)) fun _ =>
    .within (.execRange env depth x cmp.val j step body)
      (fun w => { w with scopes := w.scopes.remove env x.val }) done
  | .break span =>
    if depth.inLoop then done .break else .act (Run.fault .breakOutsideLoop span)
  | .continue span =>
    if depth.inLoop then done .continue else .act (Run.fault .continueOutsideLoop span)
  | .return span value =>
    if depth.inCall then .invoke (.evalOr env depth .nil value) fun v => done (.return v)
    else .act (Run.fault .returnOutsideFunction span)

/-- What a task does besides the tasks that it invokes. -/
def plan (limit : Nat) : (t : Task) → Plan t.Result
  | eval env depth e => planExpr env depth e
  | evalAll _ _ [] => done []
  | evalAll env depth (e :: es) =>
    .invoke (.eval env depth e) fun v => .invoke (.evalAll env depth es) fun vs => done (v :: vs)
  | evalOr _ _ absent none => done absent
  | evalOr env depth _ (some e) => only (.eval env depth e)
  | call env depth f args span =>
    if limit < depth.enterCall.calls then .act (Run.fault (.stackOverflow limit) span)
    else
      .step (Run.enterFrame env f.params args) fun frame =>
      .within (.execBlock frame depth.enterCall f.body) Run.leaveFrame fun
        | .return v => done v
        | _ => done .nil
  | exec env depth s => planStmt env depth s
  | execBlock _ _ [] => done .normal
  | execBlock env depth (s :: rest) => .invoke (.exec env depth s) fun
    | .normal => only (.execBlock env depth rest)
    | signal => done signal
  | execWhile env depth test body => .invoke (.eval env depth test) fun v =>
    if v.truthy then
      .invoke (.execBlock env depth.enterLoop body) fun
        | .break => done .normal
        | .return v => done (.return v)
        | _ => only (.execWhile env depth test body)
    else done .normal
  | execRange env depth x cmp last step body => .step (Run.rangeCounter env x) fun i =>
    if Run.compare cmp i last then
      .invoke (.execBlock env depth.enterLoop body) fun
        | .break => done .normal
        | .return v => done (.return v)
        | _ =>
          .step (Run.rangeCounter env x) fun i =>
          .step (Run.modifyScopes (·.add env x.val ⟨.float (i + step), true⟩)) fun _ =>
          only (.execRange env depth x cmp last step body)
    else done .normal

/-- Carry out the plan of each task, with the tasks that it invokes done as given. -/
def carryOut (limit : Nat) (r : Runner) : Runner :=
  fun t => (t.plan limit).run r

/-- A choice between plans is a choice between actions. -/
theorem run_ite {α : Type} (r : Runner) (c : Prop) [Decidable c] (p q : Plan α) :
    (if c then p else q).run r = if c then p.run r else q.run r :=
  apply_ite (Plan.run r) c p q

/-- A call that the limit has room for: the frame is there for the body only, and what is left of the
signal is the result. -/
theorem carryOut_call {limit : Nat} (r : Runner) {env : FrameId} {depth : Depth} {f : Function}
    {args : List Value} {span : Span} (hroom : ¬ limit < depth.enterCall.calls) :
    carryOut limit r (.call env depth f args span) =
      (Run.enterFrame env f.params args >>= fun frame =>
        Run.ensuring (r (.execBlock frame depth.enterCall f.body)) Run.leaveFrame) >>=
      fun signal => pure signal.result := by
  rw [carryOut, plan, if_neg hroom, bind_assoc]
  refine bind_congr fun frame => bind_congr fun signal => ?_
  cases signal <;> rfl

variable {limit fuel : Nat}

theorem run_planExpr (env : FrameId) (depth : Depth) (e : Expr FunctionId) :
    Scriptlet.eval limit (fuel + 1) env depth e =
      (planExpr env depth e).run fun t => t.run limit fuel := by
  cases e with
  -- a choice that a plan makes is made between actions here
  | binary span op left right =>
    cases op with
    | and | or => simp only [Scriptlet.eval, planExpr, Plan.run, run_ite]; rfl
    | _ => rfl
  | conditional | assignIndex => simp only [Scriptlet.eval, planExpr, Plan.run, run_ite]; rfl
  | call span callee args =>
    -- the two sides agree once it is known what is called
    refine congrArg (Scriptlet.eval limit fuel env depth callee >>= ·) (funext fun f => ?_)
    cases f with
    | function | native => simp only [run_ite]; rfl
    | _ => rfl
  | _ => rfl

theorem run_planStmt (env : FrameId) (depth : Depth) (s : Stmt FunctionId) :
    Scriptlet.exec limit (fuel + 1) env depth s =
      (planStmt env depth s).run fun t => t.run limit fuel := by
  cases s with
  | cond span test yes no =>
    cases no <;> simp only [Scriptlet.exec, planStmt, Plan.run, run_ite] <;> rfl
  | range span x cmp first last body =>
    -- the loop comes last, so nothing is done with its signal
    have hloop : ∀ (t : Task) (leave : World → World),
        Run.ensuring (t.run limit fuel) leave =
          (Plan.within t leave done).run fun u => u.run limit fuel :=
      fun t leave => (bind_pure (Run.ensuring (t.run limit fuel) leave)).symm
    refine bind_congr fun v => bind_congr fun i => bind_congr fun w => bind_congr fun j => ?_
    exact bind_congr fun step => bind_congr fun _ => hloop (.execRange env depth x cmp.val j step body) _
  | «break» | «continue» | «return» =>
    simp only [Scriptlet.exec, planStmt, Plan.run, run_ite]; rfl
  | _ => rfl

/-- **A task carries out its plan.** -/
theorem run_succ (t : Task) :
    t.run limit (fuel + 1) = (t.plan limit).run fun u => u.run limit fuel := by
  cases t with
  | eval env depth e => exact run_planExpr env depth e
  | evalAll env depth es => cases es <;> rfl
  | evalOr env depth absent e => cases e <;> rfl
  | call env depth f args span =>
    simp only [run, Scriptlet.call, plan, run_ite]
    refine if_congr Iff.rfl rfl (bind_congr fun frame => bind_congr fun signal => ?_)
    cases signal <;> rfl
  | exec env depth s => exact run_planStmt env depth s
  | execBlock env depth ss =>
    cases ss with
    | nil => rfl
    | cons s ss =>
      -- here and in loops, what is done next depends on the signal
      refine congrArg (Scriptlet.exec limit fuel env depth s >>= ·) (funext fun signal => ?_)
      cases signal <;> rfl
  | execWhile env depth test body =>
    refine bind_congr fun v => ?_
    simp only [run_ite]
    refine if_congr Iff.rfl (bind_congr fun signal => ?_) rfl
    cases signal <;> rfl
  | execRange env depth x cmp last step body =>
    refine bind_congr fun i => ?_
    simp only [run_ite]
    refine if_congr Iff.rfl (bind_congr fun signal => ?_) rfl
    cases signal <;> rfl

theorem run_zero (t : Task) : t.run limit 0 = throw .outOfFuel := by
  cases t <;> rfl

/-- The tasks with some fuel are those that carry out their plans with the tasks with less. -/
theorem run_add_one (limit fuel : Nat) :
    Task.run limit (fuel + 1) = carryOut limit (Task.run limit fuel) :=
  funext fun t => t.run_succ

/-- **Induction on the fuel**: from tasks that are not done at all, by tasks that carry out their plans
with those before. -/
theorem run_induction {motive : Runner → Prop} (zero : motive fun _ => throw .outOfFuel)
    (next : ∀ r, motive r → motive (carryOut limit r)) (fuel : Nat) :
    motive (Task.run limit fuel) := by
  induction fuel with
  | zero =>
    have hzero : Task.run limit 0 = fun _ => throw .outOfFuel := funext run_zero
    rw [hzero]
    exact zero
  | succ fuel ih =>
    rw [run_add_one]
    exact next _ ih

end Task

end Scriptlet
