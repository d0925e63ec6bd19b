import Scriptlet.Proofs.Faults
import Scriptlet.Proofs.Limits
import Scriptlet.Proofs.ScopeChains

/-!
Frames and calls in step.

The active frame and the number of calls around are handed down separately, but only a call changes
them, and it changes both. So the parents of the active frame are as many as the calls around
(`Task.Stacked.ascent`), in every task of a run (`Task.inStep`), and never more than the limit
(`Task.Nested.calls_le`). Hence a `global` is refused just where a `return` is.

A call is made by a call expression only, when its callee and its arguments have been evaluated
(`Task.attempts_iff`), and it overflows if as many calls as may be are around it already. As nothing
catches a fault, a run ends with an overflow just if there is such a call in it (`Task.overflow_iff`).
-/
namespace Scriptlet

/-! ### Frames -/

theorem Scopes.outer_of_frameStack {s : Scopes} {n : Nat} (h : s.shape = frameStack n) {f : FrameId}
    (hf : f < n) : s.shape.getD f [] = (List.range f).reverse := by
  simp [h, frameStack, hf]

theorem Scopes.rooted_of_frameStack {s : Scopes} {n : Nat} (h : s.shape = frameStack (n + 1)) :
    s.Rooted := by
  intro f hpos hf
  rw [size_of_frameStack h] at hf
  obtain ⟨g, rfl⟩ := Nat.exists_eq_add_one.mpr hpos
  refine ⟨g, ?_⟩
  rw [parent?_eq, outer_of_frameStack h hf, List.range_succ, List.reverse_append]
  rfl

namespace Task

variable {limit fuel k : Nat} {t u : Task} {w v : World}

/-- From the active frame there are as many steps to the global one as there are calls around. -/
theorem Stacked.ascent (h : t.Stacked w) :
    ∃ path, w.scopes.Ascent t.env path ∧ path.getLast? = some 0 ∧ path.length = t.depth.calls + 1 := by
  have hroot := Scopes.rooted_of_frameStack h.shape
  have hsize : t.env < w.scopes.frames.size := by
    rw [Scopes.size_of_frameStack h.shape]
    exact Nat.lt_succ_self t.env
  refine ⟨_, w.scopes.ascent t.env, hroot.getLast?_chain hsize, ?_⟩
  rw [Scopes.chain_of_frameStack h.shape (Nat.lt_succ_self t.env), List.length_reverse,
    List.length_range, h.calls]

/-- The active frame is the global one just outside every call. -/
theorem Stacked.isGlobal_eq (h : t.Stacked w) : w.scopes.isGlobal t.env = !t.depth.inCall := by
  rw [Scopes.isGlobal_eq, Scopes.outer_of_frameStack h.shape (Nat.lt_succ_self t.env), Depth.inCall,
    h.calls]
  cases t.env with
  | zero => rfl
  | succ n => simp [List.range_succ]

/-! ### The limit -/

/-- What a task invokes is inside no more calls than there may be. -/
theorem calls_le_of_gets {q : Plan t.Result} (h : t.depth.calls ≤ limit)
    (hq : (t.plan limit).Gets (fun u => u.run limit fuel) w q v) (hu : q.task? = some u) :
    u.depth.calls ≤ limit := by
  by_cases hcall : ∃ env depth f args span, t = .call env depth f args span
  · obtain ⟨env, depth, f, args, span, rfl⟩ := hcall
    rcases call_gets hq with ⟨-, hnone⟩ | ⟨hroom, frame, -, hbody, -⟩ | ⟨hnone, -⟩
    · cases hnone.symm.trans hu
    · cases hbody.symm.trans hu
      exact Nat.le_of_not_lt hroom
    · cases hnone.symm.trans hu
  · have hstays : (t.plan limit).Stays t.env t.depth.calls :=
      plan_stays fun env depth f args span ht => hcall ⟨env, depth, f, args, span, ht⟩
    obtain ⟨-, hq⟩ := hq.stays (fun _ _ _ _ => shape_run) hstays
    rwa [(hq.of_task? hu).2]

theorem Nested.calls_le (hn : Nested limit fuel t w k u v) (h : t.depth.calls ≤ limit) :
    u.depth.calls ≤ limit := by
  induction hn with
  | self => exact h
  | inner gets invokes _ ih => exact ih (calls_le_of_gets h gets invokes)

end Task

/-! ### Which tasks call -/

namespace Plan

/-- All tasks of the plan, whatever comes before them, satisfy `P`. -/
def Invokes (P : Task → Prop) {α : Type} : Plan α → Prop
  | act _ => True
  | step _ next => ∀ x, (next x).Invokes P
  | only t => P t
  | invoke t next => P t ∧ ∀ x, (next x).Invokes P
  | within t _ next => P t ∧ ∀ x, (next x).Invokes P

variable {α : Type} {P : Task → Prop}

theorem Invokes.ite {c : Prop} [Decidable c] {p q : Plan α} (hp : p.Invokes P) (hq : q.Invokes P) :
    (if c then p else q).Invokes P := by
  split
  · exact hp
  · exact hq

theorem Invokes.of_task? {p : Plan α} {u : Task} (h : p.Invokes P) (hu : p.task? = some u) : P u := by
  cases p with
  | act | step => cases hu
  | only t =>
    cases hu
    exact h
  | invoke t next | within t leave next =>
    cases hu
    exact h.1

theorem Gets.invokes {r : (t : Task) → Run t.Result} {p q : Plan α} {w v : World} (h : Gets r p w q v)
    (hp : p.Invokes P) : q.Invokes P := by
  induction h with
  | here => exact hp
  | step _ _ ih => exact ih (hp _)
  | invoke _ _ ih => exact ih (hp.2 _)
  | within _ _ ih => exact ih (hp.2 _)

end Plan

namespace Task

variable {limit fuel k : Nat} {t u : Task} {w v : World}

def isCall : Task → Bool
  | call .. => true
  | _ => false

theorem planExpr_invokes (env : FrameId) (depth : Depth) {e : Expr FunctionId}
    (he : ∀ span callee args, e ≠ .call span callee args) :
    (planExpr env depth e).Invokes fun u => u.isCall = false := by
  cases e with
  | number | text | bool | nil | name | function => trivial
  | array | unary | assign => exact ⟨rfl, fun _ => trivial⟩
  | group => exact rfl
  | binary span op left right =>
    cases op with
    | and => exact ⟨rfl, fun v => .ite rfl trivial⟩
    | or => exact ⟨rfl, fun v => .ite trivial rfl⟩
    | _ => exact ⟨rfl, fun _ => ⟨rfl, fun _ => trivial⟩⟩
  | conditional => exact ⟨rfl, fun v => .ite rfl rfl⟩
  | call span callee args => exact absurd rfl (he span callee args)
  | index => exact ⟨rfl, fun _ => ⟨rfl, fun _ => trivial⟩⟩
  | slice => exact ⟨rfl, fun _ => ⟨rfl, fun _ => ⟨rfl, fun _ => trivial⟩⟩⟩
  | assignIndex => exact .ite trivial ⟨rfl, fun _ => ⟨rfl, fun _ => trivial⟩⟩

theorem planStmt_invokes (env : FrameId) (depth : Depth) (s : Stmt FunctionId) :
    (planStmt env depth s).Invokes fun u => u.isCall = false := by
  cases s with
  | expr => exact ⟨rfl, fun _ => trivial⟩
  | block | «while» => exact rfl
  | cond span test yes no =>
    cases no with
    | none => exact ⟨rfl, fun v => .ite rfl trivial⟩
    | some no => exact ⟨rfl, fun v => .ite rfl rfl⟩
  | range => exact ⟨rfl, fun _ _ => ⟨rfl, fun _ _ _ _ => ⟨rfl, fun _ => trivial⟩⟩⟩
  | «break» | «continue» => exact .ite trivial trivial
  | «return» => exact .ite ⟨rfl, fun _ => trivial⟩ trivial

/-- Only call expressions call. -/
theorem plan_invokes (ht : ∀ env depth span callee args, t ≠ .eval env depth (.call span callee args)) :
    (t.plan limit).Invokes fun u => u.isCall = false := by
  cases t with
  | eval env depth e =>
    exact planExpr_invokes env depth fun span callee args he =>
      ht env depth span callee args (congrArg (Task.eval env depth) he)
  | exec env depth s => exact planStmt_invokes env depth s
  | evalAll env depth es =>
    cases es with
    | nil => trivial
    | cons e es => exact ⟨rfl, fun _ => ⟨rfl, fun _ => trivial⟩⟩
  | evalOr env depth absent e =>
    cases e with
    | none => trivial
    | some e => exact rfl
  | call env depth f args span =>
    refine .ite trivial fun frame => ⟨rfl, fun signal => ?_⟩
    cases signal <;> trivial
  | execBlock env depth ss =>
    cases ss with
    | nil => trivial
    | cons s ss =>
      refine ⟨rfl, fun signal => ?_⟩
      cases signal with
      | normal => exact rfl
      | _ => trivial
  | execWhile env depth test body =>
    refine ⟨rfl, fun v => .ite ⟨rfl, fun signal => ?_⟩ trivial⟩
    cases signal with
    | normal | «continue» => exact rfl
    | _ => trivial
  | execRange env depth x cmp last step body =>
    refine fun i => .ite ⟨rfl, fun signal => ?_⟩ trivial
    cases signal with
    | normal | «continue» => exact fun _ _ => rfl
    | _ => trivial

/-- A call expression calls when its callee and its arguments have been evaluated. -/
theorem call_of_callee {r : (t : Task) → Run t.Result} {env env' : FrameId} {depth depth' : Depth}
    {span span' : Span} {callee : Expr FunctionId} {args : List (Expr FunctionId)} {f : Function}
    {vs : List Value} {q : Plan Value}
    (hq : ((Task.eval env' depth' (.call span' callee args)).plan limit).Gets r w q v)
    (hu : q.task? = some (.call env depth f vs span)) :
    (env' = env ∧ depth' = depth ∧ span' = span) ∧ ∃ v₁,
      r (.eval env depth callee) w = .ok (.function f) v₁ ∧ f.params.length = args.length ∧
        r (.evalAll env depth args) v₁ = .ok vs v := by
  cases hq with
  | here => cases hu
  | @invoke _ _ g _ _ v₁ _ hcallee hq =>
    cases g with
    | function g =>
      dsimp only at hq
      split at hq
      · rename_i harity
        cases hq with
        | here => cases hu
        | invoke hargs hq =>
          cases hq
          cases hu
          exact ⟨⟨rfl, rfl, rfl⟩, v₁, hcallee, harity, hargs⟩
      · cases hq
        cases hu
    | native n =>
      dsimp only at hq
      split at hq
      · cases hq with
        | here => cases hu
        | invoke _ hq =>
          cases hq
          cases hu
      · cases hq
        cases hu
    | _ =>
      cases hq
      cases hu

/-! ### Overflows -/

/-- In the course of a task a function is called, with so many calls around: a call expression is
evaluated, its callee is a function with as many parameters as there are arguments, and the arguments
all have a value. -/
def Attempts (limit fuel : Nat) (t : Task) (w : World) (calls : Nat) (span : Span) : Prop :=
  ∃ k env depth callee args f vs v v₁ v₂,
    Nested limit fuel t w (k + 1) (.eval env depth (.call span callee args)) v ∧
      Scriptlet.eval limit k env depth callee v = .ok (.function f) v₁ ∧
      f.params.length = args.length ∧
      Scriptlet.evalAll limit k env depth args v₁ = .ok vs v₂ ∧ depth.calls = calls

/-- These are the calls that are run. -/
theorem attempts_iff (ht : t.isCall = false) {calls : Nat} {span : Span} :
    t.Attempts limit fuel w calls span ↔ ∃ k env depth f vs v,
      Nested limit fuel t w (k + 1) (.call env depth f vs span) v ∧ depth.calls = calls := by
  constructor
  · rintro ⟨k, env, depth, callee, args, f, vs, v, v₁, v₂, hnested, hcallee, harity, hargs, hcalls⟩
    have hgets : ((Task.eval env depth (.call span callee args)).plan limit).Gets
        (fun u => u.run limit k) v (.only (.call env depth f vs span)) v₂ := by
      refine .invoke hcallee ?_
      dsimp only
      rw [if_pos harity]
      exact .invoke hargs .here
    cases k with
    | zero => cases hargs
    | succ k => exact ⟨k, env, depth, f, vs, v₂, hnested.invoked hgets rfl, hcalls⟩
  · rintro ⟨k, env, depth, f, vs, v, hnested, hcalls⟩
    rcases hnested.eq_or_invoked with ⟨-, rfl, -⟩ | ⟨t', w', q, hparent, hgets, hinvokes⟩
    · cases ht
    · by_cases hcall : ∃ env depth span callee args, t' = .eval env depth (.call span callee args)
      · obtain ⟨env', depth', span', callee, args, rfl⟩ := hcall
        obtain ⟨⟨rfl, rfl, rfl⟩, v₁, hcallee, harity, hargs⟩ := call_of_callee hgets hinvokes
        exact ⟨_, _, _, callee, args, f, vs, w', v₁, v, hparent, hcallee, harity, hargs, hcalls⟩
      · have hinvoked : (t'.plan limit).Invokes fun u => u.isCall = false :=
          plan_invokes fun env depth span callee args h => hcall ⟨env, depth, span, callee, args, h⟩
        cases (hgets.invokes hinvoked).of_task? hinvokes

/-- **A run overflows just if it comes to a call at the limit.** -/
theorem overflow_iff (ht : t.isCall = false) (hle : t.depth.calls ≤ limit) {n : Nat} {span : Span} :
    (∃ w', t.run limit fuel w = .error (.fault ⟨.stackOverflow n, span⟩) w') ↔
      n = limit ∧ t.Attempts limit fuel w limit span := by
  rw [attempts_iff ht]
  constructor
  · rintro ⟨w', hrun⟩
    obtain ⟨u, v, hraises⟩ := exists_raises hrun
    cases hraises.overflows with
    | @call env depth f vs _ hover =>
      obtain ⟨k, v₀, q, hnested, -, -⟩ := hraises
      have hcalls : depth.calls ≤ limit := hnested.calls_le hle
      exact ⟨rfl, k, env, depth, f, vs, v₀, hnested, Nat.le_antisymm hcalls (Nat.le_of_lt_succ hover)⟩
  · rintro ⟨rfl, k, env, depth, f, vs, v, hnested, hcalls⟩
    have hover : n < depth.enterCall.calls := hcalls ▸ Nat.lt_succ_self depth.calls
    have hcall : Scriptlet.call n (k + 1) env depth f vs span v =
        .error (.fault ⟨.stackOverflow n, span⟩) v := by
      rw [Scriptlet.call, if_pos hover]
      rfl
    exact hnested.run_eq_error hcall

/-! ### Frames and calls in step -/

/-- In every task that is run in the course of this one, the parents of the active frame lead to the
global one, past as many frames as there are calls around, and these are no more than there may be. The
active frame is the global one just if the task is in no call. -/
def InStep (limit fuel : Nat) (t : Task) (w : World) : Prop :=
  ∀ k u v, Nested limit fuel t w k u v →
    (∃ path, v.scopes.Ascent u.env path ∧ path.getLast? = some 0 ∧
      path.length = u.depth.calls + 1) ∧
    u.depth.calls ≤ limit ∧ v.scopes.isGlobal u.env = !u.depth.inCall

theorem inStep (h : t.Stacked w) (hle : t.depth.calls ≤ limit) : t.InStep limit fuel w := by
  intro k u v hnested
  have hu := hnested.stacked h
  exact ⟨hu.ascent, hnested.calls_le hle, hu.isGlobal_eq⟩

end Task

namespace Interpreter

/-- Interpreters that can be reached: runs of programs, evaluations of expressions and resets come one
after another, and the limit and the console may be changed in between. -/
inductive Reached : Interpreter → Prop
  | new (limit : Nat) (console : Console) : Reached (new limit console)
  | run {i : Interpreter} (h : Reached i) (fuel : Nat) (p : Program) : Reached (i.run fuel p).2
  | eval {i : Interpreter} (h : Reached i) (fuel : Nat) (e : Expr Unit) : Reached (i.eval fuel e).2
  | reset {i : Interpreter} (h : Reached i) : Reached i.reset
  | withLimit {i : Interpreter} (h : Reached i) (limit : Nat) : Reached (i.withLimit limit)
  | modifyConsole {i : Interpreter} (h : Reached i) (f : Console → Console) :
    Reached (i.modifyConsole f)

/-- Between two runs there is only the global frame. -/
theorem Reached.shape_eq {i : Interpreter} (h : i.Reached) : i.world.scopes.shape = frameStack 1 := by
  induction h with
  | new | reset => exact Scopes.shape_start _
  | @run i _ fuel p ih =>
    rw [Interpreter.run, world_perform]
    exact (Task.shape_worldAfter i.limit fuel (.execBlock 0 .top (p.mark i.statements)) _).trans ih
  | @eval i _ fuel e ih =>
    rw [Interpreter.eval, world_perform]
    exact (Task.shape_worldAfter i.limit fuel (.eval 0 .top (e.mark [0, i.statements])) _).trans ih
  | withLimit _ _ ih | modifyConsole _ _ ih => exact ih

theorem perform_eq_error_iff {α : Type} {i : Interpreter} {act : Run α} {count : Nat} {e : Stop} :
    (i.perform act count).1 = .error e ↔ ∃ w, act i.world = .error e w := by
  refine ⟨perform_eq_error, ?_⟩
  rintro ⟨w, hw⟩
  obtain ⟨world, limit, statements⟩ := i
  rw [perform, hw]

end Interpreter

/-- **Frames and calls are in step**, in every run of a program and every evaluation of an expression. So
a `global` is refused just where a `return` is, and the run ends with an overflow just if it comes to a
call of a function, with the right number of arguments and all of them evaluated, inside as many calls as
there may be. -/
theorem frames_match_calls {i : Interpreter} (hi : i.Reached) (fuel : Nat) :
    (∀ p : Program,
      (Task.execBlock 0 .top (p.mark i.statements)).InStep i.limit fuel i.world ∧
      ∀ n span, (i.run fuel p).1 = .error (.fault ⟨.stackOverflow n, span⟩) ↔ n = i.limit ∧
        (Task.execBlock 0 .top (p.mark i.statements)).Attempts i.limit fuel i.world i.limit span) ∧
    ∀ e : Expr Unit,
      (Task.eval 0 .top (e.mark [0, i.statements])).InStep i.limit fuel i.world ∧
      ∀ n span, (i.eval fuel e).1 = .error (.fault ⟨.stackOverflow n, span⟩) ↔ n = i.limit ∧
        (Task.eval 0 .top (e.mark [0, i.statements])).Attempts i.limit fuel i.world i.limit span := by
  refine ⟨fun p => ⟨?_, fun n span => ?_⟩, fun e => ⟨?_, fun n span => ?_⟩⟩
  · exact Task.inStep ⟨hi.shape_eq, rfl⟩ (Nat.zero_le _)
  · rw [← Task.overflow_iff rfl (Nat.zero_le _)]
    exact Interpreter.perform_eq_error_iff
  · exact Task.inStep ⟨hi.shape_eq, rfl⟩ (Nat.zero_le _)
  · rw [← Task.overflow_iff rfl (Nat.zero_le _)]
    exact Interpreter.perform_eq_error_iff

/-- The limit at which the run of a program overflows, and where, if it does. -/
def Program.overflow? (p : Program) (fuel : Nat) (i : Interpreter) : Option (Nat × Span) :=
  match (i.run fuel p).1 with
  | .error (.fault ⟨.stackOverflow n, span⟩) => some (n, span)
  | _ => none

theorem Program.overflow?_eq_some {p : Program} {fuel n : Nat} {i : Interpreter} {span : Span}
    (h : p.overflow? fuel i = some (n, span)) :
    (i.run fuel p).1 = .error (.fault ⟨.stackOverflow n, span⟩) := by
  unfold overflow? at h
  split at h
  · rename_i m place hrun
    obtain ⟨rfl, rfl⟩ := Prod.mk.inj (Option.some.inj h)
    exact hrun
  · cases h

/-- A function that calls itself, under a limit of two: the third call overflows, and the expression that
makes it is evaluated two frames away from the global one. -/
theorem frames_match_calls_recursive : ∃ (p : Program) (i : Interpreter) (k : Nat) (env : FrameId)
    (depth : Depth) (e : Expr FunctionId) (v : World) (path : List FrameId),
    Program.ofSource "fn f(x) \x7b return f(x); \x7d f(1);" = .ok p ∧ i.Reached ∧ i.limit = 2 ∧
      (i.run 40 p).1 = .error (.fault ⟨.stackOverflow 2, ⟨17, 21⟩⟩) ∧
      Task.Nested 2 40 (.execBlock 0 .top (p.mark i.statements)) i.world k (.eval env depth e) v ∧
      depth.calls = 2 ∧ v.scopes.Ascent env path ∧ path.length = 3 := by
  obtain ⟨p, hp, hoverflow⟩ :
      ∃ p, Program.ofSource "fn f(x) \x7b return f(x); \x7d f(1);" = .ok p ∧
        p.overflow? 40 (.new 2 (.ofInput [])) = some (2, ⟨17, 21⟩) := by
    decide +kernel
  have hreached := Interpreter.Reached.new 2 (.ofInput [])
  have hrun := Program.overflow?_eq_some hoverflow
  obtain ⟨hstep, hiff⟩ := (frames_match_calls hreached 40).1 p
  obtain ⟨-, k, env, depth, callee, args, f, vs, v, v₁, v₂, hnested, -, -, -, hcalls⟩ :=
    (hiff 2 ⟨17, 21⟩).mp hrun
  obtain ⟨⟨path, hascent, -, hlength⟩, -, -⟩ := hstep _ _ _ hnested
  refine ⟨p, .new 2 (.ofInput []), k + 1, env, depth, _, v, path, hp, hreached, rfl, hrun, hnested,
    hcalls, hascent, ?_⟩
  rw [hlength]
  exact congrArg (· + 1) hcalls

end Scriptlet
