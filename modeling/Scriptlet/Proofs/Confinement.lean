import Scriptlet.Interpreter
import Scriptlet.Proofs.Keeping
import Scriptlet.Proofs.Plans

/-!
Evaluation stays in its territory.

Code whose hazards are permitted, started in a frame that sees only the territory, keeps it, and its
values and signals lead to nothing outside (`evaluation_confined`), whether it ends, faults or runs
out of fuel. Calls may happen at any depth, through any function that the territory holds: each has a
frame of its own, which sees what its caller sees.

There is one lemma for each sort of task, which carries out its plan under the assumption that the
tasks in it are confined (`ConfinedAt`).
-/
namespace Scriptlet
namespace Territory

variable (T : Territory)

def HoldsSignal : Signal → Prop
  | .return v => T.Holds v
  | _ => True

/-- What code that runs in the frame `env` needs: it sees the territory, and its own frame is part
of it. -/
structure Homes (shape : List (List FrameId)) (env : FrameId) : Prop where
  sees : T.Sees shape env
  writes : T.Writes env

variable {T}

theorem Sees.homes {shape : List (List FrameId)} {env : FrameId} (h : T.Sees shape env) :
    T.Homes (shape ++ [Scopes.around shape env]) shape.length :=
  ⟨h.inner, T.writes_new _ h.le⟩

end Territory

open Territory

/-- All tasks are confined if they are done in this way. -/
structure ConfinedAt (T : Territory) (r : Task.Runner) : Prop where
  eval : ∀ {shape env} depth {e}, T.Homes shape env → T.PermitsAll e.hazards →
    T.RunKeeps shape T.Holds (r (.eval env depth e))
  evalAll : ∀ {shape env} depth {es}, T.Homes shape env → T.PermitsAll (Expr.hazardsOfAll es) →
    T.RunKeeps shape T.HoldsAll (r (.evalAll env depth es))
  evalOr : ∀ {shape env} depth {v e}, T.Homes shape env → T.Holds v →
    T.PermitsAll (Expr.hazardsOfOption e) →
    T.RunKeeps shape T.Holds (r (.evalOr env depth v e))
  call : ∀ {shape env} depth {f vs} span, T.Sees shape env → T.PermitsAll (Block.hazards f.body) →
    T.HoldsAll vs → T.RunKeeps shape T.Holds (r (.call env depth f vs span))
  exec : ∀ {shape env} depth {s}, T.Homes shape env → T.PermitsAll s.hazards →
    T.RunKeeps shape T.HoldsSignal (r (.exec env depth s))
  execBlock : ∀ {shape env} depth {ss}, T.Homes shape env → T.PermitsAll (Block.hazards ss) →
    T.RunKeeps shape T.HoldsSignal (r (.execBlock env depth ss))
  execWhile : ∀ {shape env} depth {e ss}, T.Homes shape env → T.PermitsAll e.hazards →
    T.PermitsAll (Block.hazards ss) →
    T.RunKeeps shape T.HoldsSignal (r (.execWhile env depth e ss))
  execRange : ∀ {shape env} depth {x} cmp last step {ss}, T.Homes shape env →
    T.Permits (.counter x.val) → T.PermitsAll (Block.hazards ss) →
    T.RunKeeps shape T.HoldsSignal (r (.execRange env depth x cmp last step ss))

namespace ConfinedAt

variable {T : Territory} {r : Task.Runner} {limit : Nat} {shape : List (List FrameId)}
  {env : FrameId} (depth : Depth)

/-! ### Expressions -/

theorem callee_step (ih : ConfinedAt T r) (h : T.Homes shape env) (span : Span)
    {callee : Expr FunctionId} {args : List (Expr FunctionId)} (hc : T.PermitsAll callee.hazards)
    (ha : T.PermitsAll (Expr.hazardsOfAll args)) :
    T.RunKeeps shape T.Holds ((Task.planExpr env depth (.call span callee args)).run r) := by
  refine (ih.eval depth h hc).bind fun v hv => ?_
  cases v with
  | function f =>
    dsimp only
    split
    · exact (ih.evalAll depth h ha).bind fun vs hvs => ih.call depth span h.sees hv hvs
    · exact fault_keeps _ _
  | native n =>
    dsimp only
    split
    · exact (ih.evalAll depth h ha).bind fun vs hvs => native_keeps n hvs span
    · exact fault_keeps _ _
  | _ => exact fault_keeps _ _

theorem eval_step (ih : ConfinedAt T r) (h : T.Homes shape env) {e : Expr FunctionId}
    (he : T.PermitsAll e.hazards) :
    T.RunKeeps shape T.Holds ((Task.planExpr env depth e).run r) := by
  cases e with
  | number span x => exact .pure trivial
  | text span s => exact runNewText_keeps _
  | bool span b => exact .pure trivial
  | nil span => exact .pure trivial
  | array span items =>
    rw [Expr.hazards] at he
    exact (ih.evalAll depth h he).bind fun vs hvs => runNewArray_keeps hvs
  | group span inner =>
    rw [Expr.hazards] at he
    exact ih.eval depth h he
  | name span global x => exact readName_keeps h.sees global x span
  | binary span op left right =>
    rw [Expr.hazards, permitsAll_append] at he
    have hleft := ih.eval depth h he.1
    have hright := ih.eval depth h he.2
    have hstrict : T.RunKeeps shape T.Holds (r (.eval env depth left) >>= fun v =>
        r (.eval env depth right) >>= fun w => Run.binary op v w span) :=
      hleft.bind fun v hv => hright.bind fun w hw => binary_keeps op hv hw span
    cases op with
    | and =>
      refine hleft.bind fun v hv => ?_
      dsimp only
      split
      · exact hright
      · exact .pure hv
    | or =>
      refine hleft.bind fun v hv => ?_
      dsimp only
      split
      · exact .pure hv
      · exact hright
    | _ => exact hstrict
  | unary span op operand =>
    rw [Expr.hazards] at he
    exact (ih.eval depth h he).bind fun v _ => unary_keeps op v span
  | conditional span test yes no =>
    rw [Expr.hazards, permitsAll_append, permitsAll_append] at he
    refine (ih.eval depth h he.1.1).bind fun v _ => ?_
    dsimp only
    split
    · exact ih.eval depth h he.1.2
    · exact ih.eval depth h he.2
  | call span callee args =>
    rw [Expr.hazards, permitsAll_append] at he
    exact ih.callee_step depth h span he.1 he.2
  | index span target i =>
    rw [Expr.hazards, permitsAll_append] at he
    exact (ih.eval depth h he.1).bind fun v hv => (ih.eval depth h he.2).bind fun i _ =>
      index_keeps i hv span
  | slice span target start stop =>
    rw [Expr.hazards, permitsAll_append, permitsAll_append] at he
    exact (ih.eval depth h he.1.1).bind fun v hv =>
      (ih.evalOr depth h (holds_float _) he.1.2).bind fun i _ =>
        (ih.evalOr depth h (holds_float _) he.2).bind fun j _ => slice_keeps i j hv span
  | assign span global constant x value =>
    rw [Expr.hazards, permitsAll_append] at he
    have hglobal : global = true → T.Permits (.global x) := by
      intro hg
      rw [if_pos hg] at he
      exact (permitsAll_cons.mp he.1).1
    exact (ih.eval depth h he.2).bind fun v hv =>
      assign_keeps h.sees h.writes hglobal constant hv span
  | assignIndex span global constant x i value =>
    rw [Expr.hazards, permitsAll_append] at he
    rw [Task.planExpr]
    split
    · exact fault_keeps _ _
    · exact (ih.eval depth h he.1).bind fun i _ => (ih.eval depth h he.2).bind fun v hv =>
        assignElement_keeps h.sees global x i hv span
  | function span id params body =>
    rw [Expr.hazards] at he
    exact .pure he

theorem evalAll_step (ih : ConfinedAt T r) (h : T.Homes shape env)
    {es : List (Expr FunctionId)} (he : T.PermitsAll (Expr.hazardsOfAll es)) :
    T.RunKeeps shape T.HoldsAll (Task.carryOut limit r (.evalAll env depth es)) := by
  cases es with
  | nil => exact .pure holdsAll_nil
  | cons e es =>
    rw [Expr.hazardsOfAll, permitsAll_append] at he
    exact (ih.eval depth h he.1).bind fun v hv => (ih.evalAll depth h he.2).bind fun vs hvs =>
      .pure (hvs.cons hv)

theorem evalOr_step (ih : ConfinedAt T r) (h : T.Homes shape env) {v : Value}
    (hv : T.Holds v) {e : Option (Expr FunctionId)} (he : T.PermitsAll (Expr.hazardsOfOption e)) :
    T.RunKeeps shape T.Holds (Task.carryOut limit r (.evalOr env depth v e)) := by
  cases e with
  | none => exact .pure hv
  | some e => exact ih.eval depth h he

theorem call_step (ih : ConfinedAt T r) (h : T.Sees shape env) {f : Function}
    (hf : T.PermitsAll (Block.hazards f.body)) {vs : List Value} (hvs : T.HoldsAll vs)
    (span : Span) :
    T.RunKeeps shape T.Holds (Task.carryOut limit r (.call env depth f vs span)) := by
  by_cases hover : limit < depth.enterCall.calls
  · rw [Task.carryOut, Task.plan, if_pos hover]
    exact fault_keeps _ _
  · rw [Task.carryOut_call r hover]
    have hbody := ih.execBlock depth.enterCall h.homes hf
    refine (frame_keeps h.le env f.params hvs hbody).bind fun signal hs => ?_
    cases signal with
    | «return» v => exact .pure hs
    | _ => exact .pure trivial

/-! ### Statements -/

theorem exec_step (ih : ConfinedAt T r) (h : T.Homes shape env) {s : Stmt FunctionId}
    (hs : T.PermitsAll s.hazards) :
    T.RunKeeps shape T.HoldsSignal ((Task.planStmt env depth s).run r) := by
  cases s with
  | expr span e =>
    rw [Stmt.hazards] at hs
    exact (ih.eval depth h hs).bind fun _ _ => .pure trivial
  | block span body =>
    rw [Stmt.hazards] at hs
    exact ih.execBlock depth h hs
  | cond span test yes no =>
    rw [Stmt.hazards, permitsAll_append, permitsAll_append] at hs
    refine (ih.eval depth h hs.1.1).bind fun v _ => ?_
    dsimp only
    split
    · exact ih.execBlock depth h hs.1.2
    · cases no with
      | none => exact .pure trivial
      | some no => exact ih.execBlock depth h hs.2
  | «while» span test body =>
    rw [Stmt.hazards, permitsAll_append] at hs
    exact ih.execWhile depth h hs.1 hs.2
  | range span x cmp first last body =>
    rw [Stmt.hazards, permitsAll_cons, permitsAll_append, permitsAll_append] at hs
    obtain ⟨hx, ⟨hfirst, hlast⟩, hbody⟩ := hs
    refine (ih.eval depth h hfirst).bind fun v _ => (rangeBound_keeps v _).bind fun i _ => ?_
    refine (ih.eval depth h hlast).bind fun w _ => (rangeBound_keeps w _).bind fun j _ => ?_
    refine (rangeStep_keeps cmp i j _).bind fun step _ => ?_
    have hmay : T.MayBind env x.val := fun _ _ => hx
    refine (modifyScopes_keeps fun _ hs => hs.add h.writes hmay (holds_float _)).bind fun _ _ => ?_
    have hremove : ∀ w, T.Kept shape w →
        T.Kept shape { w with scopes := w.scopes.remove env x.val } :=
      fun w hw => ⟨hw.scopes.remove h.writes hmay, hw.heap⟩
    refine Keeps.bind (fun w hw => ?_) fun _ hsignal => .pure hsignal
    exact ensuring_ends (ih.execRange depth cmp.val j step h hx hbody) hremove hw
  | «break» span =>
    rw [Task.planStmt]
    split
    · exact .pure trivial
    · exact fault_keeps _ _
  | «continue» span =>
    rw [Task.planStmt]
    split
    · exact .pure trivial
    · exact fault_keeps _ _
  | «return» span value =>
    rw [Stmt.hazards] at hs
    rw [Task.planStmt]
    split
    · exact (ih.evalOr depth h holds_nil hs).bind fun v hv => .pure hv
    · exact fault_keeps _ _

theorem execBlock_step (ih : ConfinedAt T r) (h : T.Homes shape env)
    {ss : List (Stmt FunctionId)} (hs : T.PermitsAll (Block.hazards ss)) :
    T.RunKeeps shape T.HoldsSignal (Task.carryOut limit r (.execBlock env depth ss)) := by
  cases ss with
  | nil => exact .pure trivial
  | cons s rest =>
    rw [Block.hazards, permitsAll_append] at hs
    refine (ih.exec depth h hs.1).bind fun signal hsignal => ?_
    cases signal with
    | normal => exact ih.execBlock depth h hs.2
    | _ => exact .pure hsignal

theorem execWhile_step (ih : ConfinedAt T r) (h : T.Homes shape env)
    {e : Expr FunctionId} (he : T.PermitsAll e.hazards) {ss : List (Stmt FunctionId)}
    (hs : T.PermitsAll (Block.hazards ss)) :
    T.RunKeeps shape T.HoldsSignal (Task.carryOut limit r (.execWhile env depth e ss)) := by
  refine (ih.eval depth h he).bind fun v _ => ?_
  dsimp only
  split
  · refine (ih.execBlock depth.enterLoop h hs).bind fun signal hsignal => ?_
    cases signal with
    | «break» => exact .pure trivial
    | «return» v => exact .pure hsignal
    | normal => exact ih.execWhile depth h he hs
    | «continue» => exact ih.execWhile depth h he hs
  · exact .pure trivial

theorem execRange_step (ih : ConfinedAt T r) (h : T.Homes shape env) {x : Located String}
    (hx : T.Permits (.counter x.val)) (cmp : BinaryOp) (last step : Float)
    {ss : List (Stmt FunctionId)} (hs : T.PermitsAll (Block.hazards ss)) :
    T.RunKeeps shape T.HoldsSignal
      (Task.carryOut limit r (.execRange env depth x cmp last step ss)) := by
  have hmay : T.MayBind env x.val := fun _ _ => hx
  have hturn : T.RunKeeps shape T.HoldsSignal (Run.rangeCounter env x >>= fun i =>
      Run.modifyScopes (·.add env x.val ⟨.float (i + step), true⟩) >>= fun _ =>
        r (.execRange env depth x cmp last step ss)) := by
    refine (rangeCounter_keeps env x).bind fun i _ => ?_
    exact (modifyScopes_keeps fun _ hs => hs.add h.writes hmay (holds_float _)).bind fun _ _ =>
      ih.execRange depth cmp last step h hx hs
  refine (rangeCounter_keeps env x).bind fun i _ => ?_
  dsimp only
  split
  · refine (ih.execBlock depth.enterLoop h hs).bind fun signal hsignal => ?_
    cases signal with
    | «break» => exact .pure trivial
    | «return» v => exact .pure hsignal
    | normal => exact hturn
    | «continue» => exact hturn
  · exact .pure trivial

end ConfinedAt

/-- **Evaluation stays in its territory**, with any fuel. -/
theorem evaluation_confined (T : Territory) (limit fuel : Nat) :
    ConfinedAt T (Task.run limit fuel) := by
  refine Task.run_induction ?_ (fun r ih => ?_) fuel
  · constructor <;> intros <;> exact .throw _
  · exact {
      eval := fun depth _ h he => ih.eval_step depth h he
      evalAll := fun depth _ h he => ih.evalAll_step depth h he
      evalOr := fun depth _ _ h hv he => ih.evalOr_step depth h hv he
      call := fun depth _ _ span h hf hvs => ih.call_step depth h hf hvs span
      exec := fun depth _ h hs => ih.exec_step depth h hs
      execBlock := fun depth _ h hs => ih.execBlock_step depth h hs
      execWhile := fun depth _ _ h he hs => ih.execWhile_step depth h he hs
      execRange := fun depth _ cmp last step _ h hx hs =>
        ih.execRange_step depth h hx cmp last step hs }

end Scriptlet
