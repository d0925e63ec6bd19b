import Scriptlet.Interpreter
import Scriptlet.Proofs.Alike
import Scriptlet.Proofs.Operations
import Scriptlet.Proofs.Plans

/-!
Alike code runs alike.

Evaluation never looks at the place of a piece of code, at what follows the statement that ends a
block, or inside a function before it calls it. Hence `evaluation_alike`: alike code, started in
corresponding worlds, gives corresponding values and signals, stops for the same cause, and leaves
corresponding worlds with the frames they had. The functions in those worlds may come from other
sources than the code, and be alike in other ways.

Alike tasks have plans that differ in places only. So each sort of task is treated in a lemma of its
own, which carries out the plan under the assumption that the tasks in it are simulated (`SimulatesAt`).
What ties the places in the code (`Surroundings`) to the run is `Surroundings.Fits`: inside a function
there is a call, and its frame is not the global one.
-/
namespace Scriptlet

/-- Signals of the same sort, with corresponding values. -/
inductive Correspondence.Signals (K : Correspondence) : Signal → Signal → Prop
  | normal : Signals K .normal .normal
  | break : Signals K .break .break
  | continue : Signals K .continue .continue
  | return {v w : Value} (h : K.Values v w) : Signals K (.return v) (.return w)

/-- The loops and functions around a piece of code are there when it runs. -/
structure Surroundings.Fits (p : Surroundings) (shape : List (List FrameId)) (env : FrameId)
    (depth : Depth) : Prop where
  loop_of : p.inLoop = true → depth.inLoop = true
  call_of : p.inFunction = true → depth.inCall = true
  frame_of : p.inFunction = true → shape.getD env [] ≠ []
  there : env < shape.length

namespace Surroundings.Fits

variable {p : Surroundings} {shape : List (List FrameId)} {env : FrameId} {depth : Depth}

theorem top (h : env < shape.length) : Surroundings.top.Fits shape env depth :=
  ⟨nofun, nofun, nofun, h⟩

theorem enterLoop (h : p.Fits shape env depth) : p.loop.Fits shape env depth.enterLoop where
  loop_of _ := by simp [Depth.inLoop, Depth.enterLoop]
  call_of := h.call_of
  frame_of := h.frame_of
  there := h.there

theorem enterCall (h : env < shape.length) :
    Surroundings.body.Fits (shape ++ [Scopes.around shape env]) shape.length depth.enterCall where
  loop_of := nofun
  call_of _ := by simp [Depth.inCall, Depth.enterCall]
  frame_of _ := by simp [Scopes.around, h]
  there := by simp

end Surroundings.Fits

theorem Expr.Alike.calleeName_eq {L : Likeness} {φ : Type} {p : Surroundings} {e d : Expr φ}
    (h : e.Alike L p d) : e.calleeName = d.calleeName := by
  cases h <;> rfl

/-- All tasks are simulated if they are done in this way. -/
structure SimulatesAt (K : Correspondence) (r : Task.Runner) : Prop where
  eval : ∀ {L} {p : Surroundings} {shape env depth e d}, K.Admits L → p.Fits shape env depth →
    e.Alike L p d → K.Runs shape K.Values (r (.eval env depth e)) (r (.eval env depth d))
  evalAll : ∀ {L} {p : Surroundings} {shape env depth es ds}, K.Admits L → p.Fits shape env depth →
    Expr.AllAlike L p es ds →
    K.Runs shape K.Lists (r (.evalAll env depth es)) (r (.evalAll env depth ds))
  evalOr : ∀ {L} {p : Surroundings} {shape env depth e d}, K.Admits L → p.Fits shape env depth →
    ∀ {v w}, K.Values v w → Expr.OptionAlike L p e d →
    K.Runs shape K.Values (r (.evalOr env depth v e)) (r (.evalOr env depth w d))
  call : ∀ {shape env} depth {f g}, env < shape.length → K.Functions f g →
    ∀ {vs ws}, K.Lists vs ws → ∀ {a b}, K.Spans a b →
    K.Runs shape K.Values (r (.call env depth f vs a)) (r (.call env depth g ws b))
  exec : ∀ {L} {p : Surroundings} {shape env depth s t}, K.Admits L → p.Fits shape env depth →
    s.Alike L p t → K.Runs shape K.Signals (r (.exec env depth s)) (r (.exec env depth t))
  execBlock : ∀ {L} {p : Surroundings} {shape env depth ss ts}, K.Admits L →
    p.Fits shape env depth → Block.Alike L p ss ts →
    K.Runs shape K.Signals (r (.execBlock env depth ss)) (r (.execBlock env depth ts))
  execWhile : ∀ {L} {p : Surroundings} {shape env depth e d ss ts}, K.Admits L →
    p.Fits shape env depth → e.Alike L p d → Block.Alike L p.loop ss ts →
    K.Runs shape K.Signals (r (.execWhile env depth e ss)) (r (.execWhile env depth d ts))
  execRange : ∀ {L} {p : Surroundings} {shape env depth x y} cmp last step {ss ts}, K.Admits L →
    p.Fits shape env depth → L.Located x y → Block.Alike L p.loop ss ts →
    K.Runs shape K.Signals (r (.execRange env depth x cmp last step ss))
      (r (.execRange env depth y cmp last step ts))
  /-- A statement that ends its block does not end normally. -/
  endsBlock : ∀ {env depth} {s : Stmt FunctionId}, s.endsBlock = true →
    ∀ w v, r (.exec env depth s) w ≠ .ok .normal v

section

open Correspondence

variable {K : Correspondence} {L : Likeness} {r : Task.Runner} {limit : Nat}
  {shape : List (List FrameId)} {env : FrameId} {depth : Depth} {p : Surroundings}

/-- Where `global` is placed, its fault cannot happen. -/
theorem Surroundings.Fits.allows_global (h : p.Fits shape env depth) (hL : K.Admits L)
    {global : Bool} (hg : L.Global p global) (x : String) :
    global = true → shape.getD env [] = [] → K.Allows (.globalScope x) :=
  fun ht hs => hL.allows fun hp => absurd hs (h.frame_of (hg hp ht))

/-! ### Expressions -/

theorem SimulatesAt.callee_step (ih : SimulatesAt K r) (hL : K.Admits L)
    (h : p.Fits shape env depth) {a b : Span} (hs : L.Spans a b) {e d : Expr FunctionId}
    (he : e.Alike L p d) {es ds : List (Expr FunctionId)} (ha : Expr.AllAlike L p es ds) :
    K.Runs shape K.Values
      ((Task.planExpr env depth (.call a e es)).run r)
      ((Task.planExpr env depth (.call b d ds)).run r) := by
  have hl := ha.length_eq
  refine (ih.eval hL h he).bind fun v w hv => ?_
  cases hv with
  | function hf =>
    rename_i f g
    have hparams : f.params.length = g.params.length := by
      simpa using congrArg List.length (K.params_eq hf)
    dsimp only
    rw [hparams, hl, he.calleeName_eq]
    split
    · exact (ih.evalAll hL h ha).bind fun vs ws hvs => ih.call depth h.there hf hvs (hL.spans hs)
    · exact ordinary_rel rfl id (hL.spans hs)
  | native n =>
    dsimp only
    rw [hl]
    split
    · exact (ih.evalAll hL h ha).bind fun vs ws hvs => native_rel n hvs (hL.spans hs)
    · exact ordinary_rel rfl id (hL.spans hs)
  | _ => exact ordinary_rel rfl id (hL.spans he.span)

theorem SimulatesAt.eval_step (ih : SimulatesAt K r) (hL : K.Admits L)
    (h : p.Fits shape env depth) {e d : Expr FunctionId} (he : e.Alike L p d) :
    K.Runs shape K.Values
      ((Task.planExpr env depth e).run r)
      ((Task.planExpr env depth d).run r) := by
  cases he with
  | number hs => exact .pure (.float _)
  | text hs => exact runNewText_rel _
  | bool hs => exact .pure (.bool _)
  | nil hs => exact .pure .nil
  | array hs he => exact (ih.evalAll hL h he).bind fun vs ws hv => runNewArray_rel hv
  | group hs he => exact ih.eval hL h he
  | name hs hg => exact readName_rel env _ _ (h.allows_global hL hg _) (hL.spans hs)
  | @binary _ a b op e₁ e₂ d₁ d₂ hs h₁ h₂ =>
    have hstrict : K.Runs shape K.Values
        (r (.eval env depth e₁) >>= fun v =>
          r (.eval env depth e₂) >>= fun w => Run.binary op v w a)
        (r (.eval env depth d₁) >>= fun v =>
          r (.eval env depth d₂) >>= fun w => Run.binary op v w b) :=
      (ih.eval hL h h₁).bind fun v v' hv => (ih.eval hL h h₂).bind fun w w' hw =>
        binary_rel op hv hw (hL.spans hs)
    cases op with
    | and =>
      refine (ih.eval hL h h₁).bind fun v w hv => ?_
      dsimp only
      rw [hv.truthy_eq]
      split
      · exact ih.eval hL h h₂
      · exact .pure hv
    | or =>
      refine (ih.eval hL h h₁).bind fun v w hv => ?_
      dsimp only
      rw [hv.truthy_eq]
      split
      · exact .pure hv
      · exact ih.eval hL h h₂
    | _ => exact hstrict
  | unary hs he => exact (ih.eval hL h he).bind fun v w hv => unary_rel _ hv (hL.spans hs)
  | conditional hs h₁ h₂ h₃ =>
    refine (ih.eval hL h h₁).bind fun v w hv => ?_
    dsimp only
    rw [hv.truthy_eq]
    split
    · exact ih.eval hL h h₂
    · exact ih.eval hL h h₃
  | call hs he ha => exact ih.callee_step hL h hs he ha
  | index hs h₁ h₂ =>
    exact (ih.eval hL h h₁).bind fun v w hv => (ih.eval hL h h₂).bind fun i j hi =>
      index_rel hv hi (hL.spans hs)
  | slice hs he h₁ h₂ =>
    exact (ih.eval hL h he).bind fun v w hv =>
      (ih.evalOr hL h (.float _) h₁).bind fun i i' hi =>
        (ih.evalOr hL h (.float _) h₂).bind fun j j' hj => slice_rel hv hi hj (hL.spans hs)
  | assign hs hg he =>
    exact (ih.eval hL h he).bind fun v w hv =>
      assign_rel env _ _ _ (h.allows_global hL hg _) hv (hL.spans hs)
  | @assignIndex _ _ _ _ constant _ _ _ _ _ hs hg h₁ h₂ =>
    cases constant with
    | true => exact ordinary_rel rfl id (hL.spans hs)
    | false =>
      exact (ih.eval hL h h₁).bind fun i j hi => (ih.eval hL h h₂).bind fun v w hv =>
        assignElement_rel env _ _ (h.allows_global hL hg _) hi hv (hL.spans hs)
  | function hs hx hb => exact .pure (.function (hL.functions rfl hx hb))

theorem SimulatesAt.evalAll_step (ih : SimulatesAt K r) (hL : K.Admits L)
    (h : p.Fits shape env depth) {es ds : List (Expr FunctionId)} (he : Expr.AllAlike L p es ds) :
    K.Runs shape K.Lists
      (Task.carryOut limit r (.evalAll env depth es))
      (Task.carryOut limit r (.evalAll env depth ds)) := by
  cases he with
  | nil => exact .pure .nil
  | cons he hes =>
    exact (ih.eval hL h he).bind fun v w hv => (ih.evalAll hL h hes).bind fun vs ws hvs =>
      .pure (.cons hv hvs)

theorem SimulatesAt.evalOr_step (ih : SimulatesAt K r) (hL : K.Admits L)
    (h : p.Fits shape env depth) {v w : Value} (hv : K.Values v w) {e d : Option (Expr FunctionId)}
    (he : Expr.OptionAlike L p e d) :
    K.Runs shape K.Values
      (Task.carryOut limit r (.evalOr env depth v e))
      (Task.carryOut limit r (.evalOr env depth w d)) := by
  cases he with
  | none => exact .pure hv
  | some he => exact ih.eval hL h he

theorem SimulatesAt.call_step (ih : SimulatesAt K r) (hK : K.Coded) (hthere : env < shape.length)
    {f g : Function} (hf : K.Functions f g) {vs ws : List Value} (hv : K.Lists vs ws) {a b : Span}
    (hs : K.Spans a b) :
    K.Runs shape K.Values
      (Task.carryOut limit r (.call env depth f vs a))
      (Task.carryOut limit r (.call env depth g ws b)) := by
  obtain ⟨L, hL, halike⟩ := hK f g hf
  by_cases hover : limit < depth.enterCall.calls
  · rw [Task.carryOut, Task.carryOut, Task.plan, Task.plan, if_pos hover, if_pos hover]
    exact ordinary_rel rfl id hs
  · rw [Task.carryOut_call r hover, Task.carryOut_call r hover]
    have hbody : K.Runs (shape ++ [Scopes.around shape env])
        K.Signals
        (r (.execBlock shape.length depth.enterCall f.body))
        (r (.execBlock shape.length depth.enterCall g.body)) :=
      ih.execBlock hL (.enterCall hthere) halike
    refine (frame_rel env hf hv hbody).bind fun s t hst => ?_
    cases hst with
    | «return» hv => exact .pure hv
    | _ => exact .pure .nil

/-! ### Statements -/

theorem SimulatesAt.exec_step (ih : SimulatesAt K r) (hL : K.Admits L)
    (h : p.Fits shape env depth) {s t : Stmt FunctionId} (hst : s.Alike L p t) :
    K.Runs shape K.Signals
      ((Task.planStmt env depth s).run r)
      ((Task.planStmt env depth t).run r) := by
  cases hst with
  | expr hs he => exact (ih.eval hL h he).bind fun _ _ _ => .pure .normal
  | block hs hb => exact ih.execBlock hL h hb
  | cond hs he hy hn =>
    refine (ih.eval hL h he).bind fun v w hv => ?_
    dsimp only
    rw [hv.truthy_eq]
    split
    · exact ih.execBlock hL h hy
    · cases hn with
      | none => exact .pure .normal
      | some hb => exact ih.execBlock hL h hb
  | «while» hs he hb => exact ih.execWhile hL h he hb
  | @range _ _ _ x y _ _ _ _ _ _ _ _ hs hx hc h₁ h₂ hb =>
    refine (ih.eval hL h h₁).bind fun v w hv => (rangeBound_rel hv (hL.spans h₁.span)).bind ?_
    rintro i _ rfl
    refine (ih.eval hL h h₂).bind fun v w hv => (rangeBound_rel hv (hL.spans h₂.span)).bind ?_
    rintro j _ rfl
    have hmerge := hL.spans (L.merge h₁.span h₂.span)
    refine (rangeStep_rel hc.val i j (hL.spans hc.span) hmerge).bind ?_
    rintro step _ rfl
    rw [hx.val, hc.val]
    refine (modifyScopes_rel fun _ _ hst => hst.add env ⟨rfl, rfl, .float i⟩).bind fun _ _ _ => ?_
    have hremove : ∀ w v, K.Worlds shape w v →
        K.Worlds shape { w with scopes := w.scopes.remove env y.val }
          { v with scopes := v.scopes.remove env y.val } :=
      fun w v hw => ⟨hw.scopes.remove env y.val, hw.host⟩
    refine Simulates.bind (fun w v hw => ?_) fun _ _ hst => .pure hst
    exact ensuring_rel (ih.execRange _ _ _ hL h hx hb) hremove hw
  | «break» hs hp =>
    rw [Task.planStmt, Task.planStmt]
    split
    · exact .pure .break
    · rename_i hn
      exact fault_rel (hL.allows fun hl => absurd (h.loop_of (hp hl)) hn) (hL.spans hs)
  | «continue» hs hp =>
    rw [Task.planStmt, Task.planStmt]
    split
    · exact .pure .continue
    · rename_i hn
      exact fault_rel (hL.allows fun hl => absurd (h.loop_of (hp hl)) hn) (hL.spans hs)
  | «return» hs hp he =>
    rw [Task.planStmt, Task.planStmt]
    split
    · exact (ih.evalOr hL h .nil he).bind fun v w hv => .pure (.return hv)
    · rename_i hn
      exact fault_rel (hL.allows fun hl => absurd (h.call_of (hp hl)) hn) (hL.spans hs)

/-- A statement that ends its block does not end normally. -/
theorem planStmt_endsBlock {s : Stmt FunctionId} (hs : s.endsBlock = true) (w v : World) :
    (Task.planStmt env depth s).run r w ≠ .ok .normal v := by
  cases s with
  | «break» span =>
    rw [Task.planStmt]
    split <;> intro h <;> cases h
  | «continue» span =>
    rw [Task.planStmt]
    split <;> intro h <;> cases h
  | «return» span value =>
    rw [Task.planStmt]
    split
    · show EStateM.bind _ _ w ≠ _
      unfold EStateM.bind
      split <;> intro h <;> cases h
    · intro h
      cases h
  | _ => exact absurd hs (by simp [Stmt.endsBlock])

theorem SimulatesAt.execBlock_step (ih : SimulatesAt K r) (hL : K.Admits L)
    (h : p.Fits shape env depth) {ss ts : List (Stmt FunctionId)} (hst : Block.Alike L p ss ts) :
    K.Runs shape K.Signals
      (Task.carryOut limit r (.execBlock env depth ss))
      (Task.carryOut limit r (.execBlock env depth ts)) := by
  cases hst with
  | nil => exact .pure .normal
  | cons hs hss =>
    refine (ih.exec hL h hs).bind fun s t hst => ?_
    cases hst with
    | normal => exact ih.execBlock hL h hss
    | «break» => exact .pure .break
    | «continue» => exact .pure .continue
    | «return» hv => exact .pure (.return hv)
  | @ends _ s t ss ts hl hs he =>
    -- the rest of the block is not reached
    intro w v hw
    have hm := ih.exec hL h hs w v hw
    have hn : ∀ v, r (.exec env depth s) w ≠ .ok .normal v := ih.endsBlock he w
    show Matches _ _ _ (EStateM.bind _ _ w) (EStateM.bind _ _ v)
    unfold EStateM.bind
    generalize r (.exec env depth s) w = x at hm hn ⊢
    generalize r (.exec env depth t) v = y at hm ⊢
    cases hm with
    | error he hw => exact .error he hw
    | ok hq hw =>
      cases hq with
      | normal => exact absurd rfl (hn _)
      | «break» => exact .ok .break hw
      | «continue» => exact .ok .continue hw
      | «return» hv => exact .ok (.return hv) hw

theorem SimulatesAt.execWhile_step (ih : SimulatesAt K r) (hL : K.Admits L)
    (h : p.Fits shape env depth) {e d : Expr FunctionId} (he : e.Alike L p d)
    {ss ts : List (Stmt FunctionId)} (hb : Block.Alike L p.loop ss ts) :
    K.Runs shape K.Signals
      (Task.carryOut limit r (.execWhile env depth e ss))
      (Task.carryOut limit r (.execWhile env depth d ts)) := by
  refine (ih.eval hL h he).bind fun v w hv => ?_
  dsimp only
  rw [hv.truthy_eq]
  split
  · refine (ih.execBlock hL h.enterLoop hb).bind fun s t hst => ?_
    cases hst with
    | «break» => exact .pure .normal
    | «return» hv => exact .pure (.return hv)
    | normal => exact ih.execWhile hL h he hb
    | «continue» => exact ih.execWhile hL h he hb
  · exact .pure .normal

theorem SimulatesAt.execRange_step (ih : SimulatesAt K r) (hL : K.Admits L)
    (h : p.Fits shape env depth) {x y : Located String} (hx : L.Located x y) (cmp : BinaryOp)
    (last step : Float) {ss ts : List (Stmt FunctionId)} (hb : Block.Alike L p.loop ss ts) :
    K.Runs shape K.Signals
      (Task.carryOut limit r (.execRange env depth x cmp last step ss))
      (Task.carryOut limit r (.execRange env depth y cmp last step ts)) := by
  have hcounter : K.Runs shape Eq (Run.rangeCounter env x)
      (Run.rangeCounter env y) := rangeCounter_rel env hx.val (hL.spans hx.span)
  have hturn : K.Runs shape K.Signals
      (Run.rangeCounter env x >>= fun i =>
        Run.modifyScopes (·.add env x.val ⟨.float (i + step), true⟩) >>= fun _ =>
          r (.execRange env depth x cmp last step ss))
      (Run.rangeCounter env y >>= fun i =>
        Run.modifyScopes (·.add env y.val ⟨.float (i + step), true⟩) >>= fun _ =>
          r (.execRange env depth y cmp last step ts)) := by
    refine hcounter.bind ?_
    rintro i _ rfl
    rw [hx.val]
    exact (modifyScopes_rel fun _ _ hst => hst.add env ⟨rfl, rfl, .float _⟩).bind
      fun _ _ _ => ih.execRange cmp last step hL h hx hb
  refine hcounter.bind ?_
  rintro i _ rfl
  dsimp only
  split
  · refine (ih.execBlock hL h.enterLoop hb).bind fun s t hst => ?_
    cases hst with
    | «break» => exact .pure .normal
    | «return» hv => exact .pure (.return hv)
    | normal => exact hturn
    | «continue» => exact hturn
  · exact .pure .normal

/-- **Alike code runs alike**, with any fuel. -/
theorem evaluation_alike (hK : K.Coded) (limit fuel : Nat) : SimulatesAt K (Task.run limit fuel) := by
  refine Task.run_induction ?_ (fun r ih => ?_) fuel
  · constructor <;> intros <;> first | exact outOfFuel_rel | exact nofun
  · exact {
      eval := fun hL h he => ih.eval_step hL h he
      evalAll := fun hL h he => ih.evalAll_step hL h he
      evalOr := fun hL h _ _ hv he => ih.evalOr_step hL h hv he
      call := fun _ _ _ hthere hf _ _ hv _ _ hs => ih.call_step hK hthere hf hv hs
      exec := fun hL h hs => ih.exec_step hL h hs
      execBlock := fun hL h hs => ih.execBlock_step hL h hs
      execWhile := fun hL h he hb => ih.execWhile_step hL h he hb
      execRange := fun cmp last step _ _ hL h hx hb => ih.execRange_step hL h hx cmp last step hb
      endsBlock := fun hs w v => planStmt_endsBlock hs w v }

end

/-! ### Programs -/

namespace Interpreter

open Correspondence

variable {L : Likeness} {lead : Lead} {shape : List (List FrameId)}

/-- The code of a program as an interpreter runs it. -/
def action (i : Interpreter) (fuel : Nat) (p : Program) : Run Signal :=
  execBlock i.limit fuel 0 .top (p.mark i.statements)

theorem run_eq (i : Interpreter) (fuel : Nat) (p : Program) :
    i.run fuel p =
      match i.action fuel p i.world with
      | .ok s w => (.ok s, ⟨w, i.limit, i.statements + p.body.length⟩)
      | .error e w => (.error e, ⟨w, i.limit, i.statements + p.body.length⟩) := by
  obtain ⟨world, limit, statements⟩ := i
  show perform ⟨world, limit, statements⟩ (action ⟨world, limit, statements⟩ fuel p) _ = _
  rw [perform]
  split <;> simp only [*]

/-- The interpreter and the stop of a run that does not end well. -/
theorem action_of_run_error {i j : Interpreter} {fuel : Nat} {p : Program} {e : Stop}
    (h : i.run fuel p = (.error e, j)) : i.action fuel p i.world = .error e j.world := by
  rw [run_eq] at h
  split at h
  · simp at h
  · rename_i e' w hw
    rw [hw]
    simp only [Prod.mk.injEq, Except.error.injEq] at h
    rw [h.1, ← h.2]

theorem nativeBindings_corresponds (K : Correspondence) :
    List.Forall₂ K.Bindings nativeBindings nativeBindings := by
  unfold nativeBindings
  induction Native.all with
  | nil => exact .nil
  | cons n ns ih => exact .cons ⟨rfl, rfl, .native n⟩ ih

/-- Where nothing is bound but the natives, nothing leads to what is in the heap. So the world is as
good as that of a new interpreter. -/
theorem start_corresponds {K : Correspondence} (host : Host)
    (hlead : K.lead = ⟨host.heap.texts.size, host.heap.arrays.size⟩) :
    K.Worlds [[]] ⟨.start nativeBindings, host⟩ ⟨.start nativeBindings, ⟨.empty, host.console⟩⟩ := by
  refine ⟨⟨Scopes.shape_start _, Scopes.shape_start _, ?_⟩, ⟨⟨?_, fun r => ?_, ?_, fun r => ?_⟩, rfl⟩⟩
  · intro f
    cases f with
    | zero => exact nativeBindings_corresponds K
    | succ f => exact .nil
  · simp [hlead, Heap.empty]
  · simp [Heap.text, textRef, hlead, Heap.empty]
  · simp [hlead, Heap.empty]
  · have hempty : host.heap.items (K.arrayRef r) = .empty := by
      refine Heap.items_of_le _ ?_
      rw [arrayRef, hlead]
      exact Nat.le_add_left _ _
    rw [hempty]
    exact .nil

/-- The world of a new interpreter corresponds to itself: it has no function but natives. -/
theorem new_corresponds (K : Correspondence) (limit : Nat) (console : Console)
    (hlead : K.lead = .none := by rfl) :
    K.Worlds [[]] (new limit console).world (new limit console).world :=
  start_corresponds ⟨.empty, console⟩ hlead

/-- Interpreters with corresponding worlds run alike programs alike. -/
theorem action_alike {i j : Interpreter} {p q : Program}
    (hw : (L.ahead lead).Worlds shape i.world j.world) (hl : i.limit = j.limit)
    (hn : i.statements = j.statements) (hpq : Block.Alike L .top p.body q.body) (fuel : Nat) :
    Matches ((L.ahead lead).Worlds shape) (L.ahead lead).Stops (L.ahead lead).Signals
      (i.action fuel p i.world) (j.action fuel q j.world) := by
  rw [action, action, hl, hn, Program.mark, Program.mark]
  exact (evaluation_alike (L.coded lead) j.limit fuel).execBlock (L.admits lead)
    (.top hw.scopes.nonempty) (Block.mark_alike _ hpq _ _) _ _ hw

end Interpreter
end Scriptlet
