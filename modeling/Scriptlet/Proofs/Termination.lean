import Scriptlet.Proofs.Limits

/-!
Programs without loops end.

A call runs code that it finds in the world, so evaluation does not follow the syntax. But it goes
down in two things at once: every call leaves room for one call less, and between two calls the code
gets smaller. At first there are no functions, so all that a program gets hold of are its own, and
their bodies are no higher than the program. Hence fuel for the height of the program at every depth
is enough (`Program.amount`), whatever the functions are called by, and wherever they are kept.

* `Run.Settles`: the actions that evaluation is made of never ask for fuel. Comparing and rendering
  are among them: on cyclic arrays they come to an end by themselves;
* `Run.Completes`: an action that ends, and lets in no function but the program's;
* `evaluation_completes`: with enough fuel evaluation completes.
-/
namespace Scriptlet

/-! ### Loops and heights -/

mutual

/-- Whether there is no loop in it, nor in the functions that it makes. -/
def Expr.loopFree {φ : Type} : Expr φ → Bool
  | .number .. | .text .. | .bool .. | .nil _ | .name .. => true
  | .array _ items => Expr.allLoopFree items
  | .group _ inner => inner.loopFree
  | .binary _ _ left right => left.loopFree && right.loopFree
  | .unary _ _ operand => operand.loopFree
  | .conditional _ test yes no => test.loopFree && yes.loopFree && no.loopFree
  | .call _ callee args => callee.loopFree && Expr.allLoopFree args
  | .index _ target i => target.loopFree && i.loopFree
  | .slice _ target start stop =>
    target.loopFree && Expr.optionLoopFree start && Expr.optionLoopFree stop
  | .assign _ _ _ _ value => value.loopFree
  | .assignIndex _ _ _ _ i value => i.loopFree && value.loopFree
  | .function _ _ _ body => Block.loopFree body

def Expr.allLoopFree {φ : Type} : List (Expr φ) → Bool
  | [] => true
  | e :: es => e.loopFree && Expr.allLoopFree es

def Expr.optionLoopFree {φ : Type} : Option (Expr φ) → Bool
  | none => true
  | some e => e.loopFree

def Stmt.loopFree {φ : Type} : Stmt φ → Bool
  | .expr _ e => e.loopFree
  | .block _ body => Block.loopFree body
  | .cond _ test yes no => test.loopFree && Block.loopFree yes && Block.optionLoopFree no
  | .while .. | .range .. => false
  | .break _ | .continue _ => true
  | .return _ value => Expr.optionLoopFree value

def Block.loopFree {φ : Type} : List (Stmt φ) → Bool
  | [] => true
  | s :: ss => s.loopFree && Block.loopFree ss

def Block.optionLoopFree {φ : Type} : Option (List (Stmt φ)) → Bool
  | none => true
  | some body => Block.loopFree body

end

mutual

/-- How far evaluation goes down in it. The body of a function counts where the function is made. -/
def Expr.height {φ : Type} : Expr φ → Nat
  | .number .. | .text .. | .bool .. | .nil _ | .name .. => 1
  | .array _ items => Expr.heightOfAll items + 1
  | .group _ inner => inner.height + 1
  | .binary _ _ left right => max left.height right.height + 1
  | .unary _ _ operand => operand.height + 1
  | .conditional _ test yes no => max test.height (max yes.height no.height) + 1
  | .call _ callee args => max callee.height (Expr.heightOfAll args) + 1
  | .index _ target i => max target.height i.height + 1
  | .slice _ target start stop =>
    max target.height (max (Expr.heightOfOption start) (Expr.heightOfOption stop)) + 1
  | .assign _ _ _ _ value => value.height + 1
  | .assignIndex _ _ _ _ i value => max i.height value.height + 1
  | .function _ _ _ body => Block.height body + 1

def Expr.heightOfAll {φ : Type} : List (Expr φ) → Nat
  | [] => 1
  | e :: es => max e.height (Expr.heightOfAll es) + 1

def Expr.heightOfOption {φ : Type} : Option (Expr φ) → Nat
  | none => 1
  | some e => e.height + 1

def Stmt.height {φ : Type} : Stmt φ → Nat
  | .expr _ e => e.height + 1
  | .block _ body => Block.height body + 1
  | .cond _ test yes no => max test.height (max (Block.height yes) (Block.heightOfOption no)) + 1
  | .while _ test body => max test.height (Block.height body) + 1
  | .range _ _ _ first last body => max first.height (max last.height (Block.height body)) + 1
  | .break _ | .continue _ => 1
  | .return _ value => Expr.heightOfOption value + 1

def Block.height {φ : Type} : List (Stmt φ) → Nat
  | [] => 1
  | s :: ss => max s.height (Block.height ss) + 1

def Block.heightOfOption {φ : Type} : Option (List (Stmt φ)) → Nat
  | none => 1
  | some body => Block.height body

end

section

variable {φ : Type}

theorem Expr.height_pos (e : Expr φ) : 0 < e.height := by
  cases e <;> simp [Expr.height]

theorem Expr.heightOfAll_pos (es : List (Expr φ)) : 0 < Expr.heightOfAll es := by
  cases es <;> simp [Expr.heightOfAll]

theorem Expr.heightOfOption_pos (e : Option (Expr φ)) : 0 < Expr.heightOfOption e := by
  cases e <;> simp [Expr.heightOfOption]

theorem Stmt.height_pos (s : Stmt φ) : 0 < s.height := by
  cases s <;> simp [Stmt.height]

theorem Block.height_pos (ss : List (Stmt φ)) : 0 < Block.height ss := by
  cases ss <;> simp [Block.height]

end

mutual

/-- Marks change neither loops nor heights. -/
theorem Expr.mark_measures : (e : Expr Unit) → (path : FunctionId) →
    (e.mark path).loopFree = e.loopFree ∧ (e.mark path).height = e.height
  | .number .., _ | .text .., _ | .bool .., _ | .nil _, _ | .name .., _ => ⟨rfl, rfl⟩
  | .array _ items, path => by
    simp [Expr.mark, Expr.loopFree, Expr.height, Expr.markList_measures items]
  | .group _ inner, path => by
    simp [Expr.mark, Expr.loopFree, Expr.height, inner.mark_measures]
  | .binary _ _ left right, path => by
    simp [Expr.mark, Expr.loopFree, Expr.height, left.mark_measures, right.mark_measures]
  | .unary _ _ operand, path => by
    simp [Expr.mark, Expr.loopFree, Expr.height, operand.mark_measures]
  | .conditional _ test yes no, path => by
    simp [Expr.mark, Expr.loopFree, Expr.height, test.mark_measures, yes.mark_measures,
      no.mark_measures]
  | .call _ callee args, path => by
    simp [Expr.mark, Expr.loopFree, Expr.height, callee.mark_measures, Expr.markList_measures args]
  | .index _ target i, path => by
    simp [Expr.mark, Expr.loopFree, Expr.height, target.mark_measures, i.mark_measures]
  | .slice _ target start stop, path => by
    simp [Expr.mark, Expr.loopFree, Expr.height, target.mark_measures,
      Expr.markOption_measures start, Expr.markOption_measures stop]
  | .assign _ _ _ _ value, path => by
    simp [Expr.mark, Expr.loopFree, Expr.height, value.mark_measures]
  | .assignIndex _ _ _ _ i value, path => by
    simp [Expr.mark, Expr.loopFree, Expr.height, i.mark_measures, value.mark_measures]
  | .function _ _ _ body, path => by
    simp [Expr.mark, Expr.loopFree, Expr.height, Block.mark_measures body]
termination_by structural x => x

theorem Expr.markList_measures : (es : List (Expr Unit)) → (path : FunctionId) → (i : Nat) →
    Expr.allLoopFree (Expr.markList path i es) = Expr.allLoopFree es ∧
      Expr.heightOfAll (Expr.markList path i es) = Expr.heightOfAll es
  | [], _, _ => ⟨rfl, rfl⟩
  | e :: es, path, i => by
    simp [Expr.markList, Expr.allLoopFree, Expr.heightOfAll, e.mark_measures,
      Expr.markList_measures es]
termination_by structural x => x

theorem Expr.markOption_measures : (e : Option (Expr Unit)) → (path : FunctionId) →
    Expr.optionLoopFree (Expr.markOption path e) = Expr.optionLoopFree e ∧
      Expr.heightOfOption (Expr.markOption path e) = Expr.heightOfOption e
  | none, _ => ⟨rfl, rfl⟩
  | some e, path => by
    simp [Expr.markOption, Expr.optionLoopFree, Expr.heightOfOption, e.mark_measures]
termination_by structural x => x

theorem Stmt.mark_measures : (s : Stmt Unit) → (path : FunctionId) →
    (s.mark path).loopFree = s.loopFree ∧ (s.mark path).height = s.height
  | .expr _ e, path => by simp [Stmt.mark, Stmt.loopFree, Stmt.height, e.mark_measures]
  | .block _ body, path => by
    simp [Stmt.mark, Stmt.loopFree, Stmt.height, Block.mark_measures body]
  | .cond _ test yes no, path => by
    simp [Stmt.mark, Stmt.loopFree, Stmt.height, test.mark_measures, Block.mark_measures yes,
      Block.markOption_measures no]
  | .while _ test body, path => by
    simp [Stmt.mark, Stmt.loopFree, Stmt.height, test.mark_measures, Block.mark_measures body]
  | .range _ _ _ first last body, path => by
    simp [Stmt.mark, Stmt.loopFree, Stmt.height, first.mark_measures, last.mark_measures,
      Block.mark_measures body]
  | .break _, _ | .continue _, _ => ⟨rfl, rfl⟩
  | .return _ value, path => by
    simp [Stmt.mark, Stmt.loopFree, Stmt.height, Expr.markOption_measures value]
termination_by structural x => x

theorem Block.mark_measures : (ss : List (Stmt Unit)) → (path : FunctionId) → (i : Nat) →
    Block.loopFree (Block.mark path i ss) = Block.loopFree ss ∧
      Block.height (Block.mark path i ss) = Block.height ss
  | [], _, _ => ⟨rfl, rfl⟩
  | s :: ss, path, i => by
    simp [Block.mark, Block.loopFree, Block.height, s.mark_measures, Block.mark_measures ss]
termination_by structural x => x

theorem Block.markOption_measures : (ss : Option (List (Stmt Unit))) → (path : FunctionId) →
    Block.optionLoopFree (Block.markOption path ss) = Block.optionLoopFree ss ∧
      Block.heightOfOption (Block.markOption path ss) = Block.heightOfOption ss
  | none, _ => ⟨rfl, rfl⟩
  | some body, path => by
    simp [Block.markOption, Block.optionLoopFree, Block.heightOfOption, Block.mark_measures body]
termination_by structural x => x

end

/-! ### Actions that need no fuel -/

/-- The action ends with a result or a fault, wherever it is started. -/
def Run.Settles {α : Type} (a : Run α) : Prop :=
  ∀ w, Settled (a w)

namespace Run.Settles

variable {α β : Type}

theorem pure (x : α) : Settles (Pure.pure x : Run α) :=
  fun _ _ => nofun

theorem fault (c : Fault.Cause) (span : Span) : Settles (Run.fault c span : Run α) :=
  fun _ _ => nofun

theorem modifyGet (f : World → α × World) : Settles (MonadState.modifyGet f : Run α) :=
  fun _ _ => nofun

theorem modify (f : World → World) : Settles (modify f : Run Unit) :=
  fun _ _ => nofun

theorem bind {a : Run α} {k : α → Run β} (ha : a.Settles) (hk : ∀ x, (k x).Settles) :
    (a >>= k).Settles := by
  intro w
  have hw := ha w
  show Settled (EStateM.bind a k w)
  unfold EStateM.bind
  cases h : a w with
  | ok x w' => exact hk x w'
  | error e w' =>
    intro v hv
    cases hv
    exact hw w' h

theorem heap : Settles Run.heap :=
  fun _ _ => nofun

theorem scopes : Settles Run.scopes :=
  fun _ _ => nofun

theorem native (n : Native) (vs : List Value) (span : Span) : Settles (Run.native n vs span) := by
  intro w w' h
  unfold Run.native at h
  dsimp only at h
  split at h <;> cases h

theorem unbound (env : FrameId) (x : String) (span : Span) :
    Settles (Run.unbound env x span : Run α) :=
  scopes.bind fun _ => fault _ span

theorem targetFrame (env : FrameId) (global : Bool) (x : String) (span : Span) :
    Settles (Run.targetFrame env global x span) := by
  refine scopes.bind fun s => ?_
  split
  · exact pure _
  · exact fault _ span

theorem readName (env : FrameId) (global : Bool) (x : String) (span : Span) :
    Settles (Run.readName env global x span) := by
  refine (targetFrame env global x span).bind fun frame => scopes.bind fun s => ?_
  split
  · exact pure _
  · exact unbound frame x span

theorem assign (env : FrameId) (global constant : Bool) (x : String) (v : Value) (span : Span) :
    Settles (Run.assign env global constant x v span) := by
  refine (targetFrame env global x span).bind fun frame => scopes.bind fun s => ?_
  dsimp only
  split
  · exact (modify _).bind fun _ => pure v
  · exact (modify _).bind fun _ => pure v
  · exact (fault _ span).bind fun _ => pure v

theorem binary (op : BinaryOp) (v w : Value) (span : Span) : Settles (Run.binary op v w span) := by
  unfold Run.binary
  split
  · exact heap.bind fun h => pure _
  · exact heap.bind fun h => pure _
  · exact heap.bind fun h => modifyGet _
  · exact heap.bind fun h => modifyGet _
  · split
    · exact pure _
    · exact fault _ span
  · exact fault _ span

theorem unary (op : UnaryOp) (v : Value) (span : Span) : Settles (Run.unary op v span) := by
  unfold Run.unary
  split
  · exact pure _
  · exact pure _
  · exact pure _
  · exact modifyGet _
  · exact heap.bind fun h => modifyGet _
  · exact fault _ span

theorem position (v : Value) (span : Span) : Settles (Run.position v span) := by
  unfold Run.position
  split
  · exact pure _
  · split
    · exact pure _
    · exact fault _ span

theorem sliceStop (v : Value) (length : Nat) (span : Span) :
    Settles (Run.sliceStop v length span) := by
  unfold Run.sliceStop
  split
  · exact pure _
  · exact position v span

theorem index (v i : Value) (span : Span) : Settles (Run.index v i span) := by
  unfold Run.index
  split
  · refine (position i span).bind fun i => heap.bind fun h => ?_
    dsimp only
    split
    · exact pure _
    · exact fault _ span
  · refine (position i span).bind fun i => heap.bind fun h => ?_
    dsimp only
    split
    · exact modifyGet _
    · exact fault _ span
  · exact fault _ span

theorem slice (v start stop : Value) (span : Span) : Settles (Run.slice v start stop span) := by
  unfold Run.slice
  split
  · refine heap.bind fun h => (position start span).bind fun i => (sliceStop stop _ span).bind ?_
    intro j
    split
    · exact modifyGet _
    · exact fault _ span
  · refine heap.bind fun h => (position start span).bind fun i => (sliceStop stop _ span).bind ?_
    intro j
    split
    · exact modifyGet _
    · exact fault _ span
  · exact fault _ span

theorem assignElement (env : FrameId) (global : Bool) (x : String) (i v : Value) (span : Span) :
    Settles (Run.assignElement env global x i v span) := by
  refine (targetFrame env global x span).bind fun frame => scopes.bind fun s => ?_
  dsimp only
  split
  · exact unbound frame x span
  · refine (position i span).bind fun i => heap.bind fun h => ?_
    split
    · exact (modify _).bind fun _ => pure v
    · exact (fault _ span).bind fun _ => pure v
  · refine (position i span).bind fun i => heap.bind fun h => ?_
    split
    · exact fault _ span
    · refine heap.bind fun h => ?_
      split
      · exact (modify _).bind fun _ => pure v
      · exact (fault _ span).bind fun _ => pure v
  · exact fault _ span

end Run.Settles

/-! ### Actions that complete -/

/-- An action has ended, with such a result or a fault, in such a world. -/
inductive Completed {α : Type} (I : World → Prop) (Q : α → Prop) :
    EStateM.Result Stop World α → Prop
  | ok {x : α} {w : World} (hq : Q x) (hw : I w) : Completed I Q (.ok x w)
  | fault {f : Fault} {w : World} (hw : I w) : Completed I Q (.error (.fault f) w)

/-- Only functions without loops that are no higher than this, each taken for itself. -/
def loopless (height : Nat) : Correspondence where
  lead := .none
  Functions f g := f = g ∧ Block.loopFree f.body = true ∧ Block.height f.body ≤ height
  Spans _ _ := True
  Allows _ := True
  id_eq h := congrArg Function.id h.1
  params_eq h := congrArg (fun f => f.params.map (·.val)) h.1
  allows_of_placed _ := trivial

/-- Started in a world with such functions only, the action ends, and all that it leaves or returns
are such functions. -/
def Run.Completes {α : Type} (height : Nat) (shape : List (List FrameId)) (Q : α → α → Prop)
    (a : Run α) : Prop :=
  ∀ w, (loopless height).Worlds shape w w →
    Completed (fun w => (loopless height).Worlds shape w w) (fun x => Q x x) (a w)

namespace Run.Completes

open Correspondence

variable {height : Nat} {shape : List (List FrameId)} {α β : Type} {Q : α → α → Prop}
  {R : β → β → Prop}

theorem pure {x : α} (h : Q x x) : Completes height shape Q (Pure.pure x) :=
  fun _ hw => .ok h hw

theorem fault (c : Fault.Cause) (span : Span) : Completes height shape Q (Run.fault c span) :=
  fun _ hw => .fault hw

theorem bind {a : Run α} {k : α → Run β} (ha : a.Completes height shape Q)
    (hk : ∀ x, Q x x → (k x).Completes height shape R) : (a >>= k).Completes height shape R := by
  intro w hw
  have hdone := ha w hw
  show Completed _ _ (EStateM.bind a k w)
  unfold EStateM.bind
  cases h : a w with
  | ok x w' =>
    rw [h] at hdone
    cases hdone with
    | ok hq hw' => exact hk x hq w' hw'
  | error e w' =>
    rw [h] at hdone
    cases hdone with
    | fault hw' => exact .fault hw'

/-- What keeps corresponding worlds and settles completes. -/
theorem of_rel {a : Run α} (hrel : (loopless height).Runs shape Q a a) (hend : a.Settles) :
    a.Completes height shape Q := by
  intro w hw
  have hdone := hrel w w hw
  have hsettled := hend w
  cases h : a w with
  | ok x w' =>
    rw [h] at hdone
    cases hdone with
    | ok hq hw' => exact .ok hq hw'
  | error e w' =>
    rw [h] at hdone hsettled
    cases hdone with
    | error he hw' =>
      cases e with
      | fault f => exact .fault hw'
      | outOfFuel => exact absurd rfl (hsettled w')

/-- A call completes if its body does, in the frame that is made for it. -/
theorem frame (env : FrameId) {f : Function} (hf : (loopless height).Functions f f)
    {vs : List Value} (hv : (loopless height).Lists vs vs) {a : FrameId → Run α}
    (ha : (a shape.length).Completes height (shape ++ [Scopes.around shape env]) Q) :
    (Run.enterFrame env f.params vs >>= fun frame =>
      Run.ensuring (a frame) Run.leaveFrame).Completes height shape Q := by
  intro w hw
  obtain ⟨w', v', hl, hr, hw'⟩ := enterFrame_rel env hf hv hw
  obtain rfl : w' = v' := (EStateM.Result.ok.inj (hl.symm.trans hr)).2
  have hdone := ha w' hw'
  show Completed _ _ (EStateM.bind _ _ w)
  rw [EStateM.bind, hl]
  dsimp only
  rw [Run.ensuring]
  generalize a shape.length w' = r at hdone ⊢
  cases hdone with
  | ok hq hleft => exact .ok hq (leaveFrame_rel hw.scopes.nonempty hleft)
  | fault hleft => exact .fault (leaveFrame_rel hw.scopes.nonempty hleft)

end Run.Completes

/-! ### Evaluation with enough fuel -/

/-- There is enough fuel at this depth for code without loops of height `n`: for the code itself,
and for every call that the limit has room for, each with a body of height `height` at most. -/
structure Affords (limit height fuel : Nat) (depth : Depth) (loopFree : Bool) (n : Nat) : Prop where
  loopFree : loopFree = true
  height_le : n ≤ height
  fuel_le : n + (limit - depth.calls) * (height + 1) ≤ fuel

/-- What is enough for a piece of code is enough for its parts, one step further down. -/
theorem Affords.part {limit height fuel : Nat} {depth : Depth} {b c : Bool} {m n : Nat}
    (h : Affords limit height (fuel + 1) depth b n) (hbc : b = true → c = true) (hmn : m < n) :
    Affords limit height fuel depth c m where
  loopFree := hbc h.loopFree
  height_le := by
    have := h.height_le
    omega
  fuel_le := by
    have := h.fuel_le
    omega

/-- All tasks but loops complete if they are done in this way, and there is this much fuel. -/
structure CompletesAt (limit height fuel : Nat) (r : Task.Runner) : Prop where
  eval : ∀ {shape env depth e}, Affords limit height fuel depth e.loopFree e.height →
    (r (.eval env depth e)).Completes height shape (loopless height).Values
  evalAll : ∀ {shape env depth es},
    Affords limit height fuel depth (Expr.allLoopFree es) (Expr.heightOfAll es) →
    (r (.evalAll env depth es)).Completes height shape (loopless height).Lists
  evalOr : ∀ {shape env depth absent e}, (loopless height).Values absent absent →
    Affords limit height fuel depth (Expr.optionLoopFree e) (Expr.heightOfOption e) →
    (r (.evalOr env depth absent e)).Completes height shape (loopless height).Values
  call : ∀ {shape} env {depth : Depth} {f vs} span, (loopless height).Functions f f →
    (loopless height).Lists vs vs → (limit - depth.calls) * (height + 1) < fuel →
    (r (.call env depth f vs span)).Completes height shape (loopless height).Values
  exec : ∀ {shape env depth s}, Affords limit height fuel depth s.loopFree s.height →
    (r (.exec env depth s)).Completes height shape (loopless height).Signals
  execBlock : ∀ {shape env depth ss},
    Affords limit height fuel depth (Block.loopFree ss) (Block.height ss) →
    (r (.execBlock env depth ss)).Completes height shape (loopless height).Signals

namespace CompletesAt

open Correspondence
open Run.Completes (of_rel)

variable {limit height fuel : Nat} {r : Task.Runner} (ih : CompletesAt limit height fuel r)
  {shape : List (List FrameId)} {env : FrameId} {depth : Depth}
include ih

theorem callee_step {span : Span} {callee : Expr FunctionId} {args : List (Expr FunctionId)}
    (h : Affords limit height (fuel + 1) depth (Expr.call span callee args).loopFree
      (Expr.call span callee args).height) :
    ((Task.planExpr env depth (.call span callee args)).run r).Completes height shape
      (loopless height).Values := by
  simp only [Expr.loopFree, Expr.height] at h
  have hargs := h.part (c := Expr.allLoopFree args) (m := Expr.heightOfAll args)
    (by simp +contextual) (by omega)
  refine (ih.eval (h.part (by simp +contextual) (by omega))).bind fun v hv => ?_
  cases v with
  | function f =>
    cases hv with
    | function hf =>
      dsimp only
      split
      · refine (ih.evalAll hargs).bind fun vs hvs => ih.call env span hf hvs ?_
        have := hargs.fuel_le
        have := Expr.heightOfAll_pos args
        omega
      · exact .fault _ span
  | native n =>
    dsimp only
    split
    · exact (ih.evalAll hargs).bind fun vs hvs =>
        of_rel (native_rel n hvs trivial) (.native n vs span)
    · exact .fault _ span
  | _ => exact .fault _ _

theorem eval_step {e : Expr FunctionId}
    (h : Affords limit height (fuel + 1) depth e.loopFree e.height) :
    ((Task.planExpr env depth e).run r).Completes height shape
      (loopless height).Values := by
  cases e with
  | number span x => exact .pure (.float x)
  | text span s => exact of_rel (runNewText_rel _) (.modifyGet _)
  | bool span b => exact .pure (.bool b)
  | nil span => exact .pure .nil
  | array span items =>
    simp only [Expr.loopFree, Expr.height] at h
    exact (ih.evalAll (h.part id (by omega))).bind fun vs hvs =>
      of_rel (runNewArray_rel hvs) (.modifyGet _)
  | group span inner =>
    simp only [Expr.loopFree, Expr.height] at h
    exact ih.eval (h.part id (by omega))
  | name span global x =>
    exact of_rel (readName_rel env global x (fun _ _ => trivial) trivial)
      (.readName env global x span)
  | binary span op left right =>
    simp only [Expr.loopFree, Expr.height] at h
    have hleft : (r (.eval env depth left)).Completes height shape
        (loopless height).Values := ih.eval (h.part (by simp +contextual) (by omega))
    have hright : (r (.eval env depth right)).Completes height shape
        (loopless height).Values := ih.eval (h.part (by simp +contextual) (by omega))
    have hstrict := hleft.bind fun v hv => hright.bind fun w hw =>
      of_rel (binary_rel op hv hw trivial) (.binary op v w span)
    cases op with
    | and =>
      refine hleft.bind fun v hv => ?_
      dsimp only
      split
      · exact hright
      · exact .pure hv
    | or =>
      refine hleft.bind fun v hv => ?_
      dsimp only
      split
      · exact .pure hv
      · exact hright
    | _ => exact hstrict
  | unary span op operand =>
    simp only [Expr.loopFree, Expr.height] at h
    exact (ih.eval (h.part id (by omega))).bind fun v hv =>
      of_rel (unary_rel op hv trivial) (.unary op v span)
  | conditional span test yes no =>
    simp only [Expr.loopFree, Expr.height] at h
    refine (ih.eval (h.part (by simp +contextual) (by omega))).bind fun v hv => ?_
    dsimp only
    split
    · exact ih.eval (h.part (by simp +contextual) (by omega))
    · exact ih.eval (h.part (by simp +contextual) (by omega))
  | call span callee args => exact ih.callee_step h
  | index span target i =>
    simp only [Expr.loopFree, Expr.height] at h
    refine (ih.eval (h.part (by simp +contextual) (by omega))).bind fun v hv => ?_
    refine (ih.eval (h.part (by simp +contextual) (by omega))).bind fun i hi => ?_
    exact of_rel (index_rel hv hi trivial) (.index v i span)
  | slice span target start stop =>
    simp only [Expr.loopFree, Expr.height] at h
    refine (ih.eval (h.part (by simp +contextual) (by omega))).bind fun v hv => ?_
    refine (ih.evalOr (.float _) (h.part (by simp +contextual) (by omega))).bind fun i hi => ?_
    refine (ih.evalOr (.float _) (h.part (by simp +contextual) (by omega))).bind fun j hj => ?_
    exact of_rel (slice_rel hv hi hj trivial) (.slice v i j span)
  | assign span global constant x value =>
    simp only [Expr.loopFree, Expr.height] at h
    refine (ih.eval (h.part id (by omega))).bind fun v hv => ?_
    exact of_rel (assign_rel env global constant x (fun _ _ => trivial) hv trivial)
      (.assign env global constant x v span)
  | assignIndex span global constant x i value =>
    simp only [Expr.loopFree, Expr.height] at h
    cases constant with
    | true => exact .fault _ span
    | false =>
      refine (ih.eval (h.part (by simp +contextual) (by omega))).bind fun i hi => ?_
      refine (ih.eval (h.part (by simp +contextual) (by omega))).bind fun v hv => ?_
      exact of_rel (assignElement_rel env global x (fun _ _ => trivial) hi hv trivial)
        (.assignElement env global x i v span)
  | function span id params body =>
    -- the body is part of the expression, so it is no higher
    simp only [Expr.loopFree, Expr.height] at h
    exact .pure (.function ⟨rfl, h.loopFree, Nat.le_of_succ_le h.height_le⟩)

theorem evalAll_step {es : List (Expr FunctionId)}
    (h : Affords limit height (fuel + 1) depth (Expr.allLoopFree es) (Expr.heightOfAll es)) :
    (Task.carryOut limit r (.evalAll env depth es)).Completes height shape
      (loopless height).Lists := by
  cases es with
  | nil => exact .pure .nil
  | cons e es =>
    simp only [Expr.allLoopFree, Expr.heightOfAll] at h
    refine (ih.eval (h.part (by simp +contextual) (by omega))).bind fun v hv => ?_
    refine (ih.evalAll (h.part (by simp +contextual) (by omega))).bind fun vs hvs => ?_
    exact .pure (.cons hv hvs)

theorem evalOr_step {absent : Value} (habsent : (loopless height).Values absent absent)
    {e : Option (Expr FunctionId)}
    (h : Affords limit height (fuel + 1) depth (Expr.optionLoopFree e) (Expr.heightOfOption e)) :
    (Task.carryOut limit r (.evalOr env depth absent e)).Completes height shape
      (loopless height).Values := by
  cases e with
  | none => exact .pure habsent
  | some e =>
    simp only [Expr.optionLoopFree, Expr.heightOfOption] at h
    exact ih.eval (h.part id (by omega))

theorem call_step (env : FrameId) {f : Function} {vs : List Value} (span : Span)
    (hf : (loopless height).Functions f f) (hvs : (loopless height).Lists vs vs)
    (hfuel : (limit - depth.calls) * (height + 1) < fuel + 1) :
    (Task.carryOut limit r (.call env depth f vs span)).Completes height shape
      (loopless height).Values := by
  by_cases hover : limit < depth.enterCall.calls
  · rw [Task.carryOut, Task.plan, if_pos hover]
    exact .fault _ span
  · rw [Task.carryOut_call r hover]
    -- one call deeper there is room for one call less
    have hroom : limit - depth.calls = limit - depth.enterCall.calls + 1 := by
      simp only [Depth.enterCall] at hover ⊢
      omega
    have hbody : Affords limit height fuel depth.enterCall (Block.loopFree f.body)
        (Block.height f.body) := by
      refine ⟨hf.2.1, hf.2.2, ?_⟩
      have hle := hf.2.2
      rw [hroom, Nat.succ_mul] at hfuel
      omega
    refine (Run.Completes.frame env hf hvs (ih.execBlock hbody)).bind fun s hs => ?_
    cases hs with
    | «return» hv => exact .pure hv
    | _ => exact .pure .nil

theorem exec_step {s : Stmt FunctionId}
    (h : Affords limit height (fuel + 1) depth s.loopFree s.height) :
    ((Task.planStmt env depth s).run r).Completes height shape
      (loopless height).Signals := by
  cases s with
  | expr span e =>
    simp only [Stmt.loopFree, Stmt.height] at h
    exact (ih.eval (h.part id (by omega))).bind fun v hv => .pure .normal
  | block span body =>
    simp only [Stmt.loopFree, Stmt.height] at h
    exact ih.execBlock (h.part id (by omega))
  | cond span test yes no =>
    simp only [Stmt.loopFree, Stmt.height] at h
    refine (ih.eval (h.part (by simp +contextual) (by omega))).bind fun v hv => ?_
    dsimp only
    split
    · exact ih.execBlock (h.part (by simp +contextual) (by omega))
    · cases no with
      | none => exact .pure .normal
      | some no =>
        simp only [Block.optionLoopFree, Block.heightOfOption] at h
        exact ih.execBlock (h.part (by simp +contextual) (by omega))
  | «while» span test body => exact absurd h.loopFree (by simp [Stmt.loopFree])
  | range span x cmp first last body => exact absurd h.loopFree (by simp [Stmt.loopFree])
  | «break» span =>
    rw [Task.planStmt]
    split
    · exact .pure .break
    · exact .fault _ span
  | «continue» span =>
    rw [Task.planStmt]
    split
    · exact .pure .continue
    · exact .fault _ span
  | «return» span value =>
    simp only [Stmt.loopFree, Stmt.height] at h
    rw [Task.planStmt]
    split
    · exact (ih.evalOr .nil (h.part id (by omega))).bind fun v hv => .pure (.return hv)
    · exact .fault _ span

theorem execBlock_step {ss : Block FunctionId}
    (h : Affords limit height (fuel + 1) depth (Block.loopFree ss) (Block.height ss)) :
    (Task.carryOut limit r (.execBlock env depth ss)).Completes height shape
      (loopless height).Signals := by
  cases ss with
  | nil => exact .pure .normal
  | cons s ss =>
    simp only [Block.loopFree, Block.height] at h
    refine (ih.exec (h.part (by simp +contextual) (by omega))).bind fun signal hs => ?_
    cases hs with
    | normal => exact ih.execBlock (h.part (by simp +contextual) (by omega))
    | «break» => exact .pure .break
    | «continue» => exact .pure .continue
    | «return» hv => exact .pure (.return hv)

end CompletesAt

/-- Without fuel only code of no height could be afforded, and there is none. -/
theorem Affords.height_eq_zero {limit height : Nat} {depth : Depth} {b : Bool} {n : Nat}
    (h : Affords limit height 0 depth b n) : n = 0 := by
  have := h.fuel_le
  omega

/-- **Without loops, evaluation completes if it is given enough fuel.** -/
theorem evaluation_completes (limit height fuel : Nat) :
    CompletesAt limit height fuel (Task.run limit fuel) := by
  induction fuel with
  | zero =>
    constructor
    · intro _ _ _ e h
      exact absurd h.height_eq_zero e.height_pos.ne'
    · intro _ _ _ es h
      exact absurd h.height_eq_zero (Expr.heightOfAll_pos es).ne'
    · intro _ _ _ _ e _ h
      exact absurd h.height_eq_zero (Expr.heightOfOption_pos e).ne'
    · intro _ _ _ _ _ _ _ _ h
      exact absurd h (Nat.not_lt_zero _)
    · intro _ _ _ s h
      exact absurd h.height_eq_zero s.height_pos.ne'
    · intro _ _ _ ss h
      exact absurd h.height_eq_zero (Block.height_pos ss).ne'
  | succ fuel ih =>
    rw [Task.run_add_one]
    exact {
      eval := fun h => ih.eval_step h
      evalAll := fun h => ih.evalAll_step h
      evalOr := fun hv h => ih.evalOr_step hv h
      call := fun env _ _ _ span hf hvs h => ih.call_step env span hf hvs h
      exec := fun h => ih.exec_step h
      execBlock := fun h => ih.execBlock_step h }

/-! ### Programs -/

namespace Program

/-- No loop anywhere, function bodies included. -/
def loopFree (p : Program) : Bool :=
  Block.loopFree p.body

def height (p : Program) : Nat :=
  Block.height p.body

/-- Fuel that is enough for a program without loops: its height, once for the program and once for
every call that the limit allows to be inside another. -/
def amount (p : Program) (limit : Nat) : Nat :=
  p.height + limit * (p.height + 1)

theorem affords (p : Program) (hp : p.loopFree = true) {limit fuel : Nat}
    (hfuel : p.amount limit ≤ fuel) (ordinal : Nat) :
    Affords limit p.height fuel .top (Block.loopFree (p.mark ordinal))
      (Block.height (p.mark ordinal)) := by
  obtain ⟨hloops, hheight⟩ := Block.mark_measures p.body [] ordinal
  refine ⟨hloops.trans hp, hheight.le, ?_⟩
  rw [mark, hheight]
  exact hfuel

end Program

namespace Interpreter

theorem action_completes (limit : Nat) (console : Console) {p : Program} (hp : p.loopFree = true)
    {fuel : Nat} (hfuel : p.amount limit ≤ fuel) :
    ∃ (e : Ending) (w : World),
      (new limit console).action fuel p (new limit console).world = e.result w := by
  have hbody : (execBlock limit fuel 0 .top (p.mark 0)).Completes p.height [[]]
      (loopless p.height).Signals :=
    (evaluation_completes limit p.height fuel).execBlock (p.affords hp hfuel 0)
  -- a new interpreter has no function yet
  have hdone := hbody _ (new_corresponds (loopless p.height) limit console)
  show ∃ (e : Ending) (w : World),
    execBlock limit fuel 0 .top (p.mark 0) (new limit console).world = e.result w
  generalize execBlock limit fuel 0 .top (p.mark 0) (new limit console).world = r at hdone ⊢
  cases hdone with
  | ok hq hw => exact ⟨.ok _, _, rfl⟩
  | fault hw => exact ⟨.error _, _, rfl⟩

/-- **A program without loops ends**, with a signal or with a fault, under every limit and with
every console. There is one such end for all fuel that is enough, and how much that is depends on
the program and the limit only. Nor does an action hide anything that might not end: comparing is a
finite walk through the values, and rendering stays the same however deep it may go. -/
theorem ends_of_loopFree {p : Program} (hp : p.loopFree = true) (limit : Nat) (console : Console) :
    (∃ (e : Ending) (j : Interpreter), ∀ fuel, p.amount limit ≤ fuel →
      (new limit console).run fuel p = (e.outcome, j)) ∧
    ∀ h : Heap, (∀ v w, h.Walk [] [(v, w)] (h.equal v w)) ∧
      ∀ v n, h.arrays.size < n →
        h.renderNested n [] v = h.renderNested (h.arrays.size + 1) [] v := by
  refine ⟨?_, fun h => ⟨h.walk_equal, fun v n hn => ?_⟩⟩
  · obtain ⟨e, w, haction⟩ := action_completes limit console hp (Nat.le_refl _)
    have hend : (new limit console).run (p.amount limit) p =
        (e.outcome, (new limit console).after p w) := run_eq_iff.mpr ⟨w, haction, rfl⟩
    refine ⟨e, (new limit console).after p w, fun fuel hfuel => ?_⟩
    obtain ⟨d, v, haction'⟩ := action_completes limit console hp hfuel
    have hend' : (new limit console).run fuel p = (d.outcome, (new limit console).after p v) :=
      run_eq_iff.mpr ⟨v, haction', rfl⟩
    obtain ⟨rfl, hj⟩ := Ends.unique ⟨_, hend⟩ ⟨_, hend'⟩
    rw [hend', hj]
  · exact Heap.renderNested_fuel List.nodup_nil nofun (by simpa using hn) (by simp) v

/-- A function that is kept in an array which contains itself, and that calls itself through it. -/
theorem ends_of_loopFree_cycle :
    let source := "a = [nil, nil]; a[0] = a; " ++
      "a[1] = fn(b) \x7b print(a == b); return b[1](b); \x7d; a[1](a);"
    ∃ p, Program.ofSource source = .ok p ∧ p.loopFree = true ∧
      ∃ (e : Ending) (j : Interpreter), ∀ fuel, p.amount 100 ≤ fuel →
        (new 100 (.ofInput [])).run fuel p = (e.outcome, j) := by
  intro source
  obtain ⟨p, hp, hloops⟩ : ∃ p, Program.ofSource source = .ok p ∧ p.loopFree = true := by
    decide +kernel
  exact ⟨p, hp, hloops, (ends_of_loopFree hloops 100 (.ofInput [])).1⟩

end Interpreter

end Scriptlet
