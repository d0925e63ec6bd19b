import Scriptlet.Eval.Operations

/-!
Evaluation of expressions and execution of statements.

Both take the number of the active frame and the calls and loops around. The fuel drops at every
step down and at every turn of a loop, and an action whose fuel is used up stops with
`Stop.outOfFuel`, which is no fault: more fuel then may give a result, and a result does not change
with more fuel.
-/
namespace Scriptlet

/-- The name of a callee in messages. -/
def Expr.calleeName {φ : Type} : Expr φ → String
  | .name _ _ x => x
  | _ => "<anonymous>"

section

variable (limit : Nat)

mutual

/-- Evaluate an expression. -/
def eval : Nat → FrameId → Depth → Expr FunctionId → Run Value
  | 0, _, _, _ => throw .outOfFuel
  | fuel + 1, env, depth, e =>
    match e with
    | .number _ x => return .float x
    | .text _ s => Run.newText (.ofList s.toList)
    | .bool _ b => return .bool b
    | .nil _ => return .nil
    | .array _ items => do
      let vs ← evalAll fuel env depth items
      Run.newArray (.ofList vs)
    | .group _ inner => eval fuel env depth inner
    | .name span global x => Run.readName env global x span
    | .binary _ .and left right => do
      let v ← eval fuel env depth left
      if v.truthy then eval fuel env depth right else return v
    | .binary _ .or left right => do
      let v ← eval fuel env depth left
      if v.truthy then return v else eval fuel env depth right
    | .binary span op left right => do
      let v ← eval fuel env depth left
      let w ← eval fuel env depth right
      Run.binary op v w span
    | .unary span op operand => do
      let v ← eval fuel env depth operand
      Run.unary op v span
    | .conditional _ test yes no => do
      let v ← eval fuel env depth test
      if v.truthy then eval fuel env depth yes else eval fuel env depth no
    | .call span callee args => do
      let f ← eval fuel env depth callee
      match f with
      | .function f =>
        if f.params.length = args.length then
          let vs ← evalAll fuel env depth args
          call fuel env depth f vs span
        else
          Run.fault (.arity callee.calleeName (.exactly f.params.length) args.length) span
      | .native n =>
        if n.arity.accepts args.length then
          let vs ← evalAll fuel env depth args
          Run.native n vs span
        else
          Run.fault (.arity n.signature n.arity args.length) span
      | v => Run.fault (.notCallable v.kind) callee.span
    | .index span target i => do
      let v ← eval fuel env depth target
      let i ← eval fuel env depth i
      Run.index v i span
    | .slice span target start stop => do
      let v ← eval fuel env depth target
      let start ← evalOr fuel env depth (.float Number.negativeInfinity) start
      let stop ← evalOr fuel env depth (.float Number.infinity) stop
      Run.slice v start stop span
    | .assign span global constant x value => do
      let v ← eval fuel env depth value
      Run.assign env global constant x v span
    | .assignIndex span global constant x i value =>
      if constant then Run.fault (.constantElement x) span
      else do
        let i ← eval fuel env depth i
        let v ← eval fuel env depth value
        Run.assignElement env global x i v span
    | .function _ id params body => return .function ⟨id, params, body⟩
termination_by structural fuel => fuel

/-- Evaluate expressions from left to right. -/
def evalAll : Nat → FrameId → Depth → List (Expr FunctionId) → Run (List Value)
  | 0, _, _, _ => throw .outOfFuel
  | _ + 1, _, _, [] => return []
  | fuel + 1, env, depth, e :: es => do
    let v ← eval fuel env depth e
    let vs ← evalAll fuel env depth es
    return v :: vs
termination_by structural fuel => fuel

/-- Evaluate an expression that may be absent. -/
def evalOr : Nat → FrameId → Depth → Value → Option (Expr FunctionId) → Run Value
  | 0, _, _, _, _ => throw .outOfFuel
  | _ + 1, _, _, absent, none => return absent
  | fuel + 1, env, depth, _, some e => eval fuel env depth e
termination_by structural fuel => fuel

/-- Call a function from a frame, in a new frame inside it. -/
def call : Nat → FrameId → Depth → Function → List Value → Span → Run Value
  | 0, _, _, _, _, _ => throw .outOfFuel
  | fuel + 1, env, depth, f, args, span =>
    let depth := depth.enterCall
    if limit < depth.calls then Run.fault (.stackOverflow limit) span
    else do
      let frame ← Run.enterFrame env f.params args
      let signal ← Run.ensuring (execBlock fuel frame depth f.body) Run.leaveFrame
      match signal with
      | .return v => return v
      | _ => return .nil
termination_by structural fuel => fuel

/-- Execute a statement. -/
def exec : Nat → FrameId → Depth → Stmt FunctionId → Run Signal
  | 0, _, _, _ => throw .outOfFuel
  | fuel + 1, env, depth, s =>
    match s with
    | .expr _ e => do
      let _ ← eval fuel env depth e
      return .normal
    | .block _ body => execBlock fuel env depth body
    | .cond _ test yes no => do
      let v ← eval fuel env depth test
      if v.truthy then execBlock fuel env depth yes
      else
        match no with
        | some no => execBlock fuel env depth no
        | none => return .normal
    | .while _ test body => execWhile fuel env depth test body
    | .range _ x cmp first last body => do
      let v ← eval fuel env depth first
      let i ← Run.rangeBound v first.span
      let w ← eval fuel env depth last
      let j ← Run.rangeBound w last.span
      let step ← Run.rangeStep cmp i j (first.span.merge last.span)
      Run.modifyScopes (·.add env x.val ⟨.float i, true⟩)
      Run.ensuring (execRange fuel env depth x cmp.val j step body) fun w =>
        { w with scopes := w.scopes.remove env x.val }
    | .break span =>
      if depth.inLoop then return .break else Run.fault .breakOutsideLoop span
    | .continue span =>
      if depth.inLoop then return .continue else Run.fault .continueOutsideLoop span
    | .return span value =>
      if depth.inCall then do
        let v ← evalOr fuel env depth .nil value
        return .return v
      else Run.fault .returnOutsideFunction span
termination_by structural fuel => fuel

/-- Execute statements up to the first that does not end normally. -/
def execBlock : Nat → FrameId → Depth → Block FunctionId → Run Signal
  | 0, _, _, _ => throw .outOfFuel
  | _ + 1, _, _, [] => return .normal
  | fuel + 1, env, depth, s :: rest => do
    let signal ← exec fuel env depth s
    match signal with
    | .normal => execBlock fuel env depth rest
    | signal => return signal
termination_by structural fuel => fuel

/-- The turns of a loop with a test. -/
def execWhile : Nat → FrameId → Depth → Expr FunctionId → Block FunctionId → Run Signal
  | 0, _, _, _, _ => throw .outOfFuel
  | fuel + 1, env, depth, test, body => do
    let v ← eval fuel env depth test
    if v.truthy then
      let signal ← execBlock fuel env depth.enterLoop body
      match signal with
      | .break => return .normal
      | .return v => return .return v
      | _ => execWhile fuel env depth test body
    else return .normal
termination_by structural fuel => fuel

/-- The turns of a loop over a range; the counter is read anew before and after each. -/
def execRange : Nat → FrameId → Depth → Located String → BinaryOp → Float → Float →
    Block FunctionId → Run Signal
  | 0, _, _, _, _, _, _, _ => throw .outOfFuel
  | fuel + 1, env, depth, x, cmp, last, step, body => do
    let i ← Run.rangeCounter env x
    if Run.compare cmp i last then
      let signal ← execBlock fuel env depth.enterLoop body
      match signal with
      | .break => return .normal
      | .return v => return .return v
      | _ =>
        let i ← Run.rangeCounter env x
        Run.modifyScopes (·.add env x.val ⟨.float (i + step), true⟩)
        execRange fuel env depth x cmp last step body
    else return .normal
termination_by structural fuel => fuel

end

end

end Scriptlet
