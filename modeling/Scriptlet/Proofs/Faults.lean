import Scriptlet.Proofs.Invocations

/-!
Faults about what is around an action.

Most faults are about the values that an action is given. Two kinds are about what is around it: a name
is not bound in the scopes, or one more call would be too many. The former come from one of three
actions: a name is read, an element of a name is assigned, or a range loop looks for its counter. The
latter come from calls. All other actions are quiet (`Run.Quiet`). Each of the three looks at the scopes
as they are at that moment, and a call at the calls around it (`Run.FaultsAt`). So a run that stops with
such a fault has a task in it that misses the name (`Task.Raises.misses`) or is at the limit
(`Task.Raises.overflows`).
-/
namespace Scriptlet

/-! ### Quiet actions -/

/-- Whether a fault is about what is around the action that raises it: the scopes, or the calls. -/
def Fault.Cause.isContextual : Fault.Cause → Bool
  | unbound .. | stackOverflow _ => true
  | _ => false

/-- A name was looked for in the active frame, or in the global one for a `global`, and is not bound
there. The names that are told of are those visible from that frame. -/
def Scopes.Misses (s : Scopes) (env : FrameId) (global : Bool) (x : String)
    (visible : List (List String)) : Prop :=
  ∃ f, s.target? env global = some f ∧ s.find? f x = none ∧ visible = s.visibleNames f

/-- A fault about what is around is right: the name is missed in the scopes, or the call overflows. -/
inductive Scopes.Blames (s : Scopes) (env : FrameId) (global : Bool) (Over : Nat → Span → Prop) :
    Fault → Prop
  | unbound {x : String} {visible : List (List String)} {span : Span}
    (h : s.Misses env global x visible) : Blames s env global Over ⟨.unbound x visible, span⟩
  | stackOverflow {n : Nat} {span : Span} (h : Over n span) :
    Blames s env global Over ⟨.stackOverflow n, span⟩

namespace Run

variable {α β : Type} {env : FrameId} {global : Bool} {Over : Nat → Span → Prop}

/-- No fault of the action is about what is around it. -/
def Quiet (a : Run α) : Prop :=
  ∀ w f w', a w = .error (.fault f) w' → f.cause.isContextual = false

/-- The faults of the action about what is around it are right. -/
def FaultsAt (env : FrameId) (global : Bool) (Over : Nat → Span → Prop) {α : Type} (a : Run α) :
    Prop :=
  ∀ w f w', a w = .error (.fault f) w' → f.cause.isContextual = true →
    w.scopes.Blames env global Over f

namespace Quiet

theorem faultsAt {a : Run α} (h : a.Quiet) : a.FaultsAt env global Over := by
  intro w f w' ha hcontext
  rw [h w f w' ha] at hcontext
  cases hcontext

theorem pure (x : α) : Quiet (Pure.pure x) := by
  intro w f w' h
  cases h

theorem fault {c : Fault.Cause} (hc : c.isContextual = false) (span : Span) :
    Quiet (Run.fault c span : Run α) := by
  intro w f w' h
  cases h
  exact hc

theorem bind {a : Run α} {k : α → Run β} (ha : a.Quiet) (hk : ∀ x, (k x).Quiet) :
    Quiet (a >>= k) := by
  intro w f w' h
  rcases Actions.bind_eq_error.mp h with h | ⟨x, v, -, h⟩
  · exact ha w f w' h
  · exact hk x v f w' h

/-- Nothing is wrong with an action that always has a result. -/
theorem of_ok {a : Run α} (h : ∀ w, ∃ x v, a w = .ok x v) : a.Quiet := by
  intro w f w' herror
  obtain ⟨x, v, hok⟩ := h w
  cases hok.symm.trans herror

theorem heap : Quiet Run.heap := .of_ok fun w => ⟨_, w, rfl⟩

theorem scopes : Quiet Run.scopes := .of_ok fun w => ⟨_, w, rfl⟩

theorem newText (b : Buffer Char) : Quiet (Run.newText b) := .of_ok fun _ => ⟨_, _, rfl⟩

theorem newArray (b : Buffer Value) : Quiet (Run.newArray b) := .of_ok fun _ => ⟨_, _, rfl⟩

theorem modifyScopes (f : Scopes → Scopes) : Quiet (Run.modifyScopes f) :=
  .of_ok fun _ => ⟨_, _, rfl⟩

theorem enterFrame (env : FrameId) (params : List (Located String)) (args : List Value) :
    Quiet (Run.enterFrame env params args) := .of_ok fun _ => ⟨_, _, rfl⟩

theorem native (n : Native) (args : List Value) (span : Span) : Quiet (Run.native n args span) := by
  intro w f w' h
  rw [Run.native] at h
  split at h
  · cases h
  · cases h
    rfl

theorem binary (op : BinaryOp) (v w : Value) (span : Span) : Quiet (Run.binary op v w span) := by
  unfold Run.binary
  split
  · exact heap.bind fun h => .pure _
  · exact heap.bind fun h => .pure _
  · exact heap.bind fun h => .newText _
  · exact heap.bind fun h => .newArray _
  · split
    · exact .pure _
    · exact .fault rfl span
  · exact .fault rfl span

theorem unary (op : UnaryOp) (v : Value) (span : Span) : Quiet (Run.unary op v span) := by
  unfold Run.unary
  split
  · exact .pure _
  · exact .pure _
  · exact .pure _
  · exact .newText _
  · exact heap.bind fun h => .newText _
  · exact .fault rfl span

theorem position (v : Value) (span : Span) : Quiet (Run.position v span) := by
  unfold Run.position
  split
  · exact .pure _
  · split
    · exact .pure _
    · exact .fault rfl span

theorem sliceStop (v : Value) (length : Nat) (span : Span) : Quiet (Run.sliceStop v length span) := by
  unfold Run.sliceStop
  split
  · exact .pure _
  · exact .position v span

theorem index (v i : Value) (span : Span) : Quiet (Run.index v i span) := by
  unfold Run.index
  split
  · refine (position i span).bind fun i => heap.bind fun h => ?_
    dsimp only
    split
    · exact .pure _
    · exact .fault rfl span
  · refine (position i span).bind fun i => heap.bind fun h => ?_
    dsimp only
    split
    · exact .newText _
    · exact .fault rfl span
  · exact .fault rfl span

theorem slice (v start stop : Value) (span : Span) : Quiet (Run.slice v start stop span) := by
  unfold Run.slice
  split
  · refine heap.bind fun h => (position start span).bind fun i =>
      (sliceStop stop _ span).bind fun j => ?_
    split
    · exact .newArray _
    · exact .fault rfl span
  · refine heap.bind fun h => (position start span).bind fun i =>
      (sliceStop stop _ span).bind fun j => ?_
    split
    · exact .newText _
    · exact .fault rfl span
  · exact .fault rfl span

theorem targetFrame (env : FrameId) (global : Bool) (x : String) (span : Span) :
    Quiet (Run.targetFrame env global x span) := by
  refine scopes.bind fun s => ?_
  split
  · exact .pure _
  · exact .fault rfl span

theorem assign (env : FrameId) (global constant : Bool) (x : String) (v : Value) (span : Span) :
    Quiet (Run.assign env global constant x v span) := by
  refine (targetFrame env global x span).bind fun frame => scopes.bind fun s => ?_
  split
  · exact (modifyScopes _).bind fun _ => .pure v
  · exact (modifyScopes _).bind fun _ => .pure v
  · exact (Quiet.fault rfl span).bind fun _ => .pure v

theorem rangeBound (v : Value) (span : Span) : Quiet (Run.rangeBound v span) := by
  unfold Run.rangeBound
  split
  · split
    · exact .pure _
    · exact .fault rfl span
  · exact .fault rfl span

theorem rangeStep (cmp : Located BinaryOp) (first last : Float) (span : Span) :
    Quiet (Run.rangeStep cmp first last span) := by
  unfold Run.rangeStep
  split
  case h_5 => exact .fault rfl cmp.span
  all_goals
    split
    · exact .fault rfl span
    · exact .pure _

end Quiet

/-! ### The three actions that tell of a name that is not bound -/

theorem targetFrame_eq_ok {global : Bool} {x : String} {span : Span} {w v : World} {f : FrameId}
    (h : targetFrame env global x span w = .ok f v) :
    v = w ∧ w.scopes.target? env global = some f := by
  obtain ⟨s, u, hs, h⟩ := Actions.bind_eq_ok.mp h
  cases hs
  cases htarget : w.scopes.target? env global with
  | none =>
    rw [htarget] at h
    cases h
  | some g =>
    rw [htarget] at h
    cases h
    exact ⟨rfl, rfl⟩

theorem blames_of_unbound {w w' : World} {f : FrameId} {x : String} {span : Span} {e : Fault}
    (htarget : w.scopes.target? env global = some f) (hfind : w.scopes.find? f x = none)
    (h : (unbound f x span : Run α) w = .error (.fault e) w') :
    w.scopes.Blames env global Over e := by
  cases h
  exact .unbound ⟨f, htarget, hfind, rfl⟩

theorem readName_faultsAt (x : String) (span : Span) :
    FaultsAt env global Over (readName env global x span) := by
  intro w e w' hread hcontext
  rcases Actions.bind_eq_error.mp hread with h | ⟨f, v, hf, h⟩
  · exact (Quiet.targetFrame env global x span).faultsAt w e w' h hcontext
  · obtain ⟨rfl, htarget⟩ := targetFrame_eq_ok hf
    rcases Actions.bind_eq_error.mp h with h | ⟨s, u, hs, h⟩
    · cases h
    · cases hs
      cases hlookup : v.scopes.lookup? f x with
      | some b =>
        rw [hlookup] at h
        cases h
      | none =>
        rw [hlookup] at h
        -- a frame is the first of its own chain
        rw [Scopes.lookup?_eq, Scopes.chain_eq_cons] at hlookup
        have hfind := List.findSome?_eq_none_iff.mp hlookup f List.mem_cons_self
        exact blames_of_unbound htarget hfind h

theorem assignElement_faultsAt (x : String) (i v : Value) (span : Span) :
    FaultsAt env global Over (assignElement env global x i v span) := by
  intro w e w' hassign hcontext
  rcases Actions.bind_eq_error.mp hassign with h | ⟨f, u, hf, h⟩
  · exact (Quiet.targetFrame env global x span).faultsAt w e w' h hcontext
  · obtain ⟨rfl, htarget⟩ := targetFrame_eq_ok hf
    rcases Actions.bind_eq_error.mp h with h | ⟨s, u', hs, h⟩
    · cases h
    · cases hs
      cases hfind : u.scopes.find? f x with
      | none =>
        rw [hfind] at h
        exact blames_of_unbound htarget hfind h
      | some b =>
        rw [hfind] at h
        obtain ⟨value, isMutable⟩ := b
        -- from here on the element is what may be wrong
        refine (Quiet.faultsAt ?_) u e w' h hcontext
        cases value with
        | array r =>
          refine (Quiet.position i span).bind fun i => Quiet.heap.bind fun h => ?_
          dsimp only
          split
          · exact (Quiet.of_ok fun _ => ⟨_, _, rfl⟩).bind fun _ => .pure v
          · exact (Quiet.fault rfl span).bind fun _ => .pure v
        | text r =>
          refine (Quiet.position i span).bind fun i => Quiet.heap.bind fun h => ?_
          dsimp only
          split
          · exact .fault rfl span
          · refine Quiet.heap.bind fun h => ?_
            split
            · exact (Quiet.of_ok fun _ => ⟨_, _, rfl⟩).bind fun _ => .pure v
            · exact (Quiet.fault rfl span).bind fun _ => .pure v
        | _ => exact .fault rfl span

theorem rangeCounter_faultsAt (x : Located String) :
    FaultsAt env false Over (rangeCounter env x) := by
  intro w e w' h hcontext
  rcases Actions.bind_eq_error.mp h with h | ⟨s, u, hs, h⟩
  · cases h
  · cases hs
    cases hfind : w.scopes.find? env x.val with
    | none =>
      rw [hfind] at h
      exact blames_of_unbound rfl hfind h
    | some b =>
      rw [hfind] at h
      obtain ⟨value, isMutable⟩ := b
      cases value <;> cases h <;> cases hcontext

end Run

/-! ### Faults of tasks -/

namespace Task

variable {limit fuel : Nat} {w v : World} {Over : Nat → Span → Prop}

/-- Whether the task itself looks for a name in the global frame. -/
def looksGlobally : Task → Bool
  | eval _ _ (.name _ global _) | eval _ _ (.assignIndex _ global _ _ _ _) => global
  | _ => false

/-- The task is a call that would be one too many. -/
inductive Overflows (limit : Nat) : Task → Nat → Span → Prop
  | call {env : FrameId} {depth : Depth} {f : Function} {args : List Value} {span : Span}
    (h : limit < depth.enterCall.calls) : Overflows limit (.call env depth f args span) limit span

theorem planExpr_faults (env : FrameId) (depth : Depth) (e : Expr FunctionId) :
    (planExpr env depth e).Acts (Run.FaultsAt env (eval env depth e).looksGlobally Over) := by
  have hpure : ∀ {global} (v : Value), Run.FaultsAt env global Over (pure v) :=
    fun v => (Run.Quiet.pure v).faultsAt
  have hfault : ∀ {global} {c : Fault.Cause} (span : Span), c.isContextual = false →
      Run.FaultsAt env global Over (Run.fault c span : Run Value) :=
    fun span hc => (Run.Quiet.fault hc span).faultsAt
  cases e with
  | number | bool | nil | function => exact hpure _
  | text => exact (Run.Quiet.newText _).faultsAt
  | array => exact fun vs => (Run.Quiet.newArray _).faultsAt
  | group => trivial
  | name span global x => exact Run.readName_faultsAt x span
  | binary span op left right =>
    cases op with
    | and => exact fun v => .ite trivial (hpure v)
    | or => exact fun v => .ite (hpure v) trivial
    | _ => exact fun v w => (Run.Quiet.binary _ v w span).faultsAt
  | unary span op operand => exact fun v => (Run.Quiet.unary op v span).faultsAt
  | conditional => exact fun v => .ite trivial trivial
  | call span callee args =>
    intro f
    cases f with
    | function f => exact .ite (fun _ => trivial) (hfault span rfl)
    | native n => exact .ite (fun vs => (Run.Quiet.native n vs span).faultsAt) (hfault span rfl)
    | _ => exact hfault callee.span rfl
  | index span target i => exact fun v i => (Run.Quiet.index v i span).faultsAt
  | slice span target start stop => exact fun v i j => (Run.Quiet.slice v i j span).faultsAt
  | assign span global constant x value =>
    exact fun v => (Run.Quiet.assign env global constant x v span).faultsAt
  | assignIndex span global constant x i value =>
    exact .ite (hfault span rfl) fun i v => Run.assignElement_faultsAt x i v span

theorem planStmt_faults (env : FrameId) (depth : Depth) (s : Stmt FunctionId) :
    (planStmt env depth s).Acts (Run.FaultsAt env false Over) := by
  have hpure : ∀ s : Signal, Run.FaultsAt env false Over (pure s) :=
    fun s => (Run.Quiet.pure s).faultsAt
  have hfault : ∀ {c : Fault.Cause} (span : Span), c.isContextual = false →
      Run.FaultsAt env false Over (Run.fault c span : Run Signal) :=
    fun span hc => (Run.Quiet.fault hc span).faultsAt
  cases s with
  | expr => exact fun _ => hpure _
  | block | «while» => trivial
  | cond span test yes no =>
    cases no with
    | none => exact fun v => .ite trivial (hpure _)
    | some no => exact fun v => .ite trivial trivial
  | range span x cmp first last body =>
    exact fun v => ⟨(Run.Quiet.rangeBound v _).faultsAt, fun i w =>
      ⟨(Run.Quiet.rangeBound w _).faultsAt, fun j =>
        ⟨(Run.Quiet.rangeStep cmp i j _).faultsAt, fun step =>
          ⟨(Run.Quiet.modifyScopes _).faultsAt, fun _ s => hpure s⟩⟩⟩⟩
  | «break» span | «continue» span => exact .ite (hpure _) (hfault span rfl)
  | «return» span value => exact .ite (fun v => hpure _) (hfault span rfl)

/-- All actions of a task look at its own frame, and at the calls around it. -/
theorem plan_faults (t : Task) :
    (t.plan limit).Acts (Run.FaultsAt t.env t.looksGlobally (t.Overflows limit)) := by
  cases t with
  | eval env depth e => exact planExpr_faults env depth e
  | exec env depth s => exact planStmt_faults env depth s
  | evalAll env depth es =>
    cases es with
    | nil => exact (Run.Quiet.pure _).faultsAt
    | cons e es => exact fun v vs => (Run.Quiet.pure _).faultsAt
  | evalOr env depth absent e =>
    cases e with
    | none => exact (Run.Quiet.pure _).faultsAt
    | some e => trivial
  | call env depth f args span =>
    rw [plan]
    split
    · rename_i hover
      intro w e w' h _
      cases h
      exact .stackOverflow (.call hover)
    · refine ⟨(Run.Quiet.enterFrame env f.params args).faultsAt, fun frame signal => ?_⟩
      cases signal <;> exact (Run.Quiet.pure _).faultsAt
  | execBlock env depth ss =>
    cases ss with
    | nil => exact (Run.Quiet.pure _).faultsAt
    | cons s ss =>
      intro signal
      cases signal with
      | normal => trivial
      | _ => exact (Run.Quiet.pure _).faultsAt
  | execWhile env depth test body =>
    refine fun v => .ite (fun signal => ?_) ((Run.Quiet.pure _).faultsAt)
    cases signal with
    | normal | «continue» => trivial
    | _ => exact (Run.Quiet.pure _).faultsAt
  | execRange env depth x cmp last step body =>
    have hcounter : ∀ {Over}, Run.FaultsAt env false Over (Run.rangeCounter env x) :=
      Run.rangeCounter_faultsAt x
    refine ⟨hcounter, fun i => .ite (fun signal => ?_) ((Run.Quiet.pure _).faultsAt)⟩
    cases signal with
    | normal | «continue» =>
      exact ⟨hcounter, fun i => ⟨(Run.Quiet.modifyScopes _).faultsAt, fun _ => trivial⟩⟩
    | _ => exact (Run.Quiet.pure _).faultsAt

/-- What a fault about what is around says of the task that raises it. -/
theorem Raises.blames {t u : Task} {f : Fault} (h : t.Raises limit fuel w f u v)
    (hcontext : f.cause.isContextual = true) :
    v.scopes.Blames u.env u.looksGlobally (u.Overflows limit) f := by
  obtain ⟨k, v₀, q, -, hq, hstop⟩ := h
  obtain ⟨β, a, v', ha, hv'⟩ := (hq.acts (plan_faults u)).of_stopsAt hstop
  exact ha v f v' hv' hcontext

theorem Raises.misses {t u : Task} {x : String} {visible : List (List String)} {span : Span}
    (h : t.Raises limit fuel w ⟨.unbound x visible, span⟩ u v) :
    v.scopes.Misses u.env u.looksGlobally x visible := by
  cases h.blames rfl with
  | unbound hmisses => exact hmisses

theorem Raises.overflows {t u : Task} {n : Nat} {span : Span}
    (h : t.Raises limit fuel w ⟨.stackOverflow n, span⟩ u v) : u.Overflows limit n span := by
  cases h.blames rfl with
  | stackOverflow hover => exact hover

end Task

/-! ### Faults of interpreters -/

theorem Interpreter.perform_eq_error {α : Type} {i : Interpreter} {act : Run α} {count : Nat} {e : Stop}
    (h : (i.perform act count).1 = .error e) : ∃ w, act i.world = .error e w := by
  obtain ⟨world, limit, statements⟩ := i
  rw [perform] at h
  split at h
  · cases h
  · rename_i stop w hstop
    cases h
    exact ⟨w, hstop⟩

end Scriptlet
