import Scriptlet.Proofs.Findings
import Scriptlet.Proofs.Runs

/-!
A reset forgets everything.

What a session has done before a reset is still in its heap, where nothing leads to it. So its world
corresponds to that of a new session, whose heap is empty, with references that are ahead by the
texts and arrays of the past (`Interpreter.reset_corresponds`). The code of an input is alike to
itself, hence both sessions answer it alike and correspond again afterwards
(`Session.respond_corresponds`), and by induction this holds for any number of inputs.

The warnings that have not been taken are not part of the world. A reset leaves them, and the next
program that is accepted replaces them, whatever they were (`Session.warnings_respond`).
-/
namespace Scriptlet

/-! ### Answers -/

/-- What is told of a reply: of a value its type and how it is written. -/
inductive Reply.Told where
  | done
  | value (kind : Kind) (text : String)
  | rejected (e : CompileError)
  | stopped (s : Stop)

/-- What is told of a reply, with the heap that its value refers to. -/
def Reply.told (h : Heap) : Reply → Told
  | .done => .done
  | .value v => .value v.kind (h.render v)
  | .rejected e => .rejected e
  | .stopped s => .stopped s

/-- The same is told: of a fault the kind, the message and the place. -/
inductive Reply.Told.Agree : Told → Told → Prop
  | done : Agree .done .done
  | value (kind : Kind) (text : String) : Agree (.value kind text) (.value kind text)
  | rejected (e : CompileError) : Agree (.rejected e) (.rejected e)
  | fault {f g : Fault} (h : f.Agree g) (span : f.span = g.span) :
    Agree (.stopped (.fault f)) (.stopped (.fault g))
  | outOfFuel : Agree (.stopped .outOfFuel) (.stopped .outOfFuel)

theorem Reply.Told.agree_self (t : Told) : t.Agree t := by
  cases t with
  | done => exact .done
  | value kind text => exact .value kind text
  | rejected e => exact .rejected e
  | stopped stop =>
    cases stop with
    | fault f => exact .fault (.of_cause rfl) rfl
    | outOfFuel => exact .outOfFuel

/-- The reply to a program that has run. -/
def Reply.ofRun : Except Stop Signal → Reply
  | .ok _ => .done
  | .error stop => .stopped stop

/-- The reply to an expression that has been evaluated. -/
def Reply.ofEval : Except Stop Value → Reply
  | .ok v => .ofValue v
  | .error stop => .stopped stop

namespace Session

/-- What is told of an input, and the text that it has written. -/
structure Response where
  told : Reply.Told
  printed : String

/-- The same is told and has been written. -/
structure Response.Agree (r q : Response) : Prop where
  told : r.told.Agree q.told
  printed : r.printed = q.printed

/-- Answer an input; what was written before is taken away first. -/
def respond (s : Session) (fuel : Nat) (input : String) : Response × Session :=
  let answer := s.takeOutput.2.eval fuel input
  let i := answer.2.interpreter
  (⟨answer.1.told i.world.host.heap, i.output⟩, answer.2)

/-- Answer inputs one after the other, each with its own fuel. -/
def respondAll (s : Session) : List (Nat × String) → List Response × Session
  | [] => ([], s)
  | (fuel, input) :: inputs =>
    let first := s.respond fuel input
    let rest := first.2.respondAll inputs
    (first.1 :: rest.1, rest.2)

/-- The input is a program that passes the check. -/
def IsAccepted (input : String) : Prop :=
  ∃ p, Program.ofSource input = .ok p ∧ p.check.error? = none

theorem evalExpr_eq (s : Session) (fuel : Nat) (e : Expr Unit) :
    s.evalExpr fuel e =
      (.ofEval (s.interpreter.eval fuel e).1, ⟨(s.interpreter.eval fuel e).2, s.warnings⟩) := by
  rw [Session.evalExpr]
  rcases s.interpreter.eval fuel e with ⟨_ | _, i⟩ <;> rfl

/-- An input is a program that passes the check, or an expression, or it is rejected. Which of these
does not depend on the session. -/
theorem eval_cases (input : String) :
    (∃ p : Program, IsAccepted input ∧ Program.ofSource input = .ok p ∧
      ∀ s fuel, Session.eval fuel s input =
        (.ofRun (s.interpreter.run fuel p).1, ⟨(s.interpreter.run fuel p).2, p.check.warnings⟩)) ∨
    (∃ e : Expr Unit, ¬ IsAccepted input ∧ Expr.ofSource? input = some e ∧
      ∀ s fuel, Session.eval fuel s input =
        (.ofEval (s.interpreter.eval fuel e).1, ⟨(s.interpreter.eval fuel e).2, s.warnings⟩)) ∨
    (∃ e, ¬ IsAccepted input ∧ ∀ s fuel, Session.eval fuel s input = (.rejected e, s)) := by
  cases hp : Program.ofSource input with
  | ok p =>
    cases hc : p.check.error? with
    | some e =>
      refine .inr (.inr ⟨e, ?_, fun s fuel => ?_⟩)
      · rintro ⟨q, hq, hcq⟩
        cases hp.symm.trans hq
        cases hc.symm.trans hcq
      · rw [Session.eval, hp]
        dsimp only
        rw [Session.run, hc]
    | none =>
      refine .inl ⟨p, ⟨p, hp, hc⟩, rfl, fun s fuel => ?_⟩
      rw [Session.eval, hp]
      dsimp only
      rw [Session.run, hc]
      dsimp only
      rcases s.interpreter.run fuel p with ⟨_ | _, i⟩ <;> rfl
  | error error =>
    have hnot : ¬ IsAccepted input := by
      rintro ⟨q, hq, -⟩
      cases hp.symm.trans hq
    cases he : Expr.ofSource? input with
    | some e =>
      refine .inr (.inl ⟨e, hnot, rfl, fun s fuel => ?_⟩)
      rw [Session.eval, hp]
      dsimp only
      rw [he]
      exact s.evalExpr_eq fuel e
    | none =>
      refine .inr (.inr ⟨error, hnot, fun s fuel => ?_⟩)
      rw [Session.eval, hp]
      dsimp only
      rw [he]

end Session

/-! ### Interpreters in corresponding worlds -/

/-- Code is alike to itself only. -/
def Likeness.exact : Likeness where
  Spans := Eq
  placed := False
  loose := False
  merge := @Span.merge_congr

namespace Correspondence

variable (K : Correspondence) (shape : List (List FrameId))

/-- Interpreters in corresponding worlds, with the same limit and the same count of statements. -/
structure Interpreters (i j : Interpreter) : Prop where
  worlds : K.Worlds shape i.world j.world
  limit : i.limit = j.limit
  statements : i.statements = j.statements

variable {K shape} in
theorem Interpreters.takeOutput {i j : Interpreter} (h : K.Interpreters shape i j) :
    K.Interpreters shape i.takeOutput.2 j.takeOutput.2 := by
  refine ⟨⟨h.worlds.scopes, h.worlds.host.heap, ?_⟩, h.limit, h.statements⟩
  exact congrArg (fun c : Console => { c with output := "" }) h.worlds.host.console

/-- Actions that have ended alike, and the interpreters that they leave. -/
inductive Performed {α β : Type} (Q : α → β → Prop) :
    Except Stop α × Interpreter → Except Stop β × Interpreter → Prop
  | ok {x : α} {y : β} {i j : Interpreter} (hq : Q x y) (hij : K.Interpreters shape i j) :
    Performed Q (.ok x, i) (.ok y, j)
  | error {e d : Stop} {i j : Interpreter} (he : K.Stops e d) (hij : K.Interpreters shape i j) :
    Performed Q (.error e, i) (.error d, j)

end Correspondence

namespace Interpreter

open Correspondence

variable {K : Correspondence} {lead : Lead} {shape : List (List FrameId)} {i j : Interpreter}

theorem perform_rel {α β : Type} {Q : α → β → Prop} {a : Run α} {b : Run β}
    (hij : K.Interpreters shape i j) (hab : K.Runs shape Q a b) (count : Nat) :
    K.Performed shape Q (i.perform a count) (j.perform b count) := by
  obtain ⟨w, limit, statements⟩ := i
  obtain ⟨v, limit', statements'⟩ := j
  obtain ⟨hw, rfl, rfl⟩ := hij
  have hm := hab w v hw
  simp only [perform]
  generalize a w = x at hm ⊢
  generalize b v = y at hm ⊢
  cases hm with
  | ok hq hw => exact .ok hq ⟨hw, rfl, rfl⟩
  | error he hw => exact .error he ⟨hw, rfl, rfl⟩

theorem run_rel {L : Likeness} (hK : K.Coded) (hL : K.Admits L) (hij : K.Interpreters shape i j)
    {p : Program} (hp : Block.Alike L .top p.body p.body) (fuel : Nat) :
    K.Performed shape K.Signals (i.run fuel p) (j.run fuel p) := by
  rw [run, run, hij.limit, hij.statements]
  exact perform_rel hij
    ((evaluation_alike hK _ fuel).execBlock hL (.top hij.worlds.scopes.nonempty)
      (Block.mark_alike _ hp _ _)) _

theorem eval_rel {L : Likeness} (hK : K.Coded) (hL : K.Admits L) (hij : K.Interpreters shape i j)
    {e : Expr Unit} (he : e.Alike L .top e) (fuel : Nat) :
    K.Performed shape K.Values (i.eval fuel e) (j.eval fuel e) := by
  rw [eval, eval, hij.limit, hij.statements]
  exact perform_rel hij
    ((evaluation_alike hK _ fuel).eval hL (.top hij.worlds.scopes.nonempty) (e.mark_alike he _)) _

theorem run_exact (hij : (Likeness.exact.ahead lead).Interpreters shape i j) (fuel : Nat)
    (p : Program) :
    (Likeness.exact.ahead lead).Performed shape (Likeness.exact.ahead lead).Signals (i.run fuel p)
      (j.run fuel p) :=
  run_rel (Likeness.exact.coded lead) (Likeness.exact.admits lead) hij
    (Block.alike_self (fun _ => rfl) p.body nofun) fuel

theorem eval_exact (hij : (Likeness.exact.ahead lead).Interpreters shape i j) (fuel : Nat)
    (e : Expr Unit) :
    (Likeness.exact.ahead lead).Performed shape (Likeness.exact.ahead lead).Values (i.eval fuel e)
      (j.eval fuel e) :=
  eval_rel (Likeness.exact.coded lead) (Likeness.exact.admits lead) hij
    (e.alike_self (fun _ => rfl) nofun) fuel

/-- An interpreter that has been reset corresponds to a new one with the same console, when what was
written has been taken from it. -/
theorem reset_corresponds (i : Interpreter) :
    (Likeness.exact.ahead ⟨i.world.host.heap.texts.size, i.world.host.heap.arrays.size⟩).Interpreters
      [[]] i.reset.takeOutput.2 (new i.limit i.takeOutput.2.world.host.console).takeOutput.2 := by
  -- no reference of the new interpreter is there yet, so those of the past need no counterpart
  refine ⟨start_corresponds i.takeOutput.2.world.host ?_, rfl, rfl⟩
  rfl

end Interpreter

namespace Session

open Correspondence Interpreter

variable {lead : Lead} {shape : List (List FrameId)} {s t : Session}

theorem told_ofValue {K : Correspondence} {h k : Heap} (hk : K.Heaps h k) {v w : Value}
    (hv : K.Values v w) : (Reply.ofValue v).told h = (Reply.ofValue w).told k := by
  have hkind := hv.kind_eq
  have htext := render_eq hk hv
  cases hv with
  | nil => rfl
  | _ => exact congrArg₂ Reply.Told.value hkind htext

theorem stop_eq {e d : Stop} (h : (Likeness.exact.ahead lead).Stops e d) : e = d := by
  cases h with
  | fault hc hs =>
    cases hs
    rfl
  | outOfFuel => rfl

/-- Sessions of corresponding interpreters give answers of which the same is told, and correspond
afterwards. -/
theorem eval_corresponds
    (hst : (Likeness.exact.ahead lead).Interpreters shape s.interpreter t.interpreter) (fuel : Nat)
    (input : String) :
    (s.eval fuel input).1.told (s.eval fuel input).2.interpreter.world.host.heap =
        (t.eval fuel input).1.told (t.eval fuel input).2.interpreter.world.host.heap ∧
      (Likeness.exact.ahead lead).Interpreters shape (s.eval fuel input).2.interpreter
        (t.eval fuel input).2.interpreter := by
  rcases eval_cases input with ⟨p, -, -, heval⟩ | ⟨e, -, -, heval⟩ | ⟨e, -, heval⟩
  · rw [heval, heval]
    have hrun := run_exact hst fuel p
    generalize s.interpreter.run fuel p = x at hrun ⊢
    generalize t.interpreter.run fuel p = y at hrun ⊢
    cases hrun with
    | ok _ hij => exact ⟨rfl, hij⟩
    | error he hij => exact ⟨congrArg Reply.Told.stopped (stop_eq he), hij⟩
  · rw [heval, heval]
    have hvalue := eval_exact hst fuel e
    generalize s.interpreter.eval fuel e = x at hvalue ⊢
    generalize t.interpreter.eval fuel e = y at hvalue ⊢
    cases hvalue with
    | ok hv hij => exact ⟨told_ofValue hij.worlds.host.heap hv, hij⟩
    | error he hij => exact ⟨congrArg Reply.Told.stopped (stop_eq he), hij⟩
  · rw [heval, heval]
    exact ⟨rfl, hst⟩

/-- Sessions that correspond when what is written has been taken. -/
abbrev Corresponds (lead : Lead) (s t : Session) : Prop :=
  (Likeness.exact.ahead lead).Interpreters [[]] s.takeOutput.2.interpreter t.takeOutput.2.interpreter

theorem respond_corresponds (hst : Corresponds lead s t) (fuel : Nat) (input : String) :
    (s.respond fuel input).1 = (t.respond fuel input).1 ∧
      Corresponds lead (s.respond fuel input).2 (t.respond fuel input).2 := by
  obtain ⟨htold, hij⟩ := eval_corresponds hst fuel input
  have hconsole := hij.worlds.host.console
  constructor
  · rw [respond, respond]
    dsimp only
    rw [htold, Interpreter.output, Interpreter.output, hconsole]
  · exact hij.takeOutput

theorem respondAll_corresponds (hst : Corresponds lead s t) (inputs : List (Nat × String)) :
    (s.respondAll inputs).1 = (t.respondAll inputs).1 ∧
      Corresponds lead (s.respondAll inputs).2 (t.respondAll inputs).2 := by
  induction inputs generalizing s t with
  | nil => exact ⟨rfl, hst⟩
  | cons x inputs ih =>
    obtain ⟨hfirst, hst⟩ := respond_corresponds hst x.1 x.2
    obtain ⟨hrest, hst⟩ := ih hst
    exact ⟨congrArg₂ List.cons hfirst hrest, hst⟩

/-! ### Warnings -/

/-- A program that is accepted replaces the warnings. -/
theorem warnings_respond {input : String} (h : IsAccepted input) :
    ∃ warnings, ∀ (s : Session) (fuel : Nat), (s.respond fuel input).2.warnings = warnings := by
  rcases eval_cases input with ⟨p, -, -, heval⟩ | ⟨e, hnot, -⟩ | ⟨e, hnot, -⟩
  · refine ⟨p.check.warnings, fun s fuel => ?_⟩
    rw [respond, heval]
  · exact absurd h hnot
  · exact absurd h hnot

theorem warnings_respond_of_not (s : Session) (fuel : Nat) {input : String}
    (h : ¬ IsAccepted input) : (s.respond fuel input).2.warnings = s.warnings := by
  rcases eval_cases input with ⟨p, hacc, -⟩ | ⟨e, -, -, heval⟩ | ⟨e, -, heval⟩
  · exact absurd hacc h
  · rw [respond, heval]
    rfl
  · rw [respond, heval]
    rfl

theorem warnings_respondAll_of_not (s : Session) {inputs : List (Nat × String)}
    (h : ∀ x ∈ inputs, ¬ IsAccepted x.2) : (s.respondAll inputs).2.warnings = s.warnings := by
  induction inputs generalizing s with
  | nil => rfl
  | cons x inputs ih =>
    obtain ⟨hx, hrest⟩ := List.forall_mem_cons.mp h
    exact (ih _ hrest).trans (warnings_respond_of_not s x.1 hx)

/-- The program that was accepted last decides. -/
theorem warnings_respondAll (s t : Session) {inputs : List (Nat × String)}
    (h : ∃ x ∈ inputs, IsAccepted x.2) :
    (s.respondAll inputs).2.warnings = (t.respondAll inputs).2.warnings := by
  induction inputs generalizing s t with
  | nil =>
    obtain ⟨x, hx, -⟩ := h
    cases hx
  | cons x inputs ih =>
    -- the first input counts only if nothing is accepted after it
    by_cases hrest : ∃ x ∈ inputs, IsAccepted x.2
    · exact ih _ _ hrest
    · have hnone : ∀ x ∈ inputs, ¬ IsAccepted x.2 := fun x hx hacc => hrest ⟨x, hx, hacc⟩
      obtain ⟨y, hy, hacc⟩ := h
      rcases List.mem_cons.mp hy with rfl | hy
      · obtain ⟨warnings, hwarnings⟩ := warnings_respond hacc
        show (respondAll _ inputs).2.warnings = (respondAll _ inputs).2.warnings
        rw [warnings_respondAll_of_not _ hnone, warnings_respondAll_of_not _ hnone, hwarnings,
          hwarnings]
      · exact absurd hacc (hnone y hy)

/-! ### Forgetting -/

theorem limit_perform {α : Type} (i : Interpreter) (act : Run α) (count : Nat) :
    (i.perform act count).2.limit = i.limit := by
  obtain ⟨w, limit, statements⟩ := i
  rw [perform]
  cases act w <;> rfl

theorem limit_respond (s : Session) (fuel : Nat) (input : String) :
    (s.respond fuel input).2.interpreter.limit = s.interpreter.limit := by
  rcases eval_cases input with ⟨p, -, -, heval⟩ | ⟨e, -, -, heval⟩ | ⟨e, -, heval⟩
  · rw [respond, heval]
    exact limit_perform ..
  · rw [respond, heval]
    exact limit_perform ..
  · rw [respond, heval]
    rfl

theorem limit_respondAll (s : Session) (inputs : List (Nat × String)) :
    (s.respondAll inputs).2.interpreter.limit = s.interpreter.limit := by
  induction inputs generalizing s with
  | nil => rfl
  | cons x inputs ih => exact (ih _).trans (limit_respond s x.1 x.2)

/-- **A reset forgets everything.** After any inputs and a reset, a session answers all later inputs
like a new one with the same limit and with what is left of the console, down to the text of each
value and the place of each fault. Messages are the same in whatever orders the two sessions tell names,
but for the choice between tied names, and the same is told of the global bindings. Only the warnings
that have not been taken may differ, and these until a program is accepted. -/
theorem reset_forgets (s : Session) (history later : List (Nat × String)) :
    let before := (s.respondAll history).2
    let console := before.takeOutput.2.interpreter.world.host.console
    let old := before.reset.respondAll later
    let new := (Session.new (.new s.interpreter.limit console)).respondAll later
    old.1 = new.1 ∧ List.Forall₂ Response.Agree old.1 new.1 ∧
      old.2.takeOutput.2.interpreter.Agree new.2.takeOutput.2.interpreter ∧
      old.2.takeOutput.2.interpreter.world.host.console =
        new.2.takeOutput.2.interpreter.world.host.console ∧
      ((∃ x ∈ later, IsAccepted x.2) → old.2.warnings = new.2.warnings) ∧
      ((∀ x ∈ later, ¬ IsAccepted x.2) →
        old.2.warnings = before.warnings ∧ new.2.warnings = []) := by
  intro before console old new
  have hlimit : before.interpreter.limit = s.interpreter.limit := limit_respondAll s history
  have hstart : Corresponds _ before.reset (.new (.new before.interpreter.limit console)) :=
    reset_corresponds before.interpreter
  rw [hlimit] at hstart
  obtain ⟨hanswers, hend⟩ := respondAll_corresponds hstart later
  have hagree : List.Forall₂ Response.Agree old.1 new.1 :=
    hanswers ▸ List.forall₂_same.mpr fun r _ => ⟨r.told.agree_self, rfl⟩
  refine ⟨hanswers, hagree, agree_of_worlds hend.worlds, hend.worlds.host.console, ?_, ?_⟩
  · exact warnings_respondAll _ _
  · intro hnone
    exact ⟨warnings_respondAll_of_not _ hnone, warnings_respondAll_of_not _ hnone⟩

/-- The array of the past stays in the heap of a session that has been reset. -/
theorem reset_forgets_array :
    ∃ (s : Session) (history later : List (Nat × String)),
      (s.respondAll history).2.reset.interpreter.world.host.heap.arrays.size = 1 ∧
      (∃ x ∈ later, IsAccepted x.2) ∧
      let before := (s.respondAll history).2
      let console := before.takeOutput.2.interpreter.world.host.console
      let old := before.reset.respondAll later
      let new := (Session.new (.new s.interpreter.limit console)).respondAll later
      old.1 = new.1 ∧ List.Forall₂ Response.Agree old.1 new.1 ∧
        old.2.warnings = new.2.warnings := by
  have hsize : ((Session.new (.new 10 (.ofInput []))).respondAll
      [(20, "xs = [nil];")]).2.reset.interpreter.world.host.heap.arrays.size = 1 := by
    decide +kernel
  have haccepted : IsAccepted "ys = [[], nil];" := by
    show ∃ p, Program.ofSource "ys = [[], nil];" = .ok p ∧ p.check.error? = none
    decide +kernel
  have hmem : ∃ x ∈ [(20, "xs"), (20, "ys = [[], nil];"), (20, "ys")], IsAccepted x.2 :=
    ⟨_, .tail _ (.head _), haccepted⟩
  -- the sessions are kept from being run here
  generalize Session.new (.new 10 (.ofInput [])) = s at hsize
  generalize [(20, "xs = [nil];")] = history at hsize
  generalize [(20, "xs"), (20, "ys = [[], nil];"), (20, "ys")] = later at hmem
  obtain ⟨hanswers, hagree, -, -, hwarnings, -⟩ := reset_forgets s history later
  exact ⟨s, history, later, hsize, hmem, hanswers, hagree, hwarnings hmem⟩

end Session
end Scriptlet
