import Scriptlet.Proofs.Reset
import Scriptlet.Proofs.Semicolon

/-!
The faults of a session.

A function keeps the places of the input that it was written in, and later inputs may call it. So the
fault of an input need not be in this input (`Session.fault_not_within`). But it is in one of the
inputs since the session was started or reset (`Session.fault_pointsInto`); the first input has its own
faults only.

The code of an input is alike to itself when its places are stretches of its own tokens. Hence the
runs of a session correspond to themselves when each function is alike to itself in this way for one
of the inputs (`Correspondence.ofSources`), which an input preserves (`Session.eval_origins`) and, by
induction, a whole session (`Session.Reached.corresponds`).
-/
namespace Scriptlet

/-! ### Runs of code from several sources -/

/-- Functions are from one of the sources, and places point into one of them. Nothing is asked of the
second run. -/
def Correspondence.ofSources (sources : List String) (lead : Lead) : Correspondence where
  lead := lead
  Functions f g := f.id = g.id ∧ ∃ source ∈ sources, ∃ (ts : List (Located Token)) (h : InOrder ts),
    tokenize source = .ok ts ∧ List.Forall₂ h.likeness.Located f.params g.params ∧
      Block.Alike h.likeness .body f.body g.body
  Spans a _ := ∃ source ∈ sources, PointsInto source a
  Allows _ := True
  id_eq h := h.1
  params_eq h := by
    obtain ⟨-, source, -, ts, hts, -, hparams, -⟩ := h
    exact Likeness.map_val_eq hparams
  allows_of_placed _ := trivial

namespace Correspondence

variable {sources : List String} {lead : Lead}

theorem ofSources_admits {source : String} {ts : List (Located Token)} (hsource : source ∈ sources)
    (hts : tokenize source = .ok ts) (horder : InOrder ts) :
    (ofSources sources lead).Admits horder.likeness where
  spans h := ⟨source, hsource, Span.IsStretch.pointsInto h hts⟩
  functions hid hparams hbody := ⟨hid, source, hsource, ts, horder, hts, hparams, hbody⟩
  allows _ := trivial

theorem ofSources_coded : (ofSources sources lead).Coded := by
  rintro f g ⟨-, source, hsource, ts, horder, hts, -, hbody⟩
  exact ⟨horder.likeness, ofSources_admits hsource hts horder, hbody⟩

variable {K : Correspondence} {shape : List (List FrameId)} {α β : Type} {Q : α → β → Prop}
  {x : Except Stop α × Interpreter} {y : Except Stop β × Interpreter}

theorem Performed.interpreters (h : K.Performed shape Q x y) : K.Interpreters shape x.2 y.2 := by
  cases h with
  | ok _ hij => exact hij
  | error _ hij => exact hij

theorem Performed.span (h : K.Performed shape Q x y) {f : Fault} (hf : x.1 = .error (.fault f)) :
    ∃ b, K.Spans f.span b := by
  cases h with
  | ok _ _ => cases hf
  | error he _ =>
    cases he with
    | fault _ hs =>
      cases hf
      exact ⟨_, hs⟩
    | outOfFuel => cases hf

end Correspondence

theorem Reply.ofRun_eq_fault {x : Except Stop Signal} {f : Fault}
    (h : Reply.ofRun x = .stopped (.fault f)) : x = .error (.fault f) := by
  cases x with
  | ok s => cases h
  | error e =>
    cases h
    rfl

theorem Reply.ofEval_eq_fault {x : Except Stop Value} {f : Fault}
    (h : Reply.ofEval x = .stopped (.fault f)) : x = .error (.fault f) := by
  cases x with
  | ok v => cases v <;> cases h
  | error e =>
    cases h
    rfl

/-- The place of the fault that an input is answered with, if it is. -/
def Reply.faultSpan? : Reply → Option Span
  | .stopped (.fault f) => some f.span
  | _ => none

theorem Reply.faultSpan?_eq_some {r : Reply} {span : Span} (h : r.faultSpan? = some span) :
    ∃ f, r = .stopped (.fault f) ∧ f.span = span := by
  unfold Reply.faultSpan? at h
  split at h
  · rename_i f
    exact ⟨f, rfl, Option.some.inj h⟩
  · cases h

namespace Session

open Correspondence Interpreter

/-! ### Sessions -/

/-- Sessions that can be reached, with the inputs since the start or the last reset. -/
inductive Reached : List String → Session → Prop
  | new (limit : Nat) (console : Console) : Reached [] (.new (.new limit console))
  | eval {sources : List String} {s : Session} (h : Reached sources s) (fuel : Nat)
    (input : String) : Reached (input :: sources) (s.eval fuel input).2
  | reset {sources : List String} {s : Session} (h : Reached sources s) : Reached [] s.reset
  | takeWarnings {sources : List String} {s : Session} (h : Reached sources s) :
    Reached sources s.takeWarnings.2
  | takeOutput {sources : List String} {s : Session} (h : Reached sources s) :
    Reached sources s.takeOutput.2

variable {sources : List String} {lead : Lead} {shape : List (List FrameId)}

/-- An input faults in one of the sources, if it is one of them and every function is from them, and
this remains so. -/
theorem eval_origins {s t : Session} {input : String} (hinput : input ∈ sources)
    (hst : (ofSources sources lead).Interpreters shape s.interpreter t.interpreter) (fuel : Nat) :
    (∀ f, (s.eval fuel input).1 = .stopped (.fault f) →
        ∃ source ∈ sources, PointsInto source f.span) ∧
      (ofSources sources lead).Interpreters shape (s.eval fuel input).2.interpreter
        (t.eval fuel input).2.interpreter := by
  rcases eval_cases input with ⟨p, -, hp, heval⟩ | ⟨e, -, he, heval⟩ | ⟨e, -, heval⟩
  · obtain ⟨ts, horder, hts, halike⟩ := Program.ofSource_alike hp
    have hrun := run_rel ofSources_coded (ofSources_admits hinput hts horder) hst halike fuel
    rw [heval, heval]
    refine ⟨fun f hf => ?_, hrun.interpreters⟩
    obtain ⟨b, hs⟩ := hrun.span (Reply.ofRun_eq_fault hf)
    exact hs
  · obtain ⟨ts, horder, hts, halike⟩ := Expr.ofSource?_alike he
    have hvalue := eval_rel ofSources_coded (ofSources_admits hinput hts horder) hst halike fuel
    rw [heval, heval]
    refine ⟨fun f hf => ?_, hvalue.interpreters⟩
    obtain ⟨b, hs⟩ := hvalue.span (Reply.ofEval_eq_fault hf)
    exact hs
  · rw [heval, heval]
    refine ⟨fun f hf => ?_, hst⟩
    cases hf

/-- The functions of a session are from its inputs. -/
theorem Reached.corresponds {s : Session} (h : Reached sources s) {all : List String}
    (hall : sources ⊆ all) :
    ∃ (lead : Lead) (t : Session),
      (ofSources all lead).Interpreters [[]] s.interpreter t.interpreter := by
  -- for any inputs beyond these, as there are more of them later
  induction h with
  | new limit console =>
    exact ⟨.none, .new (.new limit console), new_corresponds _ limit console, rfl, rfl⟩
  | eval _ fuel input ih =>
    obtain ⟨hinput, hsources⟩ := List.cons_subset.mp hall
    obtain ⟨lead, t, hst⟩ := ih hsources
    exact ⟨lead, (t.eval fuel input).2, (eval_origins hinput hst fuel).2⟩
  | @reset _ s _ _ =>
    let heap := s.interpreter.world.host.heap
    let console := s.interpreter.world.host.console
    exact ⟨⟨heap.texts.size, heap.arrays.size⟩, .new (.new s.interpreter.limit console),
      start_corresponds s.interpreter.world.host rfl, rfl, rfl⟩
  | takeWarnings _ ih => exact ih hall
  | takeOutput _ ih =>
    obtain ⟨lead, t, hst⟩ := ih hall
    exact ⟨lead, t.takeOutput.2, hst.takeOutput⟩

/-- **A fault points into an input of the session**: the one that faults, or one before it since the
session was started or reset. -/
theorem fault_pointsInto {s : Session} (h : Reached sources s) (fuel : Nat) (input : String)
    (f : Fault) (hf : (s.eval fuel input).1 = .stopped (.fault f)) :
    ∃ source ∈ input :: sources, PointsInto source f.span := by
  obtain ⟨lead, t, hst⟩ := h.corresponds (List.subset_cons_self input sources)
  exact (eval_origins List.mem_cons_self hst fuel).1 f hf

/-- A function that faults where it was written, which is behind the end of the input that calls it. -/
theorem exists_fault_of_function : ∃ (s : Session) (f : Fault),
    Reached ["fn f() \x7b nil(); \x7d"] s ∧ (s.eval 20 "f()").1 = .stopped (.fault f) ∧
      f.span = ⟨9, 12⟩ := by
  have hreached := Reached.eval (.new 10 (.ofInput [])) 20 "fn f() \x7b nil(); \x7d"
  have hspan : ((((Session.new (.new 10 (.ofInput []))).eval 20 "fn f() \x7b nil(); \x7d").2.eval 20
      "f()").1).faultSpan? = some ⟨9, 12⟩ := by
    decide +kernel
  -- the session is kept from being run here
  generalize ((Session.new (.new 10 (.ofInput []))).eval 20 "fn f() \x7b nil(); \x7d").2 = s
    at hreached hspan
  obtain ⟨f, hf, hspan⟩ := Reply.faultSpan?_eq_some hspan
  exact ⟨s, f, hreached, hf, hspan⟩

theorem fault_pointsInto_function : ∃ (s : Session) (f : Fault),
    Reached ["fn f() \x7b nil(); \x7d"] s ∧ (s.eval 20 "f()").1 = .stopped (.fault f) ∧
      f.span = ⟨9, 12⟩ ∧
      ∃ source ∈ ["f()", "fn f() \x7b nil(); \x7d"], PointsInto source f.span := by
  obtain ⟨s, f, hs, hf, hspan⟩ := exists_fault_of_function
  exact ⟨s, f, hs, hf, hspan, fault_pointsInto hs 20 "f()" f hf⟩

/-- A fault need not be within the input that faults. -/
theorem fault_not_within : ¬ ∀ (sources : List String) (s : Session) (fuel : Nat) (input : String)
    (f : Fault), Reached sources s → (s.eval fuel input).1 = .stopped (.fault f) →
      f.span.stop ≤ input.utf8ByteSize := by
  intro h
  obtain ⟨s, f, hs, hf, hspan⟩ := exists_fault_of_function
  have hle := h _ s 20 "f()" f hs hf
  rw [hspan] at hle
  exact absurd hle (by decide)

end Session
end Scriptlet
