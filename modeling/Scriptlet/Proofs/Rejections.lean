import Scriptlet.Proofs.BareExpressions

/-!
Inputs that are rejected.

An input is rejected for its own fault: it has no tokens, or its tokens are neither a program nor a
bare expression, or it is a program that the check refuses (`Session.Refuses`). The second reading,
with a semicolon behind the input, decides only whether there is an expression. Its errors are not
told, and where the input has no tokens it finds none either (`Expr.ofSource?_eq_none_of_scan`).

So the session has no part in a rejection, and a rejection has none in the session: inputs that are
rejected may be left out of a dialogue (`Session.evalAll_filter`).
-/
namespace Scriptlet

/-! ### The second reading -/

theorem tokenize_of_scan {source : String} {ts : List (Located Token)}
    (h : Token.scan source = .ok ts) : tokenize source = .ok ts := by
  rw [tokenize, h]
  rfl

theorem tokenize_of_scan_error {source : String} {error : LexError}
    (h : Token.scan source = .error error) : tokenize source = .error error.toCompileError := by
  rw [tokenize, h]
  rfl

theorem Program.ofSource_of_scan_error {source : String} {error : LexError}
    (h : Token.scan source = .error error) :
    Program.ofSource source = .error error.toCompileError := by
  rw [Program.ofSource, tokenize_of_scan_error h]
  rfl

/-- A semicolon behind a source that has no tokens does not help. -/
theorem Expr.ofSource?_eq_none_of_scan {source : String} {error : LexError}
    (h : Token.scan source = .error error) : Expr.ofSource? source = none := by
  cases he : Expr.ofSource? source with
  | none => rfl
  | some e =>
    obtain ⟨ts, hts, -⟩ := Expr.ofSource?_derives he
    cases hts.symm.trans (tokenize_of_scan_error h)

/-- The tokens of a source are an expression, and no comment keeps a semicolon away from it. -/
def IsBareExpression (source : String) (ts : List (Located Token)) : Prop :=
  ¬ EndsInComment source ∧ ∃ e, Derives (.expr .expression) ts e

/-- A source that is no program is an expression to the second reading if it is a bare one. -/
theorem Expr.ofSource?_isSome_iff {source : String} {ts : List (Located Token)} {size : Nat}
    {error : ParseError} (hts : tokenize source = .ok ts)
    (hnot : Program.ofTokens size ts = .error error) :
    (Expr.ofSource? source).isSome ↔ IsBareExpression source ts := by
  constructor
  · intro h
    obtain ⟨e, he⟩ := Option.isSome_iff_exists.mp h
    refine ⟨fun hcomment => ?_, ?_⟩
    · cases he.symm.trans (Expr.ofSource?_eq_none hcomment hts hnot)
    · obtain ⟨us, hus, hderives⟩ := Expr.ofSource?_derives he
      cases hts.symm.trans hus
      rcases hderives with hexpr | ⟨span, hstatements⟩
      · exact ⟨e, hexpr⟩
      · have hread : Program.ofTokens size ts = .ok ⟨[.expr span e]⟩ :=
          Program.ofTokens_eq_ok.mpr hstatements
        cases hnot.symm.trans hread
  · rintro ⟨hcomment, e, hexpr⟩
    have hstatement : Derives .statement (ts ++ [⟨.symbol .semicolon, ⟨0, 0⟩⟩]) _ :=
      .expr hexpr rfl
    have hstatements := hstatement.next .done
    rw [List.append_nil] at hstatements
    have hread : Program.ofTokens size (ts ++ [⟨.symbol .semicolon, ⟨0, 0⟩⟩]) = .ok ⟨[_]⟩ :=
      Program.ofTokens_eq_ok.mpr hstatements
    rw [Expr.ofSource?_eq_some hcomment hts hread]
    rfl

/-! ### Errors of the input -/

def Reply.isRejected : Reply → Bool
  | .rejected _ => true
  | _ => false

namespace Session

/-- The errors of an input, each from the first stage that refuses it. -/
inductive Refuses (input : String) : CompileError → Prop
  | lexer {error : LexError} (h : Token.scan input = .error error) :
    Refuses input error.toCompileError
  | parser {ts : List (Located Token)} {error : ParseError} (hts : Token.scan input = .ok ts)
    (h : Program.ofTokens input.utf8ByteSize ts = .error error)
    (hbare : ¬ IsBareExpression input ts) :
    Refuses input error.toCompileError
  | check {p : Program} {error : CompileError} (hp : Program.ofSource input = .ok p)
    (h : p.check.error? = some error) :
    Refuses input error

/-- The error for which an input is rejected, found without a session. -/
def refusal? (input : String) : Option CompileError :=
  match Program.ofSource input with
  | .ok p => p.check.error?
  | .error error => if (Expr.ofSource? input).isSome then none else some error

variable {input : String} {error : CompileError} {fuel : Nat} {s : Session}

theorem refusal?_of_ok {p : Program} (hp : Program.ofSource input = .ok p) :
    refusal? input = p.check.error? := by
  rw [refusal?, hp]

theorem refusal?_of_error (hp : Program.ofSource input = .error error) :
    refusal? input = if (Expr.ofSource? input).isSome then none else some error := by
  rw [refusal?, hp]

theorem Refuses.refusal?_eq (h : Refuses input error) : refusal? input = some error := by
  cases h with
  | lexer h =>
    rw [refusal?_of_error (Program.ofSource_of_scan_error h), Expr.ofSource?_eq_none_of_scan h]
    rfl
  | @parser ts error hts h hbare =>
    have hp : Program.ofSource input = .error error.toCompileError := by
      rw [Program.ofSource_of_tokenize (tokenize_of_scan hts), h]
      rfl
    rw [refusal?_of_error hp, if_neg]
    rwa [Expr.ofSource?_isSome_iff (tokenize_of_scan hts) h]
  | check hp h => rw [refusal?_of_ok hp, h]

theorem refusal?_eq_some_iff : refusal? input = some error ↔ Refuses input error := by
  refine ⟨fun h => ?_, Refuses.refusal?_eq⟩
  cases hscan : Token.scan input with
  | error e =>
    have hlexer := Refuses.lexer hscan
    cases h.symm.trans hlexer.refusal?_eq
    exact hlexer
  | ok ts =>
    have hp := Program.ofSource_of_tokenize (tokenize_of_scan hscan)
    cases hread : Program.ofTokens input.utf8ByteSize ts with
    | ok p =>
      rw [hread] at hp
      exact .check hp ((refusal?_of_ok hp).symm.trans h)
    | error e =>
      rw [hread] at hp
      rw [refusal?_of_error hp] at h
      split at h
      · cases h
      · rename_i hnone
        cases h
        refine .parser hscan hread ?_
        rwa [Expr.ofSource?_isSome_iff (tokenize_of_scan hscan) hread] at hnone

/-! ### Answers to inputs that are refused -/

theorem eval_of_refusal? (h : refusal? input = some error) (s : Session) (fuel : Nat) :
    s.eval fuel input = (.rejected error, s) := by
  cases hp : Program.ofSource input with
  | ok p =>
    rw [refusal?_of_ok hp] at h
    rw [Session.eval, hp]
    dsimp only
    rw [Session.run, h]
  | error e =>
    rw [refusal?_of_error hp] at h
    rw [Session.eval, hp]
    dsimp only
    cases he : Expr.ofSource? input with
    | some expr =>
      rw [he] at h
      cases h
    | none =>
      rw [he] at h
      cases h
      rfl

/-- An input that nothing refuses is run or evaluated, and then it is not rejected. -/
theorem eval_ne_rejected (h : refusal? input = none) (s : Session) (fuel : Nat)
    (error : CompileError) : (s.eval fuel input).1 ≠ .rejected error := by
  cases hp : Program.ofSource input with
  | ok p =>
    rw [refusal?_of_ok hp] at h
    rw [Session.eval, hp]
    dsimp only
    rw [Session.run, h]
    dsimp only
    rcases s.interpreter.run fuel p with ⟨stop | signal, i⟩
    · intro hreply
      cases hreply
    · intro hreply
      cases hreply
  | error e =>
    rw [refusal?_of_error hp] at h
    rw [Session.eval, hp]
    dsimp only
    cases he : Expr.ofSource? input with
    | none =>
      rw [he] at h
      cases h
    | some expr =>
      dsimp only
      rw [evalExpr_eq]
      exact Reply.ofEval_ne_rejected _ error

theorem eval_rejected_iff :
    (s.eval fuel input).1 = .rejected error ↔ refusal? input = some error := by
  cases h : refusal? input with
  | none =>
    constructor
    · intro hreply
      exact absurd hreply (eval_ne_rejected h s fuel error)
    · intro hnone
      cases hnone
  | some e =>
    rw [eval_of_refusal? h, Reply.rejected.injEq, Option.some.injEq]

/-! ### Dialogues -/

/-- Evaluate inputs one after the other, each with its own fuel. -/
def evalAll (s : Session) : List (Nat × String) → List Reply × Session
  | [] => ([], s)
  | (fuel, input) :: inputs =>
    let first := s.eval fuel input
    let rest := first.2.evalAll inputs
    (first.1 :: rest.1, rest.2)

theorem evalAll_cons (s : Session) (fuel : Nat) (input : String) (inputs : List (Nat × String)) :
    s.evalAll ((fuel, input) :: inputs) =
      ((s.eval fuel input).1 :: ((s.eval fuel input).2.evalAll inputs).1,
        ((s.eval fuel input).2.evalAll inputs).2) :=
  rfl

theorem isRejected_eval (s : Session) (fuel : Nat) (input : String) :
    (s.eval fuel input).1.isRejected = (refusal? input).isSome := by
  cases h : refusal? input with
  | some e =>
    rw [eval_of_refusal? h]
    rfl
  | none =>
    have hne := eval_ne_rejected h s fuel
    cases hreply : (s.eval fuel input).1 with
    | rejected e => exact absurd hreply (hne e)
    | _ => rfl

/-- A dialogue goes as it would without the inputs that are rejected. -/
theorem evalAll_filter (s : Session) (inputs : List (Nat × String)) :
    s.evalAll (inputs.filter fun i => (refusal? i.2).isNone) =
      ((s.evalAll inputs).1.filter fun r => !r.isRejected, (s.evalAll inputs).2) := by
  induction inputs generalizing s with
  | nil => rfl
  | cons first inputs ih =>
    obtain ⟨fuel, input⟩ := first
    rw [evalAll_cons, List.filter_cons, List.filter_cons, isRejected_eval]
    cases h : refusal? input with
    | some e =>
      -- the rest starts from the same session
      rw [eval_of_refusal? h]
      exact ih s
    | none =>
      rw [if_pos Option.isNone_none, evalAll_cons, ih]
      rfl

/-- **A rejected input changes nothing.** Whatever a session has done before and however much fuel
there is, an input is rejected for an error exactly if that is the error of the input itself, and
then the whole session is as before: all bindings and buffers, what has been written and what has
been read, and the warnings that have not been taken. So in a dialogue the other inputs are
answered as if those that are rejected had not been there. -/
theorem rejection_keeps_session :
    (∀ (s : Session) (fuel : Nat) (input : String) (error : CompileError),
      ((s.eval fuel input).1 = .rejected error ↔ Refuses input error) ∧
      ((s.eval fuel input).1 = .rejected error → (s.eval fuel input).2 = s)) ∧
    ∀ (s : Session) (inputs : List (Nat × String)),
      s.evalAll (inputs.filter fun i => (refusal? i.2).isNone) =
        ((s.evalAll inputs).1.filter fun r => !r.isRejected, (s.evalAll inputs).2) := by
  refine ⟨fun s fuel input error => ⟨?_, fun hreply => ?_⟩, evalAll_filter⟩
  · rw [eval_rejected_iff, refusal?_eq_some_iff]
  · rw [eval_of_refusal? (eval_rejected_iff.mp hreply)]

/-- An input of each stage that is refused: a text without an end, an assignment without a value,
whose error is not that of the second reading, and a `break` outside of loops. -/
theorem rejection_keeps_session_stages : ∃ s : Session, s = .new (.new 10 (.ofInput [])) ∧
    (∃ error, (s.eval 5 "\"a").1 = .rejected error ∧ (s.eval 5 "\"a").2 = s) ∧
    (∃ span, (s.eval 5 "x = ").1 =
        .rejected (.source .parser "expected expression, found end of input" span) ∧
      (s.eval 5 "x = ").2 = s) ∧
    (∃ error, (s.eval 5 "break;").1 = .rejected error ∧ (s.eval 5 "break;").2 = s) ∧
    (s.evalAll [(5, "x = "), (5, "x = 1;"), (5, "break;")]).2 = (s.evalAll [(5, "x = 1;")]).2 := by
  refine ⟨_, rfl, ?_⟩
  -- the session is kept from being run here
  generalize Session.new (.new 10 (.ofInput [])) = s
  obtain ⟨hrejects, hdialogue⟩ := rejection_keeps_session
  have hrefused : ∀ {input error}, refusal? input = some error →
      (s.eval 5 input).1 = .rejected error ∧ (s.eval 5 input).2 = s := by
    intro input error h
    obtain ⟨hiff, hkept⟩ := hrejects s 5 input error
    have hreply := hiff.mpr (refusal?_eq_some_iff.mp h)
    exact ⟨hreply, hkept hreply⟩
  have hlexer : ∃ error, refusal? "\"a" = some error := by
    refine Option.isSome_iff_exists.mp ?_
    decide +kernel
  have hparser : refusal? "x = " =
      some (.source .parser "expected expression, found end of input" ⟨4, 4⟩) := by decide +kernel
  have hcheck : ∃ error, refusal? "break;" = some error := by
    refine Option.isSome_iff_exists.mp ?_
    decide +kernel
  have hnone : refusal? "x = 1;" = none := by decide +kernel
  obtain ⟨lexical, hlexer⟩ := hlexer
  obtain ⟨found, hcheck⟩ := hcheck
  refine ⟨⟨lexical, hrefused hlexer⟩, ⟨_, hrefused hparser⟩, ⟨found, hrefused hcheck⟩, ?_⟩
  have hends : ∀ {inputs kept : List (Nat × String)},
      inputs.filter (fun i => (refusal? i.2).isNone) = kept →
      (s.evalAll inputs).2 = (s.evalAll kept).2 := by
    rintro inputs kept rfl
    rw [hdialogue]
  refine hends ?_
  simp only [List.filter_cons, hparser, hnone, hcheck, List.filter_nil, Option.isNone_some,
    Option.isNone_none, Bool.false_eq_true, ↓reduceIte]

end Session
end Scriptlet
