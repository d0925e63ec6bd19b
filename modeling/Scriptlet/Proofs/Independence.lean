import Scriptlet.Proofs.Joining
import Scriptlet.Proofs.Runs

/-!
The layout of a source does not matter.

Two sources with the same tokens, wherever these stand, are both refused with the same message, or
are programs that are the same but for their places. The same is then found in both, and they run
alike, though the functions that they store and pass around differ in the places of their code
(`Program.layout_independent`).

That two pieces of code are the same but for their places is said by `Expr.mapSpan`, which moves all
of a tree to other places: with every place put at the start, the trees are equal.
-/
namespace Scriptlet

/-! ### Code at other places -/

/-- The same thing at another place. -/
def Located.mapSpan {α : Type} (f : Span → Span) (x : Located α) : Located α :=
  ⟨x.val, f x.span⟩

section

variable {φ : Type} (f : Span → Span)

mutual

/-- The same expression at other places. -/
def Expr.mapSpan : Expr φ → Expr φ
  | .number span x => .number (f span) x
  | .text span s => .text (f span) s
  | .bool span b => .bool (f span) b
  | .nil span => .nil (f span)
  | .array span items => .array (f span) (Expr.mapSpans items)
  | .group span inner => .group (f span) inner.mapSpan
  | .name span global x => .name (f span) global x
  | .binary span op left right => .binary (f span) op left.mapSpan right.mapSpan
  | .unary span op operand => .unary (f span) op operand.mapSpan
  | .conditional span test yes no =>
    .conditional (f span) test.mapSpan yes.mapSpan no.mapSpan
  | .call span callee args => .call (f span) callee.mapSpan (Expr.mapSpans args)
  | .index span target i => .index (f span) target.mapSpan i.mapSpan
  | .slice span target start stop =>
    .slice (f span) target.mapSpan (Expr.mapSpanOption start) (Expr.mapSpanOption stop)
  | .assign span global constant x value => .assign (f span) global constant x value.mapSpan
  | .assignIndex span global constant x i value =>
    .assignIndex (f span) global constant x i.mapSpan value.mapSpan
  | .function span mark params body =>
    .function (f span) mark (params.map (Located.mapSpan f)) (Block.mapSpan body)

def Expr.mapSpans : List (Expr φ) → List (Expr φ)
  | [] => []
  | e :: es => e.mapSpan :: Expr.mapSpans es

def Expr.mapSpanOption : Option (Expr φ) → Option (Expr φ)
  | none => none
  | some e => some e.mapSpan

def Stmt.mapSpan : Stmt φ → Stmt φ
  | .expr span e => .expr (f span) e.mapSpan
  | .block span body => .block (f span) (Block.mapSpan body)
  | .cond span test yes no =>
    .cond (f span) test.mapSpan (Block.mapSpan yes) (Block.mapSpanOption no)
  | .while span test body => .while (f span) test.mapSpan (Block.mapSpan body)
  | .range span x cmp first last body =>
    .range (f span) (x.mapSpan f) (cmp.mapSpan f) first.mapSpan last.mapSpan (Block.mapSpan body)
  | .break span => .break (f span)
  | .continue span => .continue (f span)
  | .return span value => .return (f span) (Expr.mapSpanOption value)

def Block.mapSpan : List (Stmt φ) → List (Stmt φ)
  | [] => []
  | s :: ss => s.mapSpan :: Block.mapSpan ss

def Block.mapSpanOption : Option (List (Stmt φ)) → Option (List (Stmt φ))
  | none => none
  | some body => some (Block.mapSpan body)

end

end

/-- A program with every place put at the start. -/
def Program.unplaced (p : Program) : Program :=
  ⟨Block.mapSpan (fun _ => ⟨0, 0⟩) p.body⟩

section

variable {L : Likeness} {φ : Type} {f : Span → Span} {p : Surroundings}

theorem Likeness.Located.mapSpan_eq (hf : ∀ a b, L.Spans a b → f a = f b) {α : Type}
    {x y : Scriptlet.Located α} (h : L.Located x y) : x.mapSpan f = y.mapSpan f := by
  rw [Scriptlet.Located.mapSpan, Scriptlet.Located.mapSpan, h.val, hf _ _ h.span]

theorem Likeness.map_mapSpan_eq (hf : ∀ a b, L.Spans a b → f a = f b) {α : Type}
    {xs ys : List (Scriptlet.Located α)} (h : List.Forall₂ L.Located xs ys) :
    xs.map (Scriptlet.Located.mapSpan f) = ys.map (Scriptlet.Located.mapSpan f) := by
  induction h with
  | nil => rfl
  | cons hx _ ih => rw [List.map_cons, List.map_cons, hx.mapSpan_eq hf, ih]

mutual

theorem Expr.mapSpan_eq (hl : ¬ L.loose) (hf : ∀ a b, L.Spans a b → f a = f b)
    {p : Surroundings} : (e : Expr φ) → {d : Expr φ} → e.Alike L p d → e.mapSpan f = d.mapSpan f
  | .number .., _, .number hs => by rw [Expr.mapSpan, Expr.mapSpan, hf _ _ hs]
  | .text .., _, .text hs => by rw [Expr.mapSpan, Expr.mapSpan, hf _ _ hs]
  | .bool .., _, .bool hs => by rw [Expr.mapSpan, Expr.mapSpan, hf _ _ hs]
  | .nil .., _, .nil hs => by rw [Expr.mapSpan, Expr.mapSpan, hf _ _ hs]
  | .name .., _, .name hs _ => by rw [Expr.mapSpan, Expr.mapSpan, hf _ _ hs]
  | .array _ es, _, .array hs he => by
    rw [Expr.mapSpan, Expr.mapSpan, hf _ _ hs, Expr.mapSpans_eq hl hf es he]
  | .group _ e, _, .group hs he => by
    rw [Expr.mapSpan, Expr.mapSpan, hf _ _ hs, e.mapSpan_eq hl hf he]
  | .binary _ _ e₁ e₂, _, .binary hs h₁ h₂ => by
    rw [Expr.mapSpan, Expr.mapSpan, hf _ _ hs, e₁.mapSpan_eq hl hf h₁, e₂.mapSpan_eq hl hf h₂]
  | .unary _ _ e, _, .unary hs he => by
    rw [Expr.mapSpan, Expr.mapSpan, hf _ _ hs, e.mapSpan_eq hl hf he]
  | .conditional _ e₁ e₂ e₃, _, .conditional hs h₁ h₂ h₃ => by
    rw [Expr.mapSpan, Expr.mapSpan, hf _ _ hs, e₁.mapSpan_eq hl hf h₁, e₂.mapSpan_eq hl hf h₂,
      e₃.mapSpan_eq hl hf h₃]
  | .call _ e es, _, .call hs he ha => by
    rw [Expr.mapSpan, Expr.mapSpan, hf _ _ hs, e.mapSpan_eq hl hf he, Expr.mapSpans_eq hl hf es ha]
  | .index _ e₁ e₂, _, .index hs h₁ h₂ => by
    rw [Expr.mapSpan, Expr.mapSpan, hf _ _ hs, e₁.mapSpan_eq hl hf h₁, e₂.mapSpan_eq hl hf h₂]
  | .slice _ e start stop, _, .slice hs he h₁ h₂ => by
    rw [Expr.mapSpan, Expr.mapSpan, hf _ _ hs, e.mapSpan_eq hl hf he,
      Expr.mapSpanOption_eq hl hf start h₁, Expr.mapSpanOption_eq hl hf stop h₂]
  | .assign _ _ _ _ e, _, .assign hs _ he => by
    rw [Expr.mapSpan, Expr.mapSpan, hf _ _ hs, e.mapSpan_eq hl hf he]
  | .assignIndex _ _ _ _ e₁ e₂, _, .assignIndex hs _ h₁ h₂ => by
    rw [Expr.mapSpan, Expr.mapSpan, hf _ _ hs, e₁.mapSpan_eq hl hf h₁, e₂.mapSpan_eq hl hf h₂]
  | .function _ _ _ body, _, .function hs hx hb => by
    rw [Expr.mapSpan, Expr.mapSpan, hf _ _ hs, Likeness.map_mapSpan_eq hf hx,
      Block.mapSpan_eq hl hf body hb]
termination_by structural x => x

theorem Expr.mapSpans_eq (hl : ¬ L.loose) (hf : ∀ a b, L.Spans a b → f a = f b)
    {p : Surroundings} : (es : List (Expr φ)) → {ds : List (Expr φ)} → Expr.AllAlike L p es ds →
    Expr.mapSpans f es = Expr.mapSpans f ds
  | [], _, .nil => rfl
  | e :: es, _, .cons he hes => by
    rw [Expr.mapSpans, Expr.mapSpans, e.mapSpan_eq hl hf he, Expr.mapSpans_eq hl hf es hes]
termination_by structural x => x

theorem Expr.mapSpanOption_eq (hl : ¬ L.loose) (hf : ∀ a b, L.Spans a b → f a = f b)
    {p : Surroundings} : (e : Option (Expr φ)) → {d : Option (Expr φ)} → Expr.OptionAlike L p e d →
    Expr.mapSpanOption f e = Expr.mapSpanOption f d
  | none, _, .none => rfl
  | some e, _, .some he => by
    rw [Expr.mapSpanOption, Expr.mapSpanOption, e.mapSpan_eq hl hf he]
termination_by structural x => x

theorem Stmt.mapSpan_eq (hl : ¬ L.loose) (hf : ∀ a b, L.Spans a b → f a = f b)
    {p : Surroundings} : (s : Stmt φ) → {t : Stmt φ} → s.Alike L p t → s.mapSpan f = t.mapSpan f
  | .expr _ e, _, .expr hs he => by
    rw [Stmt.mapSpan, Stmt.mapSpan, hf _ _ hs, e.mapSpan_eq hl hf he]
  | .block _ body, _, .block hs hb => by
    rw [Stmt.mapSpan, Stmt.mapSpan, hf _ _ hs, Block.mapSpan_eq hl hf body hb]
  | .cond _ e yes no, _, .cond hs he hy hn => by
    rw [Stmt.mapSpan, Stmt.mapSpan, hf _ _ hs, e.mapSpan_eq hl hf he,
      Block.mapSpan_eq hl hf yes hy, Block.mapSpanOption_eq hl hf no hn]
  | .while _ e body, _, .while hs he hb => by
    rw [Stmt.mapSpan, Stmt.mapSpan, hf _ _ hs, e.mapSpan_eq hl hf he,
      Block.mapSpan_eq hl hf body hb]
  | .range _ _ _ e₁ e₂ body, _, .range hs hx hc h₁ h₂ hb => by
    rw [Stmt.mapSpan, Stmt.mapSpan, hf _ _ hs, hx.mapSpan_eq hf, hc.mapSpan_eq hf,
      e₁.mapSpan_eq hl hf h₁, e₂.mapSpan_eq hl hf h₂, Block.mapSpan_eq hl hf body hb]
  | .break _, _, .break hs _ => by rw [Stmt.mapSpan, Stmt.mapSpan, hf _ _ hs]
  | .continue _, _, .continue hs _ => by rw [Stmt.mapSpan, Stmt.mapSpan, hf _ _ hs]
  | .return _ e, _, .return hs _ he => by
    rw [Stmt.mapSpan, Stmt.mapSpan, hf _ _ hs, Expr.mapSpanOption_eq hl hf e he]
termination_by structural x => x

theorem Block.mapSpan_eq (hl : ¬ L.loose) (hf : ∀ a b, L.Spans a b → f a = f b)
    {p : Surroundings} : (ss : List (Stmt φ)) → {ts : List (Stmt φ)} → Block.Alike L p ss ts →
    Block.mapSpan f ss = Block.mapSpan f ts
  | [], _, .nil => rfl
  | s :: ss, _, .cons hs hss => by
    rw [Block.mapSpan, Block.mapSpan, s.mapSpan_eq hl hf hs, Block.mapSpan_eq hl hf ss hss]
  | _ :: _, _, .ends loose .. => absurd loose hl
termination_by structural x => x

theorem Block.mapSpanOption_eq (hl : ¬ L.loose) (hf : ∀ a b, L.Spans a b → f a = f b)
    {p : Surroundings} : (ss : Option (List (Stmt φ))) → {ts : Option (List (Stmt φ))} →
    Block.OptionAlike L p ss ts → Block.mapSpanOption f ss = Block.mapSpanOption f ts
  | none, _, .none => rfl
  | some body, _, .some hb => by
    rw [Block.mapSpanOption, Block.mapSpanOption, Block.mapSpan_eq hl hf body hb]
termination_by structural x => x

end

end

/-! ### Reports but for their places -/

/-- The same warnings in the same order, and the same verdict, wherever the places are. -/
structure Report.Agree (r s : Report) : Prop where
  warnings : r.warnings.map (·.suspicion) = s.warnings.map (·.suspicion)
  violation? : r.violation?.map (·.1) = s.violation?.map (·.1)

theorem Likeness.Reports.agree {L : Likeness} {r s : Report} (h : L.Reports r s) :
    r.Agree s := by
  obtain ⟨hwarnings, hviolation⟩ := h
  constructor
  · generalize r.warnings = vs at hwarnings
    generalize s.warnings = ws at hwarnings
    induction hwarnings with
    | nil => rfl
    | cons hw _ ih => rw [List.map_cons, List.map_cons, hw.suspicion, ih]
  · generalize r.violation? = a at hviolation
    generalize s.violation? = b at hviolation
    cases hviolation with
    | none => rfl
    | some hv => rw [Option.map_some, Option.map_some, hv.1]

/-! ### Sources with the same tokens -/

theorem Layout.free_tokens {ts us : List (Located Token)}
    (h : ts.map (·.val) = us.map (·.val)) : Layout.free.Tokens ts us := by
  induction ts generalizing us with
  | nil =>
    cases us with
    | nil => exact .nil
    | cons u us => cases h
  | cons t ts ih =>
    cases us with
    | nil => cases h
    | cons u us =>
      obtain ⟨hval, hrest⟩ := List.cons.inj h
      exact .cons ⟨hval, trivial, trivial⟩ (ih hrest)

theorem Program.ofSource_of_tokenize {source : String} {ts : List (Located Token)}
    (h : tokenize source = .ok ts) :
    Program.ofSource source =
      (Program.ofTokens source.utf8ByteSize ts).mapError ParseError.toCompileError := by
  rw [Program.ofSource, h]
  rfl

theorem ParseError.message_eq {e d : ParseError} (h : e.cause = d.cause) :
    e.toCompileError.message = d.toCompileError.message := by
  have hmessage : e.message = d.message := by rw [ParseError.message, ParseError.message, h]
  exact hmessage

/-- **The layout of a source does not matter.** Two sources with the same tokens are refused with the
same message, or they are programs that are equal but for their places. Then the same is found in
both, and whatever interpreter runs them, with whatever fuel, the runs end in the same way, have
written the same and leave global bindings of which the same is told. Faults that are told under
different orders of the names differ at most in the choice between tied names. -/
theorem Program.layout_independent {s t : String} {ts us : List (Located Token)}
    (hs : tokenize s = .ok ts) (ht : tokenize t = .ok us)
    (htokens : ts.map (·.val) = us.map (·.val)) :
    (∃ e d, Program.ofSource s = .error e ∧ Program.ofSource t = .error d ∧
      e.message = d.message) ∨
    ∃ p q, Program.ofSource s = .ok p ∧ Program.ofSource t = .ok q ∧
      p.unplaced = q.unplaced ∧ p.check.Agree q.check ∧
      ∀ (i : Interpreter) (fuel : Nat),
        Interpreter.SameEnd (i.run fuel p).1 (i.run fuel q).1 ∧
          (i.run fuel p).2.Agree (i.run fuel q).2 := by
  have hread : Layout.free.Readings (fun p q => Layout.free.Blocks p.body q.body)
      (Program.ofTokens s.utf8ByteSize ts) (Program.ofTokens t.utf8ByteSize us) :=
    Layout.ofTokens_alike trivial (Layout.free_tokens htokens)
  rw [ofSource_of_tokenize hs, ofSource_of_tokenize ht]
  generalize Program.ofTokens s.utf8ByteSize ts = x at hread ⊢
  generalize Program.ofTokens t.utf8ByteSize us = y at hread ⊢
  cases hread with
  | error hcause hspan => exact .inl ⟨_, _, rfl, rfl, ParseError.message_eq hcause⟩
  | @ok p q halike =>
    refine .inr ⟨p, q, rfl, rfl, ?_, (Program.check_alike id (halike .top)).agree, ?_⟩
    · rw [unplaced, unplaced, Block.mapSpan_eq id (fun _ _ _ => rfl) p.body (halike .top)]
    · intro i fuel
      -- the interpreter may hold functions of earlier programs: these correspond to themselves
      have hworlds := Correspondence.worlds_self Session.freely_self i.world
      obtain ⟨houtcomes, hleft⟩ := Interpreter.run_alike hworlds rfl rfl (halike .top) fuel
      exact ⟨Interpreter.sameEnd_of_outcomes houtcomes, Interpreter.agree_of_worlds hleft⟩

deriving instance DecidableEq for Token

/-- Whether two sources have the same tokens is found out by splitting them. -/
instance Program.decidableSameTokens (s t : String) :
    Decidable (∃ ts us, tokenize s = .ok ts ∧ tokenize t = .ok us ∧
      ts.map (·.val) = us.map (·.val)) :=
  match tokenize s, tokenize t with
  | .error _, _ => isFalse nofun
  | .ok _, .error _ => isFalse nofun
  | .ok ts, .ok us =>
    if h : ts.map (·.val) = us.map (·.val) then isTrue ⟨ts, us, rfl, rfl, h⟩
    else isFalse fun ⟨_, _, hs, ht, htokens⟩ => h (by cases hs; cases ht; exact htokens)

/-- A function and its call, written without blanks, and over three lines with a comment. -/
theorem Program.layout_independent_comment :
    let s := "f:=fn(x)\x7breturn x();\x7d;print(f);f(1);"
    let t := "f := fn ( x ) \x7b\n  return x(); // call it\n\x7d;\nprint(f); f(1);"
    ∃ ts us p q, tokenize s = .ok ts ∧ tokenize t = .ok us ∧
      ts.map (·.val) = us.map (·.val) ∧ Program.ofSource s = .ok p ∧ Program.ofSource t = .ok q ∧
      p.unplaced = q.unplaced ∧ p.check.Agree q.check ∧
      Interpreter.SameEnd ((Interpreter.new 10 (.ofInput [])).run 20 p).1
        ((Interpreter.new 10 (.ofInput [])).run 20 q).1 ∧
      ((Interpreter.new 10 (.ofInput [])).run 20 p).2.Agree
        ((Interpreter.new 10 (.ofInput [])).run 20 q).2 := by
  intro s t
  obtain ⟨ts, us, hs, ht, htokens⟩ : ∃ ts us, tokenize s = .ok ts ∧ tokenize t = .ok us ∧
      ts.map (·.val) = us.map (·.val) := by
    decide +kernel
  obtain ⟨p₀, hp₀, -⟩ : ∃ p, Program.ofSource s = .ok p ∧ p.check.error? = none := by
    decide +kernel
  obtain ⟨e, d, he, -⟩ | ⟨p, q, hp, hq, hpq, hcheck, hrun⟩ := layout_independent hs ht htokens
  · rw [hp₀] at he
    cases he
  · exact ⟨ts, us, p, q, hs, ht, htokens, hp, hq, hpq, hcheck, hrun _ 20⟩

end Scriptlet
