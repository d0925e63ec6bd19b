import Scriptlet.Proofs.Runs

/-!
Statements that are never reached.

`Program.prune` deletes, in every block at every depth, the statements behind the first `break`,
`continue` or `return` of the block. These are the statements that a check warns of, and no warning
of that sort is left (`Program.reachable_prune`). What is deleted makes no difference to a run
(`Program.run_prune`): a statement that ends its block never ends normally, whatever the state, so
that a pruned program is alike to the program under `Likeness.pruning`, and so are the functions that
both store and pass around.
-/
namespace Scriptlet

/-! ### Pruned code -/

mutual

/-- An expression without what is never reached in the functions inside it. -/
def Expr.prune {φ : Type} : Expr φ → Expr φ
  | .number span x => .number span x
  | .text span s => .text span s
  | .bool span b => .bool span b
  | .nil span => .nil span
  | .array span items => .array span (Expr.pruneAll items)
  | .group span inner => .group span inner.prune
  | .name span global x => .name span global x
  | .binary span op left right => .binary span op left.prune right.prune
  | .unary span op operand => .unary span op operand.prune
  | .conditional span test yes no => .conditional span test.prune yes.prune no.prune
  | .call span callee args => .call span callee.prune (Expr.pruneAll args)
  | .index span target i => .index span target.prune i.prune
  | .slice span target start stop =>
    .slice span target.prune (Expr.pruneOption start) (Expr.pruneOption stop)
  | .assign span global constant x value => .assign span global constant x value.prune
  | .assignIndex span global constant x i value =>
    .assignIndex span global constant x i.prune value.prune
  | .function span mark params body => .function span mark params (Block.prune body)

def Expr.pruneAll {φ : Type} : List (Expr φ) → List (Expr φ)
  | [] => []
  | e :: es => e.prune :: Expr.pruneAll es

def Expr.pruneOption {φ : Type} : Option (Expr φ) → Option (Expr φ)
  | none => none
  | some e => some e.prune

def Stmt.prune {φ : Type} : Stmt φ → Stmt φ
  | .expr span e => .expr span e.prune
  | .block span body => .block span (Block.prune body)
  | .cond span test yes no => .cond span test.prune (Block.prune yes) (Block.pruneOption no)
  | .while span test body => .while span test.prune (Block.prune body)
  | .range span x cmp first last body =>
    .range span x cmp first.prune last.prune (Block.prune body)
  | .break span => .break span
  | .continue span => .continue span
  | .return span value => .return span (Expr.pruneOption value)

/-- The statements of a block up to the first that ends it, pruned themselves. -/
def Block.prune {φ : Type} : List (Stmt φ) → List (Stmt φ)
  | [] => []
  | s :: ss => if s.endsBlock then [s.prune] else s.prune :: Block.prune ss

def Block.pruneOption {φ : Type} : Option (List (Stmt φ)) → Option (List (Stmt φ))
  | none => none
  | some body => some (Block.prune body)

end

/-- A program without the statements that are never reached. -/
def Program.prune (p : Program) : Program :=
  ⟨Block.prune p.body⟩

theorem Stmt.endsBlock_prune {φ : Type} (s : Stmt φ) : s.prune.endsBlock = s.endsBlock := by
  cases s <;> rfl

/-! ### Nothing is left to warn of -/

/-- None of these findings is a warning of statements that are never reached. -/
def Reachable (fs : List Finding) : Prop :=
  ∀ span, .warning ⟨.unreachable, span⟩ ∉ fs

@[simp] theorem reachable_nil : Reachable [] :=
  fun _ => List.not_mem_nil

@[simp] theorem reachable_append {fs gs : List Finding} :
    Reachable (fs ++ gs) ↔ Reachable fs ∧ Reachable gs := by
  simp only [Reachable, List.mem_append, not_or, forall_and]

@[simp] theorem reachable_violation {v : Violation} {span : Span} {fs : List Finding} :
    Reachable (.violation v span :: fs) ↔ Reachable fs := by
  simp [Reachable]

@[simp] theorem reachable_constantElement {x : String} {span : Span} {fs : List Finding} :
    Reachable (.warning ⟨.constantElement x, span⟩ :: fs) ↔ Reachable fs := by
  simp [Reachable]

@[simp] theorem reachable_globalFindings (p : Surroundings) (global : Bool) (x : String)
    (span : Span) : Reachable (globalFindings p global x span) := by
  rw [globalFindings]
  split <;> simp

@[simp] theorem reachable_repeatedParameters (seen : List String) (xs : List (Located String)) :
    Reachable (repeatedParameters seen xs) := by
  induction xs generalizing seen with
  | nil => exact reachable_nil
  | cons x xs ih =>
    rw [repeatedParameters]
    split
    · exact reachable_violation.mpr (ih seen)
    · exact ih _

section

variable {φ : Type}

mutual

theorem Expr.reachable_prune (p : Surroundings) : (e : Expr φ) → Reachable (e.prune.findings p)
  | .number .. => reachable_nil
  | .text .. => reachable_nil
  | .bool .. => reachable_nil
  | .nil _ => reachable_nil
  | .name _ global x => reachable_globalFindings p global x _
  | .array _ es => Expr.reachable_pruneAll p es
  | .group _ e => e.reachable_prune p
  | .binary _ _ e₁ e₂ => reachable_append.mpr ⟨e₁.reachable_prune p, e₂.reachable_prune p⟩
  | .unary _ _ e => e.reachable_prune p
  | .conditional _ e₁ e₂ e₃ =>
    reachable_append.mpr ⟨reachable_append.mpr ⟨e₁.reachable_prune p, e₂.reachable_prune p⟩,
      e₃.reachable_prune p⟩
  | .call _ e es => reachable_append.mpr ⟨e.reachable_prune p, Expr.reachable_pruneAll p es⟩
  | .index _ e₁ e₂ => reachable_append.mpr ⟨e₁.reachable_prune p, e₂.reachable_prune p⟩
  | .slice _ e start stop =>
    reachable_append.mpr ⟨reachable_append.mpr ⟨e.reachable_prune p,
      Expr.reachable_pruneOption p start⟩, Expr.reachable_pruneOption p stop⟩
  | .assign _ global _ x e =>
    reachable_append.mpr ⟨reachable_globalFindings p global x _, e.reachable_prune p⟩
  | .assignIndex _ global constant x e₁ e₂ => by
    have h₁ := e₁.reachable_prune p
    have h₂ := e₂.reachable_prune p
    cases constant <;> simp [Expr.prune, Expr.findings, h₁, h₂]
  | .function _ _ params body =>
    reachable_append.mpr ⟨reachable_repeatedParameters [] params, Block.reachable_prune .body body⟩
termination_by structural x => x

theorem Expr.reachable_pruneAll (p : Surroundings) : (es : List (Expr φ)) →
    Reachable (Expr.listFindings p (Expr.pruneAll es))
  | [] => reachable_nil
  | e :: es => reachable_append.mpr ⟨e.reachable_prune p, Expr.reachable_pruneAll p es⟩
termination_by structural x => x

theorem Expr.reachable_pruneOption (p : Surroundings) : (e : Option (Expr φ)) →
    Reachable (Expr.optionFindings p (Expr.pruneOption e))
  | none => reachable_nil
  | some e => e.reachable_prune p
termination_by structural x => x

theorem Stmt.reachable_prune (p : Surroundings) : (s : Stmt φ) → Reachable (s.prune.findings p)
  | .expr _ e => e.reachable_prune p
  | .block _ body => Block.reachable_prune p body
  | .cond _ e yes no =>
    reachable_append.mpr ⟨reachable_append.mpr ⟨e.reachable_prune p, Block.reachable_prune p yes⟩,
      Block.reachable_pruneOption p no⟩
  | .while _ e body =>
    reachable_append.mpr ⟨e.reachable_prune p, Block.reachable_prune p.loop body⟩
  | .range _ _ _ e₁ e₂ body =>
    reachable_append.mpr ⟨reachable_append.mpr ⟨e₁.reachable_prune p, e₂.reachable_prune p⟩,
      Block.reachable_prune p.loop body⟩
  | .break _ => by
    rw [Stmt.prune, Stmt.findings]
    split <;> simp
  | .continue _ => by
    rw [Stmt.prune, Stmt.findings]
    split <;> simp
  | .return _ e => by
    have he := Expr.reachable_pruneOption p e
    rw [Stmt.prune, Stmt.findings]
    split <;> simp [he]
termination_by structural x => x

theorem Block.reachable_prune (p : Surroundings) : (ss : List (Stmt φ)) →
    Reachable (Block.findings p (Block.prune ss))
  | [] => reachable_nil
  | s :: ss => by
    have hs := s.reachable_prune p
    have hss := Block.reachable_prune p ss
    rw [Block.prune]
    split
    · exact hs
    · rename_i hends
      -- a statement that goes on is followed by what is pruned already
      cases hrest : Block.prune ss with
      | nil => exact hs
      | cons t rest =>
        rw [hrest] at hss
        rw [Block.findings, Stmt.endsBlock_prune, if_neg hends]
        exact reachable_append.mpr ⟨hs, hss⟩
termination_by structural x => x

theorem Block.reachable_pruneOption (p : Surroundings) : (ss : Option (List (Stmt φ))) →
    Reachable (Block.optionFindings p (Block.pruneOption ss))
  | none => reachable_nil
  | some body => Block.reachable_prune p body
termination_by structural x => x

end

end

theorem Report.mem_warnings {fs : List Finding} {w : Warning} (h : w ∈ (ofFindings fs).warnings) :
    .warning w ∈ fs := by
  induction fs with
  | nil => cases h
  | cons f fs ih =>
    cases f with
    | violation v span => cases h
    | warning v =>
      rcases List.mem_cons.mp h with rfl | h
      · exact List.mem_cons_self
      · exact List.mem_cons_of_mem _ (ih h)

/-- A check of a pruned program warns of no statement that is never reached. -/
theorem Program.reachable_prune (p : Program) :
    ∀ w ∈ p.prune.check.warnings, w.suspicion ≠ .unreachable := by
  rintro ⟨suspicion, span⟩ hw rfl
  exact Block.reachable_prune .top p.body span (Report.mem_warnings hw)

/-! ### Pruned code is alike -/

/-- The same code at the same places, but for statements that are never reached. -/
def Likeness.pruning : Likeness where
  Spans := Eq
  placed := False
  loose := True
  merge := @Span.merge_congr

open Likeness (pruning)

section

variable {φ : Type}

theorem pruning_params (xs : List (Located String)) : List.Forall₂ pruning.Located xs xs :=
  List.forall₂_same.mpr fun _ _ => ⟨rfl, rfl⟩

mutual

theorem Expr.alike_prune {p : Surroundings} : (e : Expr φ) → e.Alike pruning p e.prune
  | .number .. => .number rfl
  | .text .. => .text rfl
  | .bool .. => .bool rfl
  | .nil _ => .nil rfl
  | .name .. => .name rfl False.elim
  | .array _ es => .array rfl (Expr.alike_pruneAll es)
  | .group _ e => .group rfl e.alike_prune
  | .binary _ _ e₁ e₂ => .binary rfl e₁.alike_prune e₂.alike_prune
  | .unary _ _ e => .unary rfl e.alike_prune
  | .conditional _ e₁ e₂ e₃ => .conditional rfl e₁.alike_prune e₂.alike_prune e₃.alike_prune
  | .call _ e es => .call rfl e.alike_prune (Expr.alike_pruneAll es)
  | .index _ e₁ e₂ => .index rfl e₁.alike_prune e₂.alike_prune
  | .slice _ e start stop =>
    .slice rfl e.alike_prune (Expr.alike_pruneOption start) (Expr.alike_pruneOption stop)
  | .assign _ _ _ _ e => .assign rfl False.elim e.alike_prune
  | .assignIndex _ _ _ _ e₁ e₂ => .assignIndex rfl False.elim e₁.alike_prune e₂.alike_prune
  | .function _ _ params body => .function rfl (pruning_params params) (Block.alike_prune body)
termination_by structural x => x

theorem Expr.alike_pruneAll {p : Surroundings} : (es : List (Expr φ)) →
    Expr.AllAlike pruning p es (Expr.pruneAll es)
  | [] => .nil
  | e :: es => .cons e.alike_prune (Expr.alike_pruneAll es)
termination_by structural x => x

theorem Expr.alike_pruneOption {p : Surroundings} : (e : Option (Expr φ)) →
    Expr.OptionAlike pruning p e (Expr.pruneOption e)
  | none => .none
  | some e => .some e.alike_prune
termination_by structural x => x

theorem Stmt.alike_prune {p : Surroundings} : (s : Stmt φ) → s.Alike pruning p s.prune
  | .expr _ e => .expr rfl e.alike_prune
  | .block _ body => .block rfl (Block.alike_prune body)
  | .cond _ e yes no =>
    .cond rfl e.alike_prune (Block.alike_prune yes) (Block.alike_pruneOption no)
  | .while _ e body => .while rfl e.alike_prune (Block.alike_prune body)
  | .range _ _ _ e₁ e₂ body =>
    .range rfl ⟨rfl, rfl⟩ ⟨rfl, rfl⟩ e₁.alike_prune e₂.alike_prune (Block.alike_prune body)
  | .break _ => .break rfl False.elim
  | .continue _ => .continue rfl False.elim
  | .return _ e => .return rfl False.elim (Expr.alike_pruneOption e)
termination_by structural x => x

theorem Block.alike_prune {p : Surroundings} : (ss : List (Stmt φ)) →
    Block.Alike pruning p ss (Block.prune ss)
  | [] => .nil
  | s :: ss => by
    rw [Block.prune]
    split
    · rename_i hends
      exact .ends trivial s.alike_prune hends
    · exact .cons s.alike_prune (Block.alike_prune ss)
termination_by structural x => x

theorem Block.alike_pruneOption {p : Surroundings} : (ss : Option (List (Stmt φ))) →
    Block.OptionAlike pruning p ss (Block.pruneOption ss)
  | none => .none
  | some body => .some (Block.alike_prune body)
termination_by structural x => x

end

end

theorem Interpreter.outcome_eq_of_pruning {i j : Interpreter} {p q : Program} {fuel : Nat}
    (h : pruning.correspondence.Outcomes (i.run fuel p).1 (j.run fuel q).1) :
    (i.run fuel p).1 = (j.run fuel q).1 := by
  generalize hx : (i.run fuel p).1 = x at h ⊢
  generalize hy : (j.run fuel q).1 = y at h ⊢
  cases h with
  | ended hs => rw [eq_normal_of_run hx, eq_normal_of_run hy]
  | stopped he =>
    cases he with
    | fault hc hspan =>
      have hspan : _ = _ := hspan
      rw [hspan]
    | outOfFuel => rfl

/-- **What is never reached makes no difference.** A program and what is left of it when the
statements that are never reached are deleted, run by a new interpreter with whatever fuel, have the
same outcome, the fault and its place included, and its message too, in whatever orders the two runs
tell names, but for the choice between tied names. They have written the same and leave global bindings
of which the same is told. Nothing is left that a check would warn of as never reached. -/
theorem Program.run_prune (p : Program) (limit : Nat) (console : Console) (fuel : Nat) :
    let i := Interpreter.new limit console
    (i.run fuel p).1 = (i.run fuel p.prune).1 ∧
      Interpreter.SameEnd (i.run fuel p).1 (i.run fuel p.prune).1 ∧
      (i.run fuel p).2.Agree (i.run fuel p.prune).2 ∧
      ∀ w ∈ p.prune.check.warnings, w.suspicion ≠ .unreachable := by
  intro i
  have hworlds := Interpreter.new_corresponds pruning.correspondence limit console
  obtain ⟨houtcomes, hleft⟩ :=
    Interpreter.run_alike hworlds rfl rfl (Block.alike_prune p.body) fuel
  exact ⟨Interpreter.outcome_eq_of_pruning houtcomes, Interpreter.sameEnd_of_outcomes houtcomes,
    Interpreter.agree_of_worlds hleft, p.reachable_prune⟩

end Scriptlet
