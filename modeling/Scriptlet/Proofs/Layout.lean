import Scriptlet.Program.Parser
import Scriptlet.Proofs.Alike

/-!
Reading does not depend on where tokens stand.

A `Layout` says which offsets in one source stand for which in another. Two lists of tokens that are
the same but for their places are read alike (`ofTokens_alike`): either both are programs, and these
are alike, or both are refused, for the same cause at corresponding places.

Cursors over such tokens show a reader the same (`Layout.Cursors`). The place of the token before a
cursor matters only for the nodes that end there, so it corresponds behind what has been read
(`Layout.Passed`), while two cursors at the start may differ in it. As the readers call each other
with less fuel, the proof is by induction on the fuel, with one lemma for each reader.
-/
namespace Scriptlet

/-- Offsets that stand for each other in two sources. -/
structure Layout where
  Offsets : Nat → Nat → Prop
  min : ∀ {a b c d : Nat}, Offsets a b → Offsets c d → Offsets (min a c) (min b d)
  max : ∀ {a b c d : Nat}, Offsets a b → Offsets c d → Offsets (max a c) (max b d)

namespace Layout

/-- Code is alike if it differs in its places only, and these stand for each other. -/
def likeness (O : Layout) : Likeness where
  Spans a b := O.Offsets a.start b.start ∧ O.Offsets a.stop b.stop
  placed := False
  loose := False
  merge hab hcd := ⟨O.min hab.1 hcd.1, O.max hab.2 hcd.2⟩

variable (O : Layout)

abbrev Tokens : List (Located Token) → List (Located Token) → Prop :=
  List.Forall₂ O.likeness.Located

/-- Expressions that are alike, wherever they stand. -/
def Exprs (e d : Expr Unit) : Prop := ∀ p, e.Alike O.likeness p d

def ExprLists (es ds : List (Expr Unit)) : Prop := ∀ p, Expr.AllAlike O.likeness p es ds

def ExprOptions (e d : Option (Expr Unit)) : Prop := ∀ p, Expr.OptionAlike O.likeness p e d

def Stmts (s t : Stmt Unit) : Prop := ∀ p, s.Alike O.likeness p t

def Blocks (ss ts : Block Unit) : Prop := ∀ p, Block.Alike O.likeness p ss ts

/-- Cursors with the same tokens behind them. -/
structure Cursors (c d : Cursor) : Prop where
  size : O.Offsets c.size d.size
  rest : O.Tokens c.rest d.rest

/-- Cursors that have passed a token, and have the same tokens behind them. -/
structure Passed (c d : Cursor) : Prop extends O.Cursors c d where
  previous : O.likeness.Spans c.previous d.previous

/-- Readings of the same sort, with corresponding results; a refusal has the same cause. -/
inductive Readings {α β : Type} (Q : α → β → Prop) : Reading α → Reading β → Prop
  | ok {a : α} {b : β} (h : Q a b) : Readings Q (.ok a) (.ok b)
  | error {e e' : ParseError} (cause : e.cause = e'.cause)
      (span : O.likeness.Spans e.span e'.span) : Readings Q (.error e) (.error e')

/-- Readings with corresponding results and cursors behind them. -/
abbrev Reads {α β : Type} (Q : α → β → Prop) (x : Reading (α × Cursor)) (y : Reading (β × Cursor)) :
    Prop :=
  O.Readings (fun a b => Q a.1 b.1 ∧ O.Passed a.2 b.2) x y

variable {O}

theorem Readings.bind {α β γ κ : Type} {Q : α → β → Prop} {Q' : γ → κ → Prop} {x : Reading α}
    {y : Reading β} {f : α → Reading γ} {g : β → Reading κ} (h : O.Readings Q x y)
    (hfg : ∀ a b, Q a b → O.Readings Q' (f a) (g b)) : O.Readings Q' (x >>= f) (y >>= g) := by
  cases h with
  | ok h => exact hfg _ _ h
  | error cause span => exact .error cause span

/-! ### Cursors -/

namespace Cursors

variable {c d : Cursor}

theorem peek_eq (h : O.Cursors c d) : c.peek = d.peek := by
  have hrest := h.rest
  rw [Cursor.peek, Cursor.peek]
  generalize c.rest = ts at hrest
  generalize d.rest = us at hrest
  cases hrest with
  | nil => rfl
  | cons ht _ => exact congrArg some ht.val

theorem here (h : O.Cursors c d) : O.likeness.Spans c.here d.here := by
  have hrest := h.rest
  rw [Cursor.here, Cursor.here]
  generalize c.rest = ts at hrest
  generalize d.rest = us at hrest
  cases hrest with
  | nil => exact ⟨h.size, h.size⟩
  | cons ht _ => exact ht.span

theorem advance (h : O.Cursors c d) {v : Token} (hv : c.peek = some v) :
    O.Passed c.advance d.advance := by
  obtain ⟨size, last, rest⟩ := c
  obtain ⟨size', last', rest'⟩ := d
  obtain ⟨hsize, hrest⟩ := h
  cases hrest with
  | nil => cases hv
  | cons ht hts => exact ⟨⟨hsize, hts⟩, ht.span⟩

theorem atSymbol_eq (h : O.Cursors c d) (s : Symbol) : c.atSymbol s = d.atSymbol s := by
  rw [Cursor.atSymbol, Cursor.atSymbol, h.peek_eq]

theorem atKeyword_eq (h : O.Cursors c d) (k : Keyword) : c.atKeyword k = d.atKeyword k := by
  rw [Cursor.atKeyword, Cursor.atKeyword, h.peek_eq]

/-- At the end, where there is nothing to pass, cursors stay. -/
theorem advance_any (h : O.Cursors c d) : O.Cursors c.advance d.advance := by
  cases hv : c.peek with
  | some v => exact (h.advance hv).toCursors
  | none =>
    obtain ⟨size, last, rest⟩ := c
    obtain ⟨size', last', rest'⟩ := d
    obtain ⟨hsize, hrest⟩ := h
    cases hrest with
    | nil => exact ⟨hsize, .nil⟩
    | cons => cases hv

theorem isEmpty_eq (h : O.Cursors c d) : c.rest.isEmpty = d.rest.isEmpty := by
  have hrest := h.rest
  generalize c.rest = ts at hrest
  generalize d.rest = us at hrest
  cases hrest <;> rfl

theorem advance_symbol (h : O.Cursors c d) {s : Symbol} (hs : c.atSymbol s = true) :
    O.Passed c.advance d.advance := by
  cases hv : c.peek with
  | none => rw [Cursor.atSymbol, hv] at hs; cases hs
  | some v => exact h.advance hv

theorem fail {α β : Type} {Q : α → β → Prop} (h : O.Cursors c d) (what : Expectation) :
    O.Readings Q (c.fail what) (d.fail what) :=
  .error (by rw [h.peek_eq]) h.here

theorem expect (h : O.Cursors c d) (s : Symbol) (what : Expectation) :
    O.Readings O.Passed (c.expect s what) (d.expect s what) := by
  rw [Cursor.expect, Cursor.expect, ← h.atSymbol_eq]
  split
  · rename_i hs
    exact .ok (h.advance_symbol hs)
  · exact h.fail what

theorem name (h : O.Cursors c d) (what : Expectation) :
    O.Reads O.likeness.Located (c.name what) (d.name what) := by
  rw [Cursor.name, Cursor.name, ← h.peek_eq]
  split
  · rename_i hv
    exact .ok ⟨⟨rfl, h.here⟩, h.advance hv⟩
  · exact h.fail what

end Cursors

/-- Nodes that end at corresponding cursors have corresponding spans, if they begin so. -/
theorem Passed.spanFrom {c d : Cursor} {a b : Span} (h : O.Passed c d)
    (hab : O.likeness.Spans a b) : O.likeness.Spans (c.spanFrom a) (d.spanFrom b) :=
  O.likeness.merge hab h.previous

/-! ### Readers -/

theorem names_alike {size size' : Nat} (hsize : O.Offsets size size') :
    (ts us : List (Located Token)) → (previous previous' : Span) → O.Tokens ts us →
    O.Reads (List.Forall₂ O.likeness.Located) (Parser.names size previous ts)
      (Parser.names size' previous' us)
  | [], _, previous, previous', .nil =>
    have hcd : O.Cursors ⟨size, previous, []⟩ ⟨size', previous', []⟩ := ⟨hsize, .nil⟩
    hcd.fail .parameter
  | [⟨v, p⟩], [⟨w, q⟩], previous, previous', .cons hv .nil => by
    cases hv.val
    have hcd : O.Cursors ⟨size, previous, [⟨v, p⟩]⟩ ⟨size', previous', [⟨v, q⟩]⟩ :=
      ⟨hsize, .cons hv .nil⟩
    cases v with
    | name x => exact .ok ⟨.cons ⟨rfl, hv.span⟩ .nil, ⟨hsize, .nil⟩, hv.span⟩
    | _ => exact hcd.fail .parameter
  | ⟨v, p⟩ :: ⟨v', p'⟩ :: ts, ⟨w, q⟩ :: ⟨w', q'⟩ :: us, previous, previous', .cons hv (.cons hv' h) => by
    cases hv.val
    cases hv'.val
    have hrest : O.Tokens (⟨v', p'⟩ :: ts) (⟨v', q'⟩ :: us) := .cons hv' h
    have hcd : O.Cursors ⟨size, previous, ⟨v, p⟩ :: ⟨v', p'⟩ :: ts⟩
        ⟨size', previous', ⟨v, q⟩ :: ⟨v', q'⟩ :: us⟩ :=
      ⟨hsize, .cons hv hrest⟩
    cases v with
    | name x =>
      have hone : O.Reads (List.Forall₂ O.likeness.Located)
          (.ok ([⟨x, p⟩], ⟨size, p, ⟨v', p'⟩ :: ts⟩))
          (.ok ([⟨x, q⟩], ⟨size', q, ⟨v', q'⟩ :: us⟩)) :=
        .ok ⟨.cons ⟨rfl, hv.span⟩ .nil, ⟨hsize, hrest⟩, hv.span⟩
      cases v' with
      | symbol s =>
        cases s with
        | comma =>
          refine (names_alike hsize ts us p' q' h).bind ?_
          rintro ⟨xs, b⟩ ⟨ys, b'⟩ ⟨hxs, hb⟩
          exact .ok ⟨.cons ⟨rfl, hv.span⟩ hxs, hb⟩
        | _ => exact hone
      | _ => exact hone
    | _ => exact hcd.fail .parameter

theorem parameters_alike {c d : Cursor} (h : O.Cursors c d) :
    O.Reads (List.Forall₂ O.likeness.Located) (Parser.parameters c) (Parser.parameters d) := by
  refine (h.expect .openParen .parametersStart).bind fun b b' hb => ?_
  rw [← hb.atSymbol_eq]
  split
  · rename_i hclose
    exact .ok ⟨.nil, hb.advance_symbol hclose⟩
  · refine (names_alike hb.size _ _ _ _ hb.rest).bind ?_
    rintro ⟨xs, a⟩ ⟨ys, a'⟩ ⟨hxs, ha⟩
    exact (ha.expect .closeParen .parametersEnd).bind fun e e' he => .ok ⟨hxs, he⟩

theorem comparison_alike {c d : Cursor} (h : O.Cursors c d) :
    O.Reads O.likeness.Located (Parser.comparison c) (Parser.comparison d) := by
  rw [Parser.comparison, Parser.comparison, ← h.peek_eq]
  split
  · rename_i op hop
    obtain ⟨v, hv, _⟩ := Option.bind_eq_some_iff.mp hop
    exact .ok ⟨⟨rfl, h.here⟩, h.advance hv⟩
  · exact h.fail _

/-- What is alike can both be assigned to or not, and the assignments are alike. -/
theorem assignment?_alike {target target' value value' : Expr Unit} {a b : Span}
    (ht : O.Exprs target target') (hs : O.likeness.Spans a b) (constant : Bool)
    (hv : O.Exprs value value') :
    (target.assignment? a constant value = none ∧ target'.assignment? b constant value' = none) ∨
    ∃ e e', target.assignment? a constant value = some e ∧
      target'.assignment? b constant value' = some e' ∧ O.Exprs e e' := by
  have hglobal : ∀ p global, O.likeness.Global p global := fun _ _ hp => hp.elim
  cases ht .top with
  | name _ _ =>
    exact .inr ⟨_, _, rfl, rfl, fun p => .assign hs (hglobal p _) (hv p)⟩
  | index _ h₁ _ =>
    cases h₁ with
    | name _ _ =>
      refine .inr ⟨_, _, rfl, rfl, fun p => ?_⟩
      cases ht p with
      | index _ _ h₂ => exact .assignIndex hs (hglobal p _) h₂ (hv p)
    | _ => exact .inl ⟨rfl, rfl⟩
  | _ => exact .inl ⟨rfl, rfl⟩

/-- The readers read alike with this fuel. -/
structure AlikeAt (O : Layout) (fuel : Nat) : Prop where
  statements (nested : Bool) {c d : Cursor} (h : O.Cursors c d) :
    O.Readings (fun a b => O.Blocks a.1 b.1 ∧ O.Cursors a.2 b.2)
      (Parser.statements nested fuel c) (Parser.statements nested fuel d)
  block {c d : Cursor} (h : O.Cursors c d) : O.Reads O.Blocks (Parser.block fuel c) (Parser.block fuel d)
  statement {c d : Cursor} (h : O.Cursors c d) :
    O.Reads O.Stmts (Parser.statement fuel c) (Parser.statement fuel d)
  condStatement {c d : Cursor} (h : O.Cursors c d) :
    O.Reads O.Stmts (Parser.condStatement fuel c) (Parser.condStatement fuel d)
  expression {c d : Cursor} (h : O.Cursors c d) :
    O.Reads O.Exprs (Parser.expression fuel c) (Parser.expression fuel d)
  conditional {c d : Cursor} (h : O.Cursors c d) :
    O.Reads O.Exprs (Parser.conditional fuel c) (Parser.conditional fuel d)
  binary (level : Level) {c d : Cursor} (h : O.Cursors c d) :
    O.Reads O.Exprs (Parser.binary level fuel c) (Parser.binary level fuel d)
  operand (level : Level) {c d : Cursor} (h : O.Cursors c d) :
    O.Reads O.Exprs (Parser.operand level fuel c) (Parser.operand level fuel d)
  binaryTail (level : Level) {c d : Cursor} {e e' : Expr Unit} (he : O.Exprs e e')
    (h : O.Passed c d) :
    O.Reads O.Exprs (Parser.binaryTail level fuel e c) (Parser.binaryTail level fuel e' d)
  unary {c d : Cursor} (h : O.Cursors c d) :
    O.Reads O.Exprs (Parser.unary fuel c) (Parser.unary fuel d)
  postfixTail {c d : Cursor} {e e' : Expr Unit} (he : O.Exprs e e') (h : O.Passed c d) :
    O.Reads O.Exprs (Parser.postfixTail fuel e c) (Parser.postfixTail fuel e' d)
  subscript {c d : Cursor} {e e' : Expr Unit} (he : O.Exprs e e') (h : O.Cursors c d) :
    O.Reads O.Exprs (Parser.subscript fuel e c) (Parser.subscript fuel e' d)
  sliceStop {c d : Cursor} (h : O.Cursors c d) :
    O.Reads O.ExprOptions (Parser.sliceStop fuel c) (Parser.sliceStop fuel d)
  arguments (close : Symbol) (what : Expectation) {c d : Cursor} (h : O.Cursors c d) :
    O.Reads O.ExprLists (Parser.arguments close what fuel c) (Parser.arguments close what fuel d)
  expressions {c d : Cursor} (h : O.Cursors c d) :
    O.Reads O.ExprLists (Parser.expressions fuel c) (Parser.expressions fuel d)
  primary {c d : Cursor} (h : O.Cursors c d) :
    O.Reads O.Exprs (Parser.primary fuel c) (Parser.primary fuel d)

namespace AlikeAt

variable {fuel : Nat} {c d : Cursor} {e e' : Expr Unit} (ih : O.AlikeAt fuel)
include ih

theorem statements_step (nested : Bool) (h : O.Cursors c d) :
    O.Readings (fun a b => O.Blocks a.1 b.1 ∧ O.Cursors a.2 b.2)
      (Parser.statements nested (fuel + 1) c) (Parser.statements nested (fuel + 1) d) := by
  rw [Parser.statements, Parser.statements, ← h.isEmpty_eq, ← h.atSymbol_eq]
  split
  · exact .ok ⟨fun _ => .nil, h⟩
  · refine (ih.statement h).bind ?_
    rintro ⟨s, a⟩ ⟨t, a'⟩ ⟨hs, ha⟩
    refine (ih.statements nested ha.toCursors).bind ?_
    rintro ⟨ss, f⟩ ⟨ts, f'⟩ ⟨hss, hf⟩
    exact .ok ⟨fun p => .cons (hs p) (hss p), hf⟩

theorem block_step (h : O.Cursors c d) :
    O.Reads O.Blocks (Parser.block (fuel + 1) c) (Parser.block (fuel + 1) d) := by
  refine (h.expect .openBrace .blockStart).bind fun a a' ha => ?_
  refine (ih.statements true ha.toCursors).bind ?_
  rintro ⟨ss, f⟩ ⟨ts, f'⟩ ⟨hss, hf⟩
  exact (hf.expect .closeBrace .blockEnd).bind fun g g' hg => .ok ⟨hss, hg⟩

theorem condStatement_step (h : O.Cursors c d) :
    O.Reads O.Stmts (Parser.condStatement (fuel + 1) c) (Parser.condStatement (fuel + 1) d) := by
  refine (ih.expression h.advance_any).bind ?_
  rintro ⟨test, a⟩ ⟨test', a'⟩ ⟨htest, ha⟩
  refine (ih.block ha.toCursors).bind ?_
  rintro ⟨yes, f⟩ ⟨yes', f'⟩ ⟨hyes, hf⟩
  dsimp only
  rw [← hf.atKeyword_eq, ← hf.advance_any.atKeyword_eq]
  split
  · split
    · refine (ih.condStatement hf.advance_any).bind ?_
      rintro ⟨no, g⟩ ⟨no', g'⟩ ⟨hno, hg⟩
      exact .ok ⟨fun p => .cond (hg.spanFrom h.here) (htest p) (hyes p) (.some (.cons (hno p) .nil)), hg⟩
    · refine (ih.block hf.advance_any).bind ?_
      rintro ⟨no, g⟩ ⟨no', g'⟩ ⟨hno, hg⟩
      exact .ok ⟨fun p => .cond (hg.spanFrom h.here) (htest p) (hyes p) (.some (hno p)), hg⟩
  · exact .ok ⟨fun p => .cond (hf.spanFrom h.here) (htest p) (hyes p) .none, hf⟩

theorem expression_step (h : O.Cursors c d) :
    O.Reads O.Exprs (Parser.expression (fuel + 1) c) (Parser.expression (fuel + 1) d) := by
  refine (ih.conditional h).bind ?_
  rintro ⟨target, a⟩ ⟨target', a'⟩ ⟨htarget, ha⟩
  dsimp only at ha ⊢
  rw [← ha.peek_eq]
  generalize a.peek.bind Token.assigns? = assigns
  cases assigns with
  | none => exact .ok ⟨htarget, ha⟩
  | some constant =>
    refine (ih.expression ha.advance_any).bind ?_
    rintro ⟨value, f⟩ ⟨value', f'⟩ ⟨hvalue, hf⟩
    dsimp only
    obtain ⟨none, none'⟩ | ⟨g, g', hg, hg', hgg⟩ :=
      assignment?_alike htarget (O.likeness.merge (htarget .top).span (hvalue .top).span) constant
        hvalue
    · rw [none, none']
      exact .error rfl (htarget .top).span
    · rw [hg, hg']
      exact .ok ⟨hgg, hf⟩

theorem conditional_step (h : O.Cursors c d) :
    O.Reads O.Exprs (Parser.conditional (fuel + 1) c) (Parser.conditional (fuel + 1) d) := by
  refine (ih.binary .or h).bind ?_
  rintro ⟨test, a⟩ ⟨test', a'⟩ ⟨htest, ha⟩
  dsimp only
  rw [← ha.atSymbol_eq]
  split
  · refine (ih.expression ha.advance_any).bind ?_
    rintro ⟨yes, f⟩ ⟨yes', f'⟩ ⟨hyes, hf⟩
    refine (hf.expect .colon .conditionalColon).bind fun g g' hg => ?_
    refine (ih.conditional hg.toCursors).bind ?_
    rintro ⟨no, k⟩ ⟨no', k'⟩ ⟨hno, hk⟩
    exact .ok ⟨fun p => .conditional (O.likeness.merge (htest p).span (hno p).span) (htest p) (hyes p)
      (hno p), hk⟩
  · exact .ok ⟨htest, ha⟩

theorem binary_step (level : Level) (h : O.Cursors c d) :
    O.Reads O.Exprs (Parser.binary level (fuel + 1) c) (Parser.binary level (fuel + 1) d) := by
  refine (ih.operand level h).bind ?_
  rintro ⟨left, a⟩ ⟨left', a'⟩ ⟨hleft, ha⟩
  exact ih.binaryTail level hleft ha

theorem operand_step (level : Level) (h : O.Cursors c d) :
    O.Reads O.Exprs (Parser.operand level (fuel + 1) c) (Parser.operand level (fuel + 1) d) := by
  cases level with
  | product => exact ih.unary h
  | _ => exact ih.binary _ h

theorem binaryTail_step (level : Level) (he : O.Exprs e e') (h : O.Passed c d) :
    O.Reads O.Exprs (Parser.binaryTail level (fuel + 1) e c)
      (Parser.binaryTail level (fuel + 1) e' d) := by
  rw [Parser.binaryTail, Parser.binaryTail, ← h.peek_eq]
  split
  · exact .ok ⟨he, h⟩
  · refine (ih.operand level h.advance_any).bind ?_
    rintro ⟨right, a⟩ ⟨right', a'⟩ ⟨hright, ha⟩
    refine ih.binaryTail level (fun p => ?_) ha
    exact .binary (O.likeness.merge (he p).span (hright p).span) (he p) (hright p)

theorem unary_step (h : O.Cursors c d) :
    O.Reads O.Exprs (Parser.unary (fuel + 1) c) (Parser.unary (fuel + 1) d) := by
  rw [Parser.unary, Parser.unary, ← h.peek_eq]
  split
  · refine (ih.primary h).bind ?_
    rintro ⟨e, a⟩ ⟨e', a'⟩ ⟨he, ha⟩
    exact ih.postfixTail he ha
  · refine (ih.unary h.advance_any).bind ?_
    rintro ⟨e, a⟩ ⟨e', a'⟩ ⟨he, ha⟩
    exact .ok ⟨fun p => .unary (O.likeness.merge h.here (he p).span) (he p), ha⟩

theorem postfixTail_step (he : O.Exprs e e') (h : O.Passed c d) :
    O.Reads O.Exprs (Parser.postfixTail (fuel + 1) e c) (Parser.postfixTail (fuel + 1) e' d) := by
  rw [Parser.postfixTail, Parser.postfixTail, ← h.atSymbol_eq, ← h.atSymbol_eq]
  split
  · refine (ih.arguments .closeParen .argumentsEnd h.advance_any).bind ?_
    rintro ⟨args, a⟩ ⟨args', a'⟩ ⟨hargs, ha⟩
    exact ih.postfixTail (fun p => .call (ha.spanFrom (he p).span) (he p) (hargs p)) ha
  split
  · refine (ih.subscript he h.advance_any).bind ?_
    rintro ⟨f, a⟩ ⟨f', a'⟩ ⟨hf, ha⟩
    exact ih.postfixTail hf ha
  · exact .ok ⟨he, h⟩

theorem subscript_step (he : O.Exprs e e') (h : O.Cursors c d) :
    O.Reads O.Exprs (Parser.subscript (fuel + 1) e c) (Parser.subscript (fuel + 1) e' d) := by
  rw [Parser.subscript, Parser.subscript, ← h.atSymbol_eq, ← h.atSymbol_eq]
  split
  · exact h.fail _
  split
  · refine (ih.sliceStop h.advance_any).bind ?_
    rintro ⟨stop, a⟩ ⟨stop', a'⟩ ⟨hstop, ha⟩
    exact .ok ⟨fun p => .slice (ha.spanFrom (he p).span) (he p) .none (hstop p), ha⟩
  refine (ih.expression h).bind ?_
  rintro ⟨start, a⟩ ⟨start', a'⟩ ⟨hstart, ha⟩
  dsimp only
  rw [← ha.atSymbol_eq]
  split
  · refine (ih.sliceStop ha.advance_any).bind ?_
    rintro ⟨stop, f⟩ ⟨stop', f'⟩ ⟨hstop, hf⟩
    exact .ok ⟨fun p => .slice (hf.spanFrom (he p).span) (he p) (.some (hstart p)) (hstop p), hf⟩
  · refine (ha.expect .closeBracket .subscriptEnd).bind fun f f' hf => ?_
    exact .ok ⟨fun p => .index (hf.spanFrom (he p).span) (he p) (hstart p), hf⟩

theorem sliceStop_step (h : O.Cursors c d) :
    O.Reads O.ExprOptions (Parser.sliceStop (fuel + 1) c) (Parser.sliceStop (fuel + 1) d) := by
  rw [Parser.sliceStop, Parser.sliceStop, ← h.atSymbol_eq]
  split
  · rename_i hclose
    exact .ok ⟨fun _ => .none, h.advance_symbol hclose⟩
  · refine (ih.expression h).bind ?_
    rintro ⟨stop, a⟩ ⟨stop', a'⟩ ⟨hstop, ha⟩
    refine (ha.expect .closeBracket .subscriptEnd).bind fun f f' hf => ?_
    exact .ok ⟨fun p => .some (hstop p), hf⟩

theorem arguments_step (close : Symbol) (what : Expectation) (h : O.Cursors c d) :
    O.Reads O.ExprLists (Parser.arguments close what (fuel + 1) c)
      (Parser.arguments close what (fuel + 1) d) := by
  rw [Parser.arguments, Parser.arguments, ← h.atSymbol_eq]
  split
  · rename_i hclose
    exact .ok ⟨fun _ => .nil, h.advance_symbol hclose⟩
  · refine (ih.expressions h).bind ?_
    rintro ⟨es, a⟩ ⟨es', a'⟩ ⟨hes, ha⟩
    exact (ha.expect close what).bind fun f f' hf => .ok ⟨hes, hf⟩

theorem expressions_step (h : O.Cursors c d) :
    O.Reads O.ExprLists (Parser.expressions (fuel + 1) c) (Parser.expressions (fuel + 1) d) := by
  refine (ih.expression h).bind ?_
  rintro ⟨e, a⟩ ⟨e', a'⟩ ⟨he, ha⟩
  dsimp only
  rw [← ha.atSymbol_eq]
  split
  · refine (ih.expressions ha.advance_any).bind ?_
    rintro ⟨es, f⟩ ⟨es', f'⟩ ⟨hes, hf⟩
    exact .ok ⟨fun p => .cons (he p) (hes p), hf⟩
  · exact .ok ⟨fun p => .cons (he p) .nil, ha⟩

theorem statement_step (h : O.Cursors c d) :
    O.Reads O.Stmts (Parser.statement (fuel + 1) c) (Parser.statement (fuel + 1) d) := by
  have hexpr : O.Reads O.Stmts
      (Parser.expression fuel c >>= fun x => x.2.expect .semicolon .afterExpression >>= fun a =>
        pure (.expr (a.spanFrom c.here) x.1, a))
      (Parser.expression fuel d >>= fun x => x.2.expect .semicolon .afterExpression >>= fun a =>
        pure (.expr (a.spanFrom d.here) x.1, a)) := by
    refine (ih.expression h).bind ?_
    rintro ⟨e, a⟩ ⟨e', a'⟩ ⟨he, ha⟩
    refine (ha.expect .semicolon .afterExpression).bind fun f f' hf => ?_
    exact .ok ⟨fun p => .expr (hf.spanFrom h.here) (he p), hf⟩
  have hnext := h.advance_any
  have hrest := h.rest
  -- the first token decides what is read, and behind `fn` the second
  rw [Parser.statement, Parser.statement]
  generalize c.rest = ts at hrest
  generalize d.rest = us at hrest
  cases hrest with
  | nil => exact hexpr
  | @cons t u ts us ht hts =>
    obtain ⟨v, span⟩ := t
    obtain ⟨w, span'⟩ := u
    cases ht.val
    cases v with
    | symbol s =>
      cases s with
      | openBrace =>
        refine (ih.block h).bind ?_
        rintro ⟨body, a⟩ ⟨body', a'⟩ ⟨hbody, ha⟩
        exact .ok ⟨fun p => .block (ha.spanFrom h.here) (hbody p), ha⟩
      | _ => exact hexpr
    | keyword k =>
      cases k with
      | if_ => exact ih.condStatement h
      | while_ =>
        refine (ih.expression hnext).bind ?_
        rintro ⟨test, a⟩ ⟨test', a'⟩ ⟨htest, ha⟩
        refine (ih.block ha.toCursors).bind ?_
        rintro ⟨body, f⟩ ⟨body', f'⟩ ⟨hbody, hf⟩
        exact .ok ⟨fun p => .while (hf.spanFrom h.here) (htest p) (hbody _), hf⟩
      | for_ =>
        refine (hnext.name .loopVariable).bind ?_
        rintro ⟨x, a⟩ ⟨x', a'⟩ ⟨hx, ha⟩
        refine (comparison_alike ha.toCursors).bind ?_
        rintro ⟨cmp, f⟩ ⟨cmp', f'⟩ ⟨hcmp, hf⟩
        refine (ih.binary .sum hf.toCursors).bind ?_
        rintro ⟨e₁, g⟩ ⟨d₁, g'⟩ ⟨h₁, hg⟩
        refine (hg.expect .dots .rangeDots).bind fun k k' hk => ?_
        refine (ih.binary .sum hk.toCursors).bind ?_
        rintro ⟨e₂, l⟩ ⟨d₂, l'⟩ ⟨h₂, hl⟩
        refine (ih.block hl.toCursors).bind ?_
        rintro ⟨body, m⟩ ⟨body', m'⟩ ⟨hbody, hm⟩
        exact .ok ⟨fun p => .range (hm.spanFrom h.here) hx hcmp (h₁ p) (h₂ p) (hbody _), hm⟩
      | break_ =>
        refine (hnext.expect .semicolon .afterBreak).bind fun a a' ha => ?_
        exact .ok ⟨fun p => .break (ha.spanFrom h.here) False.elim, ha⟩
      | continue_ =>
        refine (hnext.expect .semicolon .afterContinue).bind fun a a' ha => ?_
        exact .ok ⟨fun p => .continue (ha.spanFrom h.here) False.elim, ha⟩
      | return_ =>
        dsimp only
        rw [← hnext.atSymbol_eq]
        split
        · rename_i hsemi
          have hd := hnext.advance_symbol hsemi
          exact .ok ⟨fun p => .return (hd.spanFrom h.here) False.elim .none, hd⟩
        · refine (ih.expression hnext).bind ?_
          rintro ⟨e, a⟩ ⟨e', a'⟩ ⟨he, ha⟩
          refine (ha.expect .semicolon .afterReturn).bind fun f f' hf => ?_
          exact .ok ⟨fun p => .return (hf.spanFrom h.here) False.elim (.some (he p)), hf⟩
      | fn_ =>
        cases hts with
        | nil => exact hexpr
        | @cons t u ts us ht hts =>
          obtain ⟨v, span⟩ := t
          obtain ⟨w, span'⟩ := u
          cases ht.val
          cases v with
          | name x =>
            refine (parameters_alike hnext.advance_any).bind ?_
            rintro ⟨xs, a⟩ ⟨ys, a'⟩ ⟨hxs, ha⟩
            refine (ih.block ha.toCursors).bind ?_
            rintro ⟨body, f⟩ ⟨body', f'⟩ ⟨hbody, hf⟩
            have hs := hf.spanFrom h.here
            exact .ok ⟨fun p => .expr hs (.assign hs (fun hp => hp.elim)
              (.function hs hxs (hbody _))), hf⟩
          | _ => exact hexpr
      | _ => exact hexpr
    | _ => exact hexpr

theorem primary_step (h : O.Cursors c d) :
    O.Reads O.Exprs (Parser.primary (fuel + 1) c) (Parser.primary (fuel + 1) d) := by
  have hnext := h.advance_any
  rw [Parser.primary, Parser.primary, ← h.peek_eq]
  cases hv : c.peek with
  | none => exact h.fail .expression
  | some v =>
    have hpassed := h.advance hv
    have hs := hpassed.spanFrom h.here
    cases v with
    | number x => exact .ok ⟨fun p => .number hs, hpassed⟩
    | text s => exact .ok ⟨fun p => .text hs, hpassed⟩
    | name x => exact .ok ⟨fun p => .name hs (fun hp => hp.elim), hpassed⟩
    | keyword k =>
      cases k with
      | true_ => exact .ok ⟨fun p => .bool hs, hpassed⟩
      | false_ => exact .ok ⟨fun p => .bool hs, hpassed⟩
      | nil_ => exact .ok ⟨fun p => .nil hs, hpassed⟩
      | global_ =>
        refine (hnext.name .globalName).bind ?_
        rintro ⟨x, a⟩ ⟨x', a'⟩ ⟨hx, ha⟩
        refine .ok ⟨fun p => ?_, ha⟩
        dsimp only at hx ⊢
        rw [hx.val]
        exact .name (ha.spanFrom h.here) (fun hp => hp.elim)
      | fn_ =>
        refine (parameters_alike hnext).bind ?_
        rintro ⟨xs, a⟩ ⟨ys, a'⟩ ⟨hxs, ha⟩
        refine (ih.block ha.toCursors).bind ?_
        rintro ⟨body, f⟩ ⟨body', f'⟩ ⟨hbody, hf⟩
        exact .ok ⟨fun p => .function (hf.spanFrom h.here) hxs (hbody _), hf⟩
      | _ => exact h.fail .expression
    | symbol s =>
      cases s with
      | openParen =>
        refine (ih.expression hnext).bind ?_
        rintro ⟨e, a⟩ ⟨e', a'⟩ ⟨he, ha⟩
        refine (ha.expect .closeParen .groupEnd).bind fun f f' hf => ?_
        exact .ok ⟨fun p => .group (hf.spanFrom h.here) (he p), hf⟩
      | openBracket =>
        refine (ih.arguments .closeBracket .arrayEnd hnext).bind ?_
        rintro ⟨es, a⟩ ⟨es', a'⟩ ⟨hes, ha⟩
        exact .ok ⟨fun p => .array (ha.spanFrom h.here) (hes p), ha⟩
      | _ => exact h.fail .expression

end AlikeAt

theorem readers_alike (O : Layout) (fuel : Nat) : O.AlikeAt fuel := by
  induction fuel with
  | zero =>
    exact {
      statements := fun _ _ _ h => h.fail .expression
      block := fun h => h.fail .expression
      statement := fun h => h.fail .expression
      condStatement := fun h => h.fail .expression
      expression := fun h => h.fail .expression
      conditional := fun h => h.fail .expression
      binary := fun _ _ _ h => h.fail .expression
      operand := fun _ _ _ h => h.fail .expression
      binaryTail := fun _ _ _ _ _ _ h => h.fail .expression
      unary := fun h => h.fail .expression
      postfixTail := fun _ h => h.fail .expression
      subscript := fun _ h => h.fail .expression
      sliceStop := fun h => h.fail .expression
      arguments := fun _ _ _ _ h => h.fail .expression
      expressions := fun h => h.fail .expression
      primary := fun h => h.fail .expression }
  | succ fuel ih =>
    exact {
      statements := fun nested => ih.statements_step nested
      block := ih.block_step
      statement := ih.statement_step
      condStatement := ih.condStatement_step
      expression := ih.expression_step
      conditional := ih.conditional_step
      binary := fun level => ih.binary_step level
      operand := fun level => ih.operand_step level
      binaryTail := fun level => ih.binaryTail_step level
      unary := ih.unary_step
      postfixTail := ih.postfixTail_step
      subscript := ih.subscript_step
      sliceStop := ih.sliceStop_step
      arguments := fun close what => ih.arguments_step close what
      expressions := ih.expressions_step
      primary := ih.primary_step }

theorem ofTokens_alike {size size' : Nat} {ts us : List (Located Token)}
    (hsize : O.Offsets size size') (h : O.Tokens ts us) :
    O.Readings (fun p q => O.Blocks p.body q.body) (Program.ofTokens size ts)
      (Program.ofTokens size' us) := by
  rw [Program.ofTokens, Program.ofTokens, h.length_eq]
  exact ((readers_alike O _).statements false ⟨hsize, h⟩).bind fun _ _ hb => .ok hb.1

end Layout
end Scriptlet
