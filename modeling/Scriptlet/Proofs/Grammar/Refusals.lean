import Scriptlet.Proofs.Grammar.Extents
import Scriptlet.Proofs.Grammar.Soundness

/-!
Where tokens are refused.

A reader that refuses its tokens names the token that it does not expect, the end of the source if
there is no token left, or the left side of an assignment that cannot be assigned to. In each case the
place is made of tokens that the reader has been given (`ParseError.At`), and this stays true for the
reader that it was called by, which has been given more of them (`Cursor.Handles.bind`). As the
readers call each other with less fuel, the proof is by induction on the fuel: `HandlesAt` collects
what is known of all readers, and `Program.ofTokens_eq_error` is what remains for a program.
-/
namespace Scriptlet

/-! ### Readings that keep to their tokens -/

/-- The error is at these tokens of a source of `size` bytes, or at its end. -/
inductive ParseError.At (size : Nat) (ts : List (Located Token)) : ParseError → Prop
  | found {t : Located Token} (what : Expectation) (ht : t ∈ ts) :
    At size ts ⟨.expected what (some t.val), t.span⟩
  | ended (what : Expectation) : At size ts ⟨.expected what none, ⟨size, size⟩⟩
  | target {ws : List (Located Token)} {e : Expr Unit} (he : Derives (.expr .conditional) ws e)
    (hws : Stretch ts ws) : At size ts ⟨.invalidTarget, e.span⟩

/-- An error at some of the tokens is one at all of them. -/
theorem ParseError.At.append {size : Nat} {us : List (Located Token)} {e : ParseError}
    (h : e.At size us) (ts : List (Located Token)) : e.At size (ts ++ us) := by
  cases h with
  | found what ht => exact .found what (List.mem_append_right ts ht)
  | ended what => exact .ended what
  | target he hws => exact .target he (hws.trans (List.suffix_append ts us).isInfix)

namespace Cursor

variable {α β : Type} {c d : Cursor}

theorem Reads.size_eq {ts : List (Located Token)} (h : c.Reads ts d) : d.size = c.size := by
  induction ts generalizing c with
  | nil => rw [reads_nil.mp h]
  | cons t ts ih => rw [ih h.2, size_advance]

/-- The reading ends behind tokens of the cursor, or is refused at some of them. -/
inductive Handles (after : α → Cursor) (c : Cursor) : Reading α → Prop
  | ok {a : α} {ts : List (Located Token)} (h : c.Reads ts (after a)) : Handles after c (.ok a)
  | refused {e : ParseError} (h : e.At c.size c.rest) : Handles after c (.error e)

namespace Handles

variable {after : α → Cursor}

/-- What is read behind a cursor is read behind every cursor before it. -/
theorem of_reads {ts : List (Located Token)} (hread : c.Reads ts d) {x : Reading α}
    (h : d.Handles after x) : c.Handles after x := by
  cases h with
  | ok h => exact .ok (hread.trans h)
  | refused h =>
    rw [hread.size_eq] at h
    refine .refused ?_
    rw [hread.rest_eq]
    exact h.append ts

/-- What follows may look back at the tokens that have been read. -/
theorem bind_reads {after' : β → Cursor} {x : Reading α} {f : α → Reading β}
    (hx : c.Handles after x)
    (hf : ∀ a ts, x = .ok a → c.Reads ts (after a) → c.Handles after' (f a)) :
    c.Handles after' (x >>= f) := by
  cases hx with
  | ok h => exact hf _ _ rfl h
  | refused h => exact .refused h

theorem bind {after' : β → Cursor} {x : Reading α} {f : α → Reading β} (hx : c.Handles after x)
    (hf : ∀ a, (after a).Handles after' (f a)) : c.Handles after' (x >>= f) :=
  hx.bind_reads fun a _ _ h => of_reads h (hf a)

theorem here {a : α} (h : after a = c) : c.Handles after (.ok a) :=
  .ok (reads_nil.mpr h)

theorem fail (what : Expectation) : c.Handles after (c.fail what) := by
  refine .refused ?_
  obtain ⟨size, last, rest⟩ := c
  cases rest with
  | nil => exact .ended what
  | cons t rest => exact .found what List.mem_cons_self

/-- At the end of the tokens a cursor stays where it is. -/
theorem advance {x : Reading α} (h : c.advance.Handles after x) : c.Handles after x := by
  cases hhead : c.rest.head? with
  | some t =>
    have hread : c.Reads [t] c.advance := ⟨hhead, rfl⟩
    exact of_reads hread h
  | none =>
    have hstay : c.advance = c := by
      rw [Cursor.advance, List.head?_eq_none_iff.mp hhead]
    rwa [hstay] at h

theorem expect (s : Symbol) (what : Expectation) : c.Handles id (c.expect s what) := by
  rw [Cursor.expect]
  split
  · exact advance (here rfl)
  · exact fail what

theorem name (what : Expectation) : c.Handles Prod.snd (c.name what) := by
  rw [Cursor.name]
  split
  · exact advance (here rfl)
  · exact fail what

end Handles
end Cursor

/-! ### Readers -/

namespace Parser

open Cursor

theorem names_handles (size : Nat) (previous : Span) (rest : List (Located Token)) :
    Handles Prod.snd ⟨size, previous, rest⟩ (names size previous rest) := by
  fun_induction names size previous rest with
  | case1 previous x p q rest ih =>
    have hread : Reads ⟨size, previous, ⟨.name x, p⟩ :: ⟨.symbol .comma, q⟩ :: rest⟩
        [⟨.name x, p⟩, ⟨.symbol .comma, q⟩] ⟨size, q, rest⟩ := ⟨rfl, rfl, rfl⟩
    refine .of_reads hread (ih.bind ?_)
    rintro ⟨xs, d⟩
    exact .here rfl
  | case2 previous x p rest _ =>
    have hread : Reads ⟨size, previous, ⟨.name x, p⟩ :: rest⟩ [⟨.name x, p⟩] ⟨size, p, rest⟩ :=
      ⟨rfl, rfl⟩
    exact .ok hread
  | case3 => exact .fail _

theorem parameters_handles (c : Cursor) : c.Handles Prod.snd (parameters c) := by
  refine (Handles.expect .openParen .parametersStart).bind fun b => ?_
  dsimp only [id]
  split
  · exact .advance (.here rfl)
  · refine (names_handles b.size b.previous b.rest).bind ?_
    rintro ⟨xs, a⟩
    exact (Handles.expect .closeParen .parametersEnd).bind fun d => .here rfl

theorem comparison_handles (c : Cursor) : c.Handles Prod.snd (comparison c) := by
  rw [comparison]
  split
  · exact .advance (.here rfl)
  · exact .fail _

/-- The readers keep to their tokens with this fuel. -/
structure HandlesAt (fuel : Nat) : Prop where
  statements (nested : Bool) (c : Cursor) : c.Handles Prod.snd (statements nested fuel c)
  block (c : Cursor) : c.Handles Prod.snd (block fuel c)
  statement (c : Cursor) : c.Handles Prod.snd (statement fuel c)
  condStatement (c : Cursor) : c.Handles Prod.snd (condStatement fuel c)
  expression (c : Cursor) : c.Handles Prod.snd (expression fuel c)
  conditional (c : Cursor) : c.Handles Prod.snd (conditional fuel c)
  binary (level : Level) (c : Cursor) : c.Handles Prod.snd (binary level fuel c)
  operand (level : Level) (c : Cursor) : c.Handles Prod.snd (operand level fuel c)
  binaryTail (level : Level) (left : Expr Unit) (c : Cursor) :
    c.Handles Prod.snd (binaryTail level fuel left c)
  unary (c : Cursor) : c.Handles Prod.snd (unary fuel c)
  postfixTail (e : Expr Unit) (c : Cursor) : c.Handles Prod.snd (postfixTail fuel e c)
  subscript (target : Expr Unit) (c : Cursor) : c.Handles Prod.snd (subscript fuel target c)
  sliceStop (c : Cursor) : c.Handles Prod.snd (sliceStop fuel c)
  arguments (close : Symbol) (what : Expectation) (c : Cursor) :
    c.Handles Prod.snd (arguments close what fuel c)
  expressions (c : Cursor) : c.Handles Prod.snd (expressions fuel c)
  primary (c : Cursor) : c.Handles Prod.snd (primary fuel c)

namespace HandlesAt

variable {fuel : Nat} (ih : HandlesAt fuel) (c : Cursor)
include ih

/-! ### Statements -/

theorem statements_step (nested : Bool) :
    c.Handles Prod.snd (Parser.statements nested (fuel + 1) c) := by
  rw [Parser.statements]
  split
  · exact .here rfl
  · refine (ih.statement c).bind ?_
    rintro ⟨s, b⟩
    refine (ih.statements nested b).bind ?_
    rintro ⟨ss, d⟩
    exact .here rfl

theorem block_step : c.Handles Prod.snd (Parser.block (fuel + 1) c) := by
  refine (Handles.expect .openBrace .blockStart).bind fun b => ?_
  refine (ih.statements true b).bind ?_
  rintro ⟨body, a⟩
  exact (Handles.expect .closeBrace .blockEnd).bind fun d => .here rfl

theorem condStatement_step : c.Handles Prod.snd (Parser.condStatement (fuel + 1) c) := by
  refine .advance ((ih.expression c.advance).bind ?_)
  rintro ⟨test, b⟩
  refine (ih.block b).bind ?_
  rintro ⟨yes, a⟩
  dsimp only
  split
  · split
    · refine .advance ((ih.condStatement a.advance).bind ?_)
      rintro ⟨no, d⟩
      exact .here rfl
    · refine .advance ((ih.block a.advance).bind ?_)
      rintro ⟨no, d⟩
      exact .here rfl
  · exact .here rfl

theorem statement_step : c.Handles Prod.snd (Parser.statement (fuel + 1) c) := by
  rw [Parser.statement]
  split
  · exact ih.condStatement c
  · refine .advance ((ih.expression c.advance).bind ?_)
    rintro ⟨test, b⟩
    refine (ih.block b).bind ?_
    rintro ⟨body, d⟩
    exact .here rfl
  · refine .advance ((Handles.name .loopVariable).bind ?_)
    rintro ⟨x, a₁⟩
    refine (comparison_handles a₁).bind ?_
    rintro ⟨cmp, a₂⟩
    refine (ih.binary .sum a₂).bind ?_
    rintro ⟨first, a₃⟩
    refine (Handles.expect .dots .rangeDots).bind fun a₄ => ?_
    refine (ih.binary .sum a₄).bind ?_
    rintro ⟨last, a₅⟩
    refine (ih.block a₅).bind ?_
    rintro ⟨body, d⟩
    exact .here rfl
  · refine .advance (.advance ((parameters_handles c.advance.advance).bind ?_))
    rintro ⟨params, b⟩
    refine (ih.block b).bind ?_
    rintro ⟨body, d⟩
    exact .here rfl
  · exact .advance ((Handles.expect .semicolon .afterBreak).bind fun d => .here rfl)
  · exact .advance ((Handles.expect .semicolon .afterContinue).bind fun d => .here rfl)
  · split
    · exact .advance (.advance (.here rfl))
    · refine .advance ((ih.expression c.advance).bind ?_)
      rintro ⟨value, b⟩
      exact (Handles.expect .semicolon .afterReturn).bind fun d => .here rfl
  · refine (ih.block c).bind ?_
    rintro ⟨body, d⟩
    exact .here rfl
  · refine (ih.expression c).bind ?_
    rintro ⟨e, b⟩
    exact (Handles.expect .semicolon .afterExpression).bind fun d => .here rfl

/-! ### Expressions -/

theorem expression_step : c.Handles Prod.snd (Parser.expression (fuel + 1) c) := by
  refine (ih.conditional c).bind_reads ?_
  rintro ⟨target, d⟩ - htarget -
  obtain ⟨ts, hts, hderives⟩ := (readers_sound fuel).conditional htarget
  dsimp only
  split
  · exact .ok hts
  · have hvalue : c.Handles Prod.snd (Parser.expression fuel d.advance) :=
      .of_reads hts (.advance (ih.expression d.advance))
    refine hvalue.bind_reads ?_
    rintro ⟨value, a⟩ us - hus
    dsimp only
    split
    · exact .ok hus
    · -- the target is refused, and with it the tokens that were read first
      refine .refused (.target hderives ?_)
      rw [hts.rest_eq]
      exact (List.prefix_append ts d.rest).isInfix

theorem conditional_step : c.Handles Prod.snd (Parser.conditional (fuel + 1) c) := by
  refine (ih.binary .or c).bind ?_
  rintro ⟨test, b⟩
  dsimp only
  split
  · refine .advance ((ih.expression b.advance).bind ?_)
    rintro ⟨yes, a⟩
    refine (Handles.expect .colon .conditionalColon).bind fun a' => ?_
    refine (ih.conditional a').bind ?_
    rintro ⟨no, d⟩
    exact .here rfl
  · exact .here rfl

theorem binary_step (level : Level) : c.Handles Prod.snd (Parser.binary level (fuel + 1) c) := by
  refine (ih.operand level c).bind ?_
  rintro ⟨left, d⟩
  exact ih.binaryTail level left d

theorem operand_step (level : Level) : c.Handles Prod.snd (Parser.operand level (fuel + 1) c) := by
  cases level with
  | product => exact ih.unary c
  | _ => exact ih.binary _ c

theorem binaryTail_step (level : Level) (left : Expr Unit) :
    c.Handles Prod.snd (Parser.binaryTail level (fuel + 1) left c) := by
  rw [Parser.binaryTail]
  split
  · exact .here rfl
  · refine .advance ((ih.operand level c.advance).bind ?_)
    rintro ⟨right, a⟩
    exact ih.binaryTail level _ a

theorem unary_step : c.Handles Prod.snd (Parser.unary (fuel + 1) c) := by
  rw [Parser.unary]
  split
  · refine (ih.primary c).bind ?_
    rintro ⟨e, d⟩
    exact ih.postfixTail e d
  · refine .advance ((ih.unary c.advance).bind ?_)
    rintro ⟨e, d⟩
    exact .here rfl

theorem postfixTail_step (e : Expr Unit) :
    c.Handles Prod.snd (Parser.postfixTail (fuel + 1) e c) := by
  rw [Parser.postfixTail]
  split
  · refine .advance ((ih.arguments .closeParen .argumentsEnd c.advance).bind ?_)
    rintro ⟨args, a⟩
    exact ih.postfixTail _ a
  split
  · refine .advance ((ih.subscript e c.advance).bind ?_)
    rintro ⟨e, a⟩
    exact ih.postfixTail e a
  · exact .here rfl

theorem subscript_step (target : Expr Unit) :
    c.Handles Prod.snd (Parser.subscript (fuel + 1) target c) := by
  rw [Parser.subscript]
  split
  · exact .fail _
  split
  · refine .advance ((ih.sliceStop c.advance).bind ?_)
    rintro ⟨stop, a⟩
    exact .here rfl
  · refine (ih.expression c).bind ?_
    rintro ⟨start, b⟩
    dsimp only
    split
    · refine .advance ((ih.sliceStop b.advance).bind ?_)
      rintro ⟨stop, a⟩
      exact .here rfl
    · exact (Handles.expect .closeBracket .subscriptEnd).bind fun a => .here rfl

theorem sliceStop_step : c.Handles Prod.snd (Parser.sliceStop (fuel + 1) c) := by
  rw [Parser.sliceStop]
  split
  · exact .advance (.here rfl)
  · refine (ih.expression c).bind ?_
    rintro ⟨stop, b⟩
    exact (Handles.expect .closeBracket .subscriptEnd).bind fun d => .here rfl

theorem arguments_step (close : Symbol) (what : Expectation) :
    c.Handles Prod.snd (Parser.arguments close what (fuel + 1) c) := by
  rw [Parser.arguments]
  split
  · exact .advance (.here rfl)
  · refine (ih.expressions c).bind ?_
    rintro ⟨es, b⟩
    exact (Handles.expect close what).bind fun d => .here rfl

theorem expressions_step : c.Handles Prod.snd (Parser.expressions (fuel + 1) c) := by
  refine (ih.expression c).bind ?_
  rintro ⟨e, b⟩
  dsimp only
  split
  · refine .advance ((ih.expressions b.advance).bind ?_)
    rintro ⟨es, d⟩
    exact .here rfl
  · exact .here rfl

theorem primary_step : c.Handles Prod.snd (Parser.primary (fuel + 1) c) := by
  rw [Parser.primary]
  split
  case h_7 =>
    refine .advance ((Handles.name .globalName).bind ?_)
    rintro ⟨x, d⟩
    exact .here rfl
  case h_8 =>
    refine .advance ((ih.expression c.advance).bind ?_)
    rintro ⟨e, b⟩
    exact (Handles.expect .closeParen .groupEnd).bind fun d => .here rfl
  case h_9 =>
    refine .advance ((ih.arguments .closeBracket .arrayEnd c.advance).bind ?_)
    rintro ⟨items, d⟩
    exact .here rfl
  case h_10 =>
    refine .advance ((parameters_handles c.advance).bind ?_)
    rintro ⟨params, b⟩
    refine (ih.block b).bind ?_
    rintro ⟨body, d⟩
    exact .here rfl
  case h_11 => exact .fail _
  -- what is left are the tokens that are expressions by themselves
  all_goals exact .advance (.here rfl)

end HandlesAt

/-- **Readers refuse at their tokens**, with any fuel. -/
theorem readers_handle (fuel : Nat) : HandlesAt fuel := by
  induction fuel with
  | zero => constructor <;> intros <;> exact .fail _
  | succ fuel ih =>
    exact {
      statements := fun nested c => ih.statements_step c nested
      block := ih.block_step
      statement := ih.statement_step
      condStatement := ih.condStatement_step
      expression := ih.expression_step
      conditional := ih.conditional_step
      binary := fun level c => ih.binary_step c level
      operand := fun level c => ih.operand_step c level
      binaryTail := fun level left c => ih.binaryTail_step c level left
      unary := ih.unary_step
      postfixTail := fun e c => ih.postfixTail_step c e
      subscript := fun target c => ih.subscript_step c target
      sliceStop := ih.sliceStop_step
      arguments := fun close what c => ih.arguments_step c close what
      expressions := ih.expressions_step
      primary := ih.primary_step }

end Parser

/-- Tokens that are no program are refused at some of them, or at the end of the source. -/
theorem Program.ofTokens_eq_error {size : Nat} {ts : List (Located Token)} {e : ParseError}
    (h : Program.ofTokens size ts = .error e) : e.At size ts := by
  have hread : Cursor.Handles (fun _ : Program => ⟨size, ⟨0, 0⟩, ts⟩) ⟨size, ⟨0, 0⟩, ts⟩
      (Program.ofTokens size ts) :=
    ((Parser.readers_handle _).statements false ⟨size, ⟨0, 0⟩, ts⟩).bind_reads fun _ _ _ _ => .here rfl
  rw [h] at hread
  cases hread with
  | refused h => exact h

end Scriptlet
