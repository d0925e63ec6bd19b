import Scriptlet.Proofs.Grammar.Reading

/-!
Where expressions end, and how chains of them are read.

A derivation says where each phrase ends, a reader has to find that out from the token behind it. In
`Phrase.Read`, each sort of phrase is given the condition on that token under which its reader stops
there: the tokens that could go on with an expression are ranked by how tightly they bind
(`Token.rank`), and an expression of some form ends before a token of a lower rank (`Cursor.Stops`).
It is also given the fuel that suffices. Every rule of the grammar has a lemma that its phrase is
read if its parts are; here are those for expressions down to calls and subscripts.

The readers of chains are loops, and what is left of such a chain cannot be read on its own. Hence a
chain is read when its reader arrives at the loop, behind the tokens of the chain, with the tree of
the chain and enough fuel to go on.
-/
namespace Scriptlet

/-! ### The token behind an expression -/

/-- How tightly a token binds that can go on with an expression. -/
def Token.rank : Token → Nat
  | .symbol .assign | .symbol .define => 1
  | .symbol .question => 2
  | .keyword .or_ => 3
  | .keyword .and_ => 4
  | .symbol .equal | .symbol .notEqual => 5
  | .symbol .less | .symbol .lessEqual | .symbol .greater | .symbol .greaterEqual => 6
  | .symbol .plus | .symbol .minus => 7
  | .symbol .star | .symbol .slash | .symbol .percent => 8
  | .symbol .openParen | .symbol .openBracket => 9
  | _ => 0

def Level.rank : Level → Nat
  | or => 3 | and => 4 | equality => 5 | comparison => 6 | sum => 7 | product => 8

theorem Level.rank_le (level : Level) : level.rank ≤ 8 := by
  cases level <;> decide

theorem Level.rank_of_operator? {level : Level} {t : Token} {op : BinaryOp}
    (h : level.operator? t = some op) : t.rank = level.rank := by
  unfold Level.operator? at h
  split at h <;> first | rfl | cases h

theorem Token.rank_of_assigns? {t : Token} {constant : Bool} (h : t.assigns? = some constant) :
    t.rank = 1 := by
  unfold Token.assigns? at h
  split at h <;> first | rfl | cases h

namespace Cursor

/-- The next token does not go on with an expression of rank `k`. -/
def Stops (k : Nat) (c : Cursor) : Prop :=
  ∀ t ∈ c.rest.head?, t.val.rank < k

variable {c d : Cursor} {k l : Nat} {v : Token} {p : Span}

theorem stops_of_head (h : c.rest.head? = some ⟨v, p⟩) (hv : v.rank < k) : c.Stops k := by
  intro u hu
  rw [h] at hu
  cases hu
  exact hv

theorem not_atSymbol_of_head (s : Symbol) (h : c.rest.head? = some ⟨v, p⟩) (hv : v ≠ .symbol s) :
    ¬ c.atSymbol s = true := by
  intro hc
  obtain ⟨q, hq⟩ := atSymbol_iff.mp hc
  rw [h] at hq
  cases hq
  exact hv rfl

theorem Stops.mono (h : c.Stops k) (hkl : k ≤ l) : c.Stops l :=
  fun t ht => Nat.lt_of_lt_of_le (h t ht) hkl

theorem Stops.not_atSymbol {s : Symbol} (h : c.Stops k) (hs : k ≤ (Token.symbol s).rank) :
    ¬ c.atSymbol s = true := by
  intro hc
  obtain ⟨p, hp⟩ := atSymbol_iff.mp hc
  exact absurd (h _ hp) (Nat.not_lt.mpr hs)

theorem Stops.operator?_eq_none {level : Level} (h : c.Stops level.rank) :
    c.peek.bind level.operator? = none := by
  rw [Option.bind_eq_none_iff]
  intro v hv
  obtain ⟨t, ht, rfl⟩ := Option.map_eq_some_iff.mp hv
  cases hop : level.operator? t.val with
  | none => rfl
  | some op => exact absurd (h t ht) (by rw [Level.rank_of_operator? hop]; exact Nat.lt_irrefl _)

theorem Stops.assigns?_eq_none (h : c.Stops 1) : c.peek.bind Token.assigns? = none := by
  rw [Option.bind_eq_none_iff]
  intro v hv
  obtain ⟨t, ht, rfl⟩ := Option.map_eq_some_iff.mp hv
  cases hop : t.val.assigns? with
  | none => rfl
  | some constant => exact absurd (h t ht) (by rw [Token.rank_of_assigns? hop]; exact Nat.lt_irrefl _)

end Cursor

/-! ### The first token of an expression -/

section

variable {c : Cursor}

theorem OpensExpr.not_atSymbol (h : OpensExpr c.rest) {s : Symbol}
    (hp : (Token.symbol s).opensPrimary = false) (hu : UnaryOp.ofToken? (.symbol s) = none) :
    ¬ c.atSymbol s = true := by
  intro hc
  obtain ⟨p, hc⟩ := Cursor.atSymbol_iff.mp hc
  rw [Cursor.rest_eq_cons hc] at h
  cases h with
  | primary h =>
    cases h with
    | token h => rw [hp] at h; cases h
  | operator h => rw [hu] at h; cases h

/-- Tokens that begin as an expression are read as an expression statement. -/
theorem OpensExpr.statement_eq (h : OpensExpr c.rest) (fuel : Nat) :
    Parser.statement (fuel + 1) c = do
      let (e, d) ← Parser.expression fuel c
      let d ← d.expect .semicolon .afterExpression
      return (.expr (d.spanFrom c.here) e, d) := by
  rw [Parser.statement]
  split
  case h_9 => rfl
  all_goals
    rename_i hc
    rw [hc] at h
    rcases h with (h | _) | h <;> cases h

theorem OpensPrimary.unary_eq (h : OpensPrimary c.rest) (fuel : Nat) :
    Parser.unary (fuel + 1) c =
      Parser.primary fuel c >>= fun (e, d) => Parser.postfixTail fuel e d := by
  have hnone : c.peek.bind UnaryOp.ofToken? = none := by
    rw [Cursor.peek]
    generalize c.rest = ts at h
    cases h with
    | @token t ts h =>
      obtain ⟨v, p⟩ := t
      show UnaryOp.ofToken? v = none
      unfold Token.opensPrimary at h
      dsimp only at h
      split at h <;> first | rfl | cases h
    | function => rfl
  rw [Parser.unary, hnone]

end

/-! ### What is read -/

/-- With fuel for `height` calls besides those that its tokens pay for, the reader reads the tokens
before any cursor that satisfies the condition. -/
def Accepts {α : Type} (read : Nat → Cursor → Reading (α × Cursor)) (height : Nat)
    (follow : Cursor → Prop) (ts : List (Located Token)) (a : α) : Prop :=
  ∀ fuel c d, c.Reads ts d → follow d → 32 * ts.length + height ≤ fuel → read fuel c = .ok (a, d)

/-- The reader of expressions of each form reads the tokens. The last two forms are chains: their
readers arrive at their loops. -/
def Form.Read (ts : List (Located Token)) (e : Expr Unit) : Form → Prop
  | .expression => Accepts Parser.expression 16 (·.Stops 1) ts e
  | .conditional => Accepts Parser.conditional 15 (·.Stops 2) ts e
  | .unary => Accepts Parser.unary 2 (·.Stops 9) ts e
  | .primary => Accepts Parser.primary 0 (fun _ => True) ts e
  | .chain level => ∀ fuel c d, c.Reads ts d → d.Stops (level.rank + 1) →
    32 * ts.length + (20 - 2 * level.rank) ≤ fuel →
    ∃ left, fuel ≤ left + ts.length + 1 ∧
      Parser.binary level fuel c = Parser.binaryTail level left e d
  | .suffixed => ∀ fuel c d, c.Reads ts d → 32 * ts.length ≤ fuel →
    ∃ left, fuel ≤ left + ts.length ∧
      (Parser.primary fuel c >>= fun (e, d) => Parser.postfixTail fuel e d) =
        Parser.postfixTail left e d

/-- The reader of each sort of phrase reads the tokens. -/
def Phrase.Read (ts : List (Located Token)) : (n : Phrase) → n.Tree → Prop
  | .statements, ss => ∀ nested, Accepts (Parser.statements nested) 19
    (fun d => d.rest = [] ∨ nested = true ∧ d.atSymbol .closeBrace = true) ts ss
  | .statement, s => Accepts Parser.statement 18 (fun d => ¬ d.atKeyword .else_ = true) ts s
  | .condStatement, s => Accepts Parser.condStatement 17 (fun d => ¬ d.atKeyword .else_ = true) ts s
  | .block, ss => Accepts Parser.block 0 (fun _ => True) ts ss
  | .parameters, xs => ∀ c d p q,
    Cursor.Reads c (⟨.symbol .openParen, p⟩ :: (ts ++ [⟨.symbol .closeParen, q⟩])) d →
    Parser.parameters c = .ok (xs, d)
  | .names, xs => ∀ c d, Cursor.Reads c ts d → ¬ d.atSymbol .comma = true →
    Parser.names c.size c.previous c.rest = .ok (xs, d)
  | .reference, (global, x) => Accepts Parser.primary 0 (fun _ => True) ts (.name (.across ts) global x)
  | .expr form, e => form.Read ts e
  | .optional, none => ts = []
  | .optional, some e => OpensExpr ts ∧ Accepts Parser.expression 16 (·.Stops 1) ts e
  | .arguments, es => ∀ close what q, (close = .closeParen ∨ close = .closeBracket) →
    ∀ fuel c d, Cursor.Reads c (ts ++ [⟨.symbol close, q⟩]) d → 32 * ts.length + 18 ≤ fuel →
      Parser.arguments close what fuel c = .ok (es, d)
  | .expressions, es => Accepts Parser.expressions 17
    (fun d => d.Stops 1 ∧ ¬ d.atSymbol .comma = true) ts es

namespace Parser

open Cursor

variable {ts us vs ws : List (Located Token)} {e e₁ e₂ : Expr Unit}

/-! ### Chains -/

/-- A chain ends before a token of a lower rank. -/
theorem accepts_binary {level : Level} (h : (Form.chain level).Read ts e) :
    Accepts (binary level) (20 - 2 * level.rank) (·.Stops level.rank) ts e := by
  intro fuel c d hts hstop hfuel
  have hrank := level.rank_le
  obtain ⟨left, hleft, heq⟩ := h fuel c d hts (hstop.mono (Nat.le_succ _)) hfuel
  obtain ⟨k, rfl⟩ := Nat.exists_eq_add_one.mpr (show 0 < left by omega)
  rw [heq, binaryTail, hstop.operator?_eq_none]

theorem accepts_operand {level : Level} (h : level.operands.Read ts e) :
    Accepts (operand level) (19 - 2 * level.rank) (·.Stops (level.rank + 1)) ts e := by
  intro fuel c d hts hstop hfuel
  have hrank := level.rank_le
  obtain ⟨k, rfl⟩ := Nat.exists_eq_add_one.mpr (show 0 < fuel by omega)
  cases level with
  | product => exact h k c d hts hstop (by simp only [Level.rank] at hfuel; omega)
  | _ =>
    refine accepts_binary h k c d hts hstop ?_
    simp only [Level.rank] at hfuel ⊢
    omega

theorem read_operand {level : Level} (h : level.operands.Read ts e) : (Form.chain level).Read ts e := by
  intro fuel c d hts hstop hfuel
  have hrank := level.rank_le
  obtain ⟨k, rfl⟩ := Nat.exists_eq_add_one.mpr (show 0 < fuel by omega)
  refine ⟨k, by omega, ?_⟩
  rw [binary, accepts_operand h k c d hts hstop (by omega), Reading.ok_bind]

theorem read_binary {level : Level} {t : Located Token} {op : BinaryOp}
    (hleft : (Form.chain level).Read ts e₁) (hop : level.operator? t.val = some op)
    (hright : level.operands.Read us e₂) :
    (Form.chain level).Read (ts ++ t :: us) (.binary (e₁.span.merge e₂.span) op e₁ e₂) := by
  intro fuel c d hws hstop hfuel
  have hrank := level.rank_le
  rw [List.length_append, List.length_cons] at hfuel ⊢
  obtain ⟨b, hts, ht, hus⟩ := reads_append.mp hws
  have hb : b.Stops (level.rank + 1) :=
    stops_of_head ht (by rw [Level.rank_of_operator? hop]; exact Nat.lt_succ_self _)
  obtain ⟨left, hle, heq⟩ := hleft fuel c b hts hb (by omega)
  obtain ⟨k, rfl⟩ := Nat.exists_eq_add_one.mpr (show 0 < left by omega)
  refine ⟨k, by omega, ?_⟩
  rw [heq, binaryTail, peek_eq ht, Option.bind_some, hop]
  dsimp only
  rw [accepts_operand hright k b.advance d hus hstop (by omega), Reading.ok_bind]

theorem read_primary (h : Form.primary.Read ts e) : Form.suffixed.Read ts e := by
  intro fuel c d hts hfuel
  refine ⟨fuel, by omega, ?_⟩
  rw [h fuel c d hts trivial hfuel, Reading.ok_bind]

theorem read_call {es : List (Expr Unit)} {p q : Span} (hcallee : Form.suffixed.Read ts e)
    (hargs : Phrase.arguments.Read us es)
    (split : ws = ts ++ ⟨.symbol .openParen, p⟩ :: (us ++ [⟨.symbol .closeParen, q⟩])) :
    Form.suffixed.Read ws (.call (e.span.merge q) e es) := by
  intro fuel c d hws hfuel
  have hlen : ws.length = ts.length + us.length + 2 := by rw [split]; simp; omega
  obtain ⟨b, hts, hp, hus⟩ := reads_append.mp (split ▸ hws)
  obtain ⟨left, hle, heq⟩ := hcallee fuel c b hts (by omega)
  obtain ⟨k, rfl⟩ := Nat.exists_eq_add_one.mpr (show 0 < left by omega)
  refine ⟨k, by omega, ?_⟩
  rw [heq, postfixTail, if_pos (atSymbol_iff.mpr ⟨p, hp⟩),
    hargs .closeParen _ q (.inl rfl) k b.advance d hus (by omega), Reading.ok_bind]
  dsimp only
  rw [hus.spanFrom_of_last]

/-- A chain goes on with what its loop reads behind an opening bracket. -/
theorem read_subscript {f : Expr Unit} {p : Span} (htarget : Form.suffixed.Read ts e)
    (hsub : ∀ k b d, Cursor.Reads b us d → 32 * us.length + 18 ≤ k →
      subscript k e b = .ok (f, d)) :
    Form.suffixed.Read (ts ++ ⟨.symbol .openBracket, p⟩ :: us) f := by
  intro fuel c d hws hfuel
  rw [List.length_append, List.length_cons] at hfuel ⊢
  obtain ⟨b, hts, hp, hus⟩ := reads_append.mp hws
  obtain ⟨left, hle, heq⟩ := htarget fuel c b hts (by omega)
  obtain ⟨k, rfl⟩ := Nat.exists_eq_add_one.mpr (show 0 < left by omega)
  refine ⟨k, by omega, ?_⟩
  rw [heq, postfixTail, if_neg (not_atSymbol_of_head .openParen hp nofun), if_pos (atSymbol_iff.mpr ⟨p, hp⟩),
    hsub k b.advance d hus (by omega), Reading.ok_bind]

theorem read_index {i : Expr Unit} {p q : Span} (htarget : Form.suffixed.Read ts e)
    (hopens : OpensExpr us) (hindex : Form.expression.Read us i)
    (split : ws = ts ++ ⟨.symbol .openBracket, p⟩ :: (us ++ [⟨.symbol .closeBracket, q⟩])) :
    Form.suffixed.Read ws (.index (e.span.merge q) e i) := by
  subst split
  refine read_subscript htarget fun k b d hus hk => ?_
  rw [List.length_append, List.length_singleton] at hk
  obtain ⟨k, rfl⟩ := Nat.exists_eq_add_one.mpr (show 0 < k by omega)
  obtain ⟨a, hi, hq⟩ := reads_append.mp hus
  have hopens : OpensExpr b.rest := hus.rest_eq ▸ (hopens.append _).append _
  have hstop : a.Stops 1 := stops_of_head hq.1 (by decide)
  rw [subscript, if_neg (hopens.not_atSymbol rfl rfl), if_neg (hopens.not_atSymbol rfl rfl),
    hindex k _ a hi hstop (by omega), Reading.ok_bind]
  dsimp only
  rw [if_neg (not_atSymbol_of_head .colon hq.1 nofun), expect_eq_ok.mpr ⟨q, hq⟩, Reading.ok_bind,
    hus.spanFrom_of_last]
  rfl

theorem accepts_sliceStop {j : Option (Expr Unit)} {q : Span} (h : Phrase.optional.Read us j)
    {k : Nat} {c d : Cursor} (hus : c.Reads (us ++ [⟨.symbol .closeBracket, q⟩]) d)
    (hk : 32 * us.length + 17 ≤ k) : sliceStop k c = .ok (j, d) := by
  obtain ⟨k, rfl⟩ := Nat.exists_eq_add_one.mpr (show 0 < k by omega)
  rw [sliceStop]
  cases j with
  | none =>
    cases h
    rw [if_pos (atSymbol_iff.mpr ⟨q, hus.1⟩), reads_nil.mp hus.2]
  | some e =>
    obtain ⟨hopens, h⟩ := h
    obtain ⟨a, he, hq⟩ := reads_append.mp hus
    have hopens : OpensExpr c.rest := hus.rest_eq ▸ (hopens.append _).append _
    rw [if_neg (hopens.not_atSymbol rfl rfl), h k c a he (stops_of_head hq.1 (by decide)) (by omega),
      Reading.ok_bind]
    dsimp only
    rw [expect_eq_ok.mpr ⟨q, hq⟩, Reading.ok_bind]
    rfl

theorem read_slice {i j : Option (Expr Unit)} {p q r : Span} (htarget : Form.suffixed.Read ts e)
    (hstart : Phrase.optional.Read us i) (hstop : Phrase.optional.Read vs j)
    (split : ws = ts ++ ⟨.symbol .openBracket, p⟩ :: (us ++ ⟨.symbol .colon, q⟩ ::
      (vs ++ [⟨.symbol .closeBracket, r⟩]))) :
    Form.suffixed.Read ws (.slice (e.span.merge r) e i j) := by
  subst split
  refine read_subscript htarget fun k b d hus hk => ?_
  simp only [List.length_append, List.length_cons, List.length_nil] at hk
  obtain ⟨k, rfl⟩ := Nat.exists_eq_add_one.mpr (show 0 < k by omega)
  rw [subscript]
  cases i with
  | none =>
    cases hstart
    rw [if_neg (not_atSymbol_of_head .closeBracket hus.1 nofun), if_pos (atSymbol_iff.mpr ⟨q, hus.1⟩),
      accepts_sliceStop hstop hus.2 (by simp at hk; omega), Reading.ok_bind]
    dsimp only
    rw [hus.2.spanFrom_of_last]
    rfl
  | some f =>
    obtain ⟨hopens, hstart⟩ := hstart
    obtain ⟨a, hf, hq, hvs⟩ := reads_append.mp hus
    have hopens : OpensExpr b.rest := hus.rest_eq ▸ (hopens.append _).append _
    rw [if_neg (hopens.not_atSymbol rfl rfl), if_neg (hopens.not_atSymbol rfl rfl),
      hstart k _ a hf (stops_of_head hq (by decide)) (by omega), Reading.ok_bind]
    dsimp only
    rw [if_pos (atSymbol_iff.mpr ⟨q, hq⟩), accepts_sliceStop hstop hvs (by omega), Reading.ok_bind]
    dsimp only
    rw [hvs.spanFrom_of_last]
    rfl

/-- A chain of calls and subscripts ends before any other token. -/
theorem read_suffixed (hopens : OpensPrimary ts) (h : Form.suffixed.Read ts e) :
    Form.unary.Read ts e := by
  intro fuel c d hts hstop hfuel
  obtain ⟨k, rfl⟩ := Nat.exists_eq_add_one.mpr (show 0 < fuel by omega)
  have hopens : OpensPrimary c.rest := hts.rest_eq ▸ hopens.append _
  obtain ⟨left, hle, heq⟩ := h k c d hts (by omega)
  obtain ⟨l, rfl⟩ := Nat.exists_eq_add_one.mpr (show 0 < left by omega)
  rw [hopens.unary_eq, heq, postfixTail, if_neg (hstop.not_atSymbol (Nat.le_refl _)),
    if_neg (hstop.not_atSymbol (Nat.le_refl _))]

theorem read_unary {t : Located Token} {op : UnaryOp} (hop : UnaryOp.ofToken? t.val = some op)
    (h : Form.unary.Read ts e) : Form.unary.Read (t :: ts) (.unary (t.span.merge e.span) op e) := by
  intro fuel c d hws hstop hfuel
  rw [List.length_cons] at hfuel
  obtain ⟨k, rfl⟩ := Nat.exists_eq_add_one.mpr (show 0 < fuel by omega)
  rw [unary, peek_eq hws.1, Option.bind_some, hop]
  dsimp only
  rw [h k c.advance d hws.2 hstop (by omega), Reading.ok_bind, here_eq hws.1]
  rfl

/-! ### Expressions -/

theorem read_unconditional (h : (Form.chain .or).Read ts e) : Form.conditional.Read ts e := by
  intro fuel c d hts hstop hfuel
  obtain ⟨k, rfl⟩ := Nat.exists_eq_add_one.mpr (show 0 < fuel by omega)
  rw [conditional, accepts_binary h k c d hts (hstop.mono (by decide))
    (by simp only [Level.rank]; omega), Reading.ok_bind]
  dsimp only
  rw [if_neg (hstop.not_atSymbol (Nat.le_refl _))]
  rfl

theorem read_conditional {p q : Span} (htest : (Form.chain .or).Read ts e)
    (hyes : Form.expression.Read us e₁) (hno : Form.conditional.Read vs e₂)
    (split : ws = ts ++ ⟨.symbol .question, p⟩ :: (us ++ ⟨.symbol .colon, q⟩ :: vs)) :
    Form.conditional.Read ws (.conditional (e.span.merge e₂.span) e e₁ e₂) := by
  intro fuel c d hws hstop hfuel
  have hlen : ws.length = ts.length + us.length + vs.length + 2 := by rw [split]; simp; omega
  obtain ⟨b, hts, hp, h⟩ := reads_append.mp (split ▸ hws)
  obtain ⟨a, hus, hq, hvs⟩ := reads_append.mp h
  obtain ⟨k, rfl⟩ := Nat.exists_eq_add_one.mpr (show 0 < fuel by omega)
  rw [conditional, accepts_binary htest k c b hts (stops_of_head hp (by decide))
    (by simp only [Level.rank]; omega), Reading.ok_bind]
  dsimp only
  rw [if_pos (atSymbol_iff.mpr ⟨p, hp⟩),
    hyes k b.advance a hus (stops_of_head hq (by decide)) (by omega), Reading.ok_bind]
  dsimp only
  rw [expect_eq_ok.mpr ⟨q, hq, rfl⟩, Reading.ok_bind, hno k a.advance d hvs hstop (by omega),
    Reading.ok_bind]
  rfl

theorem read_plain (h : Form.conditional.Read ts e) : Form.expression.Read ts e := by
  intro fuel c d hts hstop hfuel
  obtain ⟨k, rfl⟩ := Nat.exists_eq_add_one.mpr (show 0 < fuel by omega)
  rw [expression, h k c d hts (hstop.mono (by decide)) (by omega), Reading.ok_bind]
  dsimp only
  rw [hstop.assigns?_eq_none]
  rfl

/-- What is read as a target can be read as one side of an assignment. -/
theorem read_assignment {t : Located Token} {constant : Bool} {target value : Expr Unit}
    (htarget : Form.conditional.Read ts target) (hassigns : t.val.assigns? = some constant)
    (hvalue : Form.expression.Read us value)
    (he : target.assignment? (target.span.merge value.span) constant value = some e) :
    Form.expression.Read (ts ++ t :: us) e := by
  intro fuel c d hws hstop hfuel
  rw [List.length_append, List.length_cons] at hfuel
  obtain ⟨b, hts, ht, hus⟩ := reads_append.mp hws
  obtain ⟨k, rfl⟩ := Nat.exists_eq_add_one.mpr (show 0 < fuel by omega)
  have hb : b.Stops 2 := stops_of_head ht (by rw [Token.rank_of_assigns? hassigns]; decide)
  rw [expression, htarget k c b hts hb (by omega), Reading.ok_bind]
  dsimp only
  rw [peek_eq ht, Option.bind_some, hassigns]
  dsimp only
  rw [hvalue k b.advance d hus hstop (by omega), Reading.ok_bind]
  dsimp only
  rw [he]
  rfl

/-- What is read tightly is read loosely. -/
theorem read_conditional_of_suffixed (hopens : OpensPrimary ts) (h : Form.suffixed.Read ts e) :
    Form.conditional.Read ts e := by
  have hproduct : (Form.chain .product).Read ts e := read_operand (read_suffixed hopens h)
  have hcomparison : (Form.chain .comparison).Read ts e := read_operand (read_operand hproduct)
  have hand : (Form.chain .and).Read ts e := read_operand (read_operand hcomparison)
  exact read_unconditional (read_operand hand)

end Parser
end Scriptlet
