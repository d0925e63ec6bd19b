import Scriptlet.Proofs.Grammar.Chains
import Scriptlet.Proofs.Grammar.Soundness

/-!
What is derived is read.

Here are the lemmas for the remaining rules: primary expressions, lists and statements. `Derives.read`
puts all of them together by induction on the derivation. With the converse, that whatever is read is
derived, tokens are a program exactly when the grammar derives them (`Program.ofTokens_eq_ok`), and
the grammar gives them one tree (`parse_iff_derives`).
-/
namespace Scriptlet

namespace Parser

open Cursor

variable {ts us vs ws : List (Located Token)} {e e₁ e₂ : Expr Unit}

/-! ### Primary expressions and lists -/

theorem read_token {v : Token} {p : Span}
    (h : ∀ k c, Cursor.peek c = some v → c.advance.spanFrom c.here = p →
      primary (k + 1) c = .ok (e, c.advance)) :
    Form.primary.Read [⟨v, p⟩] e := by
  intro fuel c d hts _ hfuel
  rw [List.length_singleton] at hfuel
  obtain ⟨k, rfl⟩ := Nat.exists_eq_add_one.mpr (show 0 < fuel by omega)
  obtain rfl := reads_nil.mp hts.2
  exact h k c (peek_eq hts.1) hts.spanFrom_singleton

theorem read_globalName {x : String} {p q : Span} :
    Form.primary.Read [⟨.keyword .global_, p⟩, ⟨.name x, q⟩]
      (.name (.across [⟨.keyword .global_, p⟩, ⟨.name x, q⟩]) true x) := by
  intro fuel c d hts _ hfuel
  simp only [List.length_cons, List.length_nil] at hfuel
  obtain ⟨k, rfl⟩ := Nat.exists_eq_add_one.mpr (show 0 < fuel by omega)
  rw [primary, peek_eq hts.1]
  dsimp only
  rw [name_eq_ok (x := ⟨x, q⟩) |>.mpr hts.2, Reading.ok_bind, ← hts.spanFrom_eq (by simp)]
  rfl

theorem read_group {p q : Span} (h : Form.expression.Read ts e)
    (split : ws = ⟨.symbol .openParen, p⟩ :: (ts ++ [⟨.symbol .closeParen, q⟩])) :
    Form.primary.Read ws (.group (.across ws) e) := by
  intro fuel c d hws _ hfuel
  have hlen : ws.length = ts.length + 2 := by rw [split]; simp
  obtain ⟨hp, hrest⟩ := split ▸ hws
  obtain ⟨b, hts, hq⟩ := reads_append.mp hrest
  obtain ⟨k, rfl⟩ := Nat.exists_eq_add_one.mpr (show 0 < fuel by omega)
  rw [primary, peek_eq hp]
  dsimp only
  rw [h k c.advance b hts (stops_of_head hq.1 (by decide)) (by omega), Reading.ok_bind]
  dsimp only
  rw [expect_eq_ok.mpr ⟨q, hq⟩, Reading.ok_bind, ← hws.spanFrom_eq (by rw [split]; simp)]
  rfl

theorem read_array {es : List (Expr Unit)} {p q : Span} (h : Phrase.arguments.Read ts es)
    (split : ws = ⟨.symbol .openBracket, p⟩ :: (ts ++ [⟨.symbol .closeBracket, q⟩])) :
    Form.primary.Read ws (.array (.across ws) es) := by
  intro fuel c d hws _ hfuel
  have hlen : ws.length = ts.length + 2 := by rw [split]; simp
  obtain ⟨hp, hrest⟩ := split ▸ hws
  obtain ⟨k, rfl⟩ := Nat.exists_eq_add_one.mpr (show 0 < fuel by omega)
  rw [primary, peek_eq hp]
  dsimp only
  rw [h .closeBracket _ q (.inr rfl) k c.advance d hrest (by omega), Reading.ok_bind,
    ← hws.spanFrom_eq (by rw [split]; simp)]
  rfl

theorem read_function {xs : List (Located String)} {ss : Block Unit} {p q r : Span}
    (hparams : Phrase.parameters.Read ts xs) (hbody : Phrase.block.Read us ss)
    (split : ws = ⟨.keyword .fn_, p⟩ :: ⟨.symbol .openParen, q⟩ ::
      (ts ++ ⟨.symbol .closeParen, r⟩ :: us)) :
    Form.primary.Read ws (.function (.across ws) () xs ss) := by
  intro fuel c d hws _ hfuel
  have hlen : ws.length = ts.length + us.length + 3 := by rw [split]; simp; omega
  obtain ⟨hp, hq, hrest⟩ := split ▸ hws
  obtain ⟨b, hts, hr, hus⟩ := reads_append.mp hrest
  obtain ⟨k, rfl⟩ := Nat.exists_eq_add_one.mpr (show 0 < fuel by omega)
  rw [primary, peek_eq hp]
  dsimp only
  rw [hparams c.advance b.advance q r ⟨hq, hts.trans ⟨hr, rfl⟩⟩, Reading.ok_bind]
  dsimp only
  rw [hbody k b.advance d hus trivial (by omega), Reading.ok_bind,
    ← hws.spanFrom_eq (by rw [split]; simp)]
  rfl

theorem read_lastExpr (h : Form.expression.Read ts e) : Phrase.expressions.Read ts [e] := by
  intro fuel c d hts hstop hfuel
  obtain ⟨k, rfl⟩ := Nat.exists_eq_add_one.mpr (show 0 < fuel by omega)
  rw [expressions, h k c d hts hstop.1 (by omega), Reading.ok_bind]
  dsimp only
  rw [if_neg hstop.2]
  rfl

theorem read_nextExpr {es : List (Expr Unit)} {p : Span} (h : Form.expression.Read ts e)
    (hrest : Phrase.expressions.Read us es) :
    Phrase.expressions.Read (ts ++ ⟨.symbol .comma, p⟩ :: us) (e :: es) := by
  intro fuel c d hws hstop hfuel
  rw [List.length_append, List.length_cons] at hfuel
  obtain ⟨b, hts, hp, hus⟩ := reads_append.mp hws
  obtain ⟨k, rfl⟩ := Nat.exists_eq_add_one.mpr (show 0 < fuel by omega)
  rw [expressions, h k c b hts (stops_of_head hp (by decide)) (by omega), Reading.ok_bind]
  dsimp only
  rw [if_pos (atSymbol_iff.mpr ⟨p, hp⟩), hrest k b.advance d hus hstop (by omega), Reading.ok_bind]
  rfl

theorem read_noArguments : Phrase.arguments.Read [] [] := by
  intro close what q _ fuel c d hq hfuel
  obtain ⟨k, rfl⟩ := Nat.exists_eq_add_one.mpr (show 0 < fuel by omega)
  rw [arguments, if_pos (atSymbol_iff.mpr ⟨q, hq.1⟩), reads_nil.mp hq.2]

theorem read_someArguments {es : List (Expr Unit)} (hopens : OpensExpr ts)
    (h : Phrase.expressions.Read ts es) : Phrase.arguments.Read ts es := by
  intro close what q hclose fuel c d hws hfuel
  obtain ⟨b, hts, hq⟩ := reads_append.mp hws
  obtain ⟨k, rfl⟩ := Nat.exists_eq_add_one.mpr (show 0 < fuel by omega)
  have hopens : OpensExpr c.rest := hws.rest_eq ▸ (hopens.append _).append _
  have hnot : ¬ c.atSymbol close = true := by
    rcases hclose with rfl | rfl <;> exact hopens.not_atSymbol rfl rfl
  have hstop : b.Stops 1 := by
    rcases hclose with rfl | rfl <;> exact stops_of_head hq.1 (by decide)
  have hcomma : ¬ b.atSymbol .comma = true := by
    rcases hclose with rfl | rfl <;> exact not_atSymbol_of_head .comma hq.1 nofun
  rw [arguments, if_neg hnot, h k c b hts ⟨hstop, hcomma⟩ (by omega), Reading.ok_bind]
  dsimp only
  rw [expect_eq_ok.mpr ⟨q, hq⟩, Reading.ok_bind]
  rfl

theorem read_lastName {x : String} {p : Span} : Phrase.names.Read [⟨.name x, p⟩] [⟨x, p⟩] := by
  intro c d hts hcomma
  obtain ⟨hp, rfl⟩ := hts
  rw [rest_eq_cons hp, names]
  · rw [advance, rest_eq_cons hp]
  · intro q rest h
    exact hcomma (atSymbol_iff.mpr ⟨q, by rw [h]; rfl⟩)

theorem read_nextName {x : String} {xs : List (Located String)} {p q : Span}
    (h : Phrase.names.Read ts xs) :
    Phrase.names.Read (⟨.name x, p⟩ :: ⟨.symbol .comma, q⟩ :: ts) (⟨x, p⟩ :: xs) := by
  intro c d hws hcomma
  obtain ⟨hp, hq, hts⟩ := hws
  have hrest := h c.advance.advance d hts hcomma
  rw [previous_advance hq, size_advance, size_advance] at hrest
  rw [rest_eq_cons hp, rest_eq_cons hq, names, hrest]
  rfl

theorem read_noParameters : Phrase.parameters.Read [] [] := by
  intro c d p q hws
  obtain ⟨hp, hq, hd⟩ := hws
  rw [parameters, expect_eq_ok.mpr ⟨p, hp, rfl⟩, Reading.ok_bind,
    if_pos (atSymbol_iff.mpr ⟨q, hq⟩), reads_nil.mp hd]
  rfl

theorem read_someParameters {xs : List (Located String)} (hd : Derives .names ts xs)
    (h : Phrase.names.Read ts xs) : Phrase.parameters.Read ts xs := by
  intro c d p q hws
  obtain ⟨hp, hrest⟩ := hws
  obtain ⟨b, hts, hq⟩ := reads_append.mp hrest
  have hnot : ¬ c.advance.atSymbol .closeParen = true := by
    cases hd with
    | lastName | nextName => exact not_atSymbol_of_head .closeParen hts.1 nofun
  rw [parameters, expect_eq_ok.mpr ⟨p, hp, rfl⟩, Reading.ok_bind, if_neg hnot,
    h c.advance b hts (not_atSymbol_of_head .comma hq.1 nofun), Reading.ok_bind]
  dsimp only
  rw [expect_eq_ok.mpr ⟨q, hq⟩, Reading.ok_bind]
  rfl

/-! ### Statements -/

theorem read_done : Phrase.statements.Read [] [] := by
  intro nested fuel c d hts hend hfuel
  obtain ⟨k, rfl⟩ := Nat.exists_eq_add_one.mpr (show 0 < fuel by omega)
  cases reads_nil.mp hts
  rw [statements, if_pos]
  rw [Bool.or_eq_true, Bool.and_eq_true, List.isEmpty_iff]
  exact hend

theorem read_next {s : Stmt Unit} {ss : Block Unit} (hopens : Phrase.statement.Opens ts)
    (hfirst : Phrase.statement.Read ts s) (hopens' : Phrase.statements.Opens us)
    (hrest : Phrase.statements.Read us ss) : Phrase.statements.Read (ts ++ us) (s :: ss) := by
  intro nested fuel c d hws hend hfuel
  rw [List.length_append] at hfuel
  obtain ⟨b, hts, hus⟩ := reads_append.mp hws
  obtain ⟨t, vs, rfl, -, hbrace⟩ := hopens
  rw [List.length_cons] at hfuel
  obtain ⟨k, rfl⟩ := Nat.exists_eq_add_one.mpr (show 0 < fuel by omega)
  have hgo : ¬ (c.rest.isEmpty || (nested && c.atSymbol .closeBrace)) = true := by
    rw [Bool.or_eq_true, Bool.and_eq_true, rest_eq_cons hts.1]
    rintro (h | ⟨_, h⟩)
    · cases h
    · exact not_atSymbol_of_head .closeBrace hts.1 hbrace h
  -- what follows the first statement is the next one, the closing brace or the end
  have helse : ¬ b.atKeyword .else_ = true := by
    intro h
    obtain ⟨p, hp⟩ := atKeyword_iff.mp h
    cases us with
    | cons u us => exact hopens' u rfl (by rw [hus.1] at hp; cases hp; rfl)
    | nil =>
      cases reads_nil.mp hus
      rcases hend with hend | ⟨_, hend⟩
      · rw [hend] at hp
        cases hp
      · exact not_atSymbol_of_head .closeBrace hp nofun hend
  rw [statements, if_neg hgo, hfirst k c b hts helse (by rw [List.length_cons]; omega),
    Reading.ok_bind]
  dsimp only
  rw [hrest nested k b d hus hend (by omega), Reading.ok_bind]
  rfl

theorem read_block {ss : Block Unit} {p q : Span} (h : Phrase.statements.Read ts ss) :
    Phrase.block.Read (⟨.symbol .openBrace, p⟩ :: (ts ++ [⟨.symbol .closeBrace, q⟩])) ss := by
  intro fuel c d hws _ hfuel
  simp only [List.length_cons, List.length_append, List.length_nil] at hfuel
  obtain ⟨hp, hrest⟩ := hws
  obtain ⟨b, hts, hq⟩ := reads_append.mp hrest
  obtain ⟨k, rfl⟩ := Nat.exists_eq_add_one.mpr (show 0 < fuel by omega)
  have hend : b.atSymbol .closeBrace = true := atSymbol_iff.mpr ⟨q, hq.1⟩
  rw [block, expect_eq_ok.mpr ⟨p, hp, rfl⟩, Reading.ok_bind,
    h true k c.advance b hts (.inr ⟨rfl, hend⟩) (by omega), Reading.ok_bind]
  dsimp only
  rw [expect_eq_ok.mpr ⟨q, hq⟩, Reading.ok_bind]
  rfl

/-- An expression ends before a block. -/
theorem stops_of_block {b d : Cursor} {k : Nat} (hopens : Phrase.block.Opens us) (hus : b.Reads us d) :
    b.Stops (k + 1) := by
  obtain ⟨p, vs, rfl⟩ := hopens
  exact stops_of_head hus.1 (Nat.succ_pos k)

theorem read_cond {s : Stmt Unit} (hopens : Phrase.condStatement.Opens ts)
    (h : Phrase.condStatement.Read ts s) : Phrase.statement.Read ts s := by
  intro fuel c d hts helse hfuel
  obtain ⟨p, us, rfl⟩ := hopens
  obtain ⟨k, rfl⟩ := Nat.exists_eq_add_one.mpr (show 0 < fuel by omega)
  rw [statement, rest_eq_cons hts.1]
  exact h k c d hts helse (by omega)

section

variable {ss rs : Block Unit} {s : Stmt Unit} {p q : Span}

theorem read_condOnly (htest : Form.expression.Read ts e) (hopens : Phrase.block.Opens us)
    (hyes : Phrase.block.Read us ss) (split : ws = ⟨.keyword .if_, p⟩ :: (ts ++ us)) :
    Phrase.condStatement.Read ws (.cond (.across ws) e ss none) := by
  intro fuel c d hws helse hfuel
  have hlen : ws.length = ts.length + us.length + 1 := by rw [split]; simp
  obtain ⟨hp, h⟩ := split ▸ hws
  obtain ⟨b, hts, hus⟩ := reads_append.mp h
  obtain ⟨k, rfl⟩ := Nat.exists_eq_add_one.mpr (show 0 < fuel by omega)
  rw [condStatement, htest k c.advance b hts (stops_of_block hopens hus) (by omega), Reading.ok_bind]
  dsimp only
  rw [hyes k b d hus trivial (by omega), Reading.ok_bind]
  dsimp only
  rw [if_neg helse, ← hws.spanFrom_eq (by rw [split]; simp)]
  rfl

theorem read_condElse (htest : Form.expression.Read ts e) (hopens : Phrase.block.Opens us)
    (hyes : Phrase.block.Read us ss) (hopens' : Phrase.block.Opens vs) (hno : Phrase.block.Read vs rs)
    (split : ws = ⟨.keyword .if_, p⟩ :: (ts ++ (us ++ ⟨.keyword .else_, q⟩ :: vs))) :
    Phrase.condStatement.Read ws (.cond (.across ws) e ss (some rs)) := by
  intro fuel c d hws _ hfuel
  have hlen : ws.length = ts.length + us.length + vs.length + 2 := by rw [split]; simp; omega
  obtain ⟨hp, h⟩ := split ▸ hws
  obtain ⟨b, hts, h⟩ := reads_append.mp h
  obtain ⟨a, hus, hq, hvs⟩ := reads_append.mp h
  obtain ⟨k, rfl⟩ := Nat.exists_eq_add_one.mpr (show 0 < fuel by omega)
  rw [condStatement, htest k c.advance b hts (stops_of_block hopens hus) (by omega), Reading.ok_bind]
  dsimp only
  rw [hyes k b a hus trivial (by omega), Reading.ok_bind]
  dsimp only
  have hif : ¬ a.advance.atKeyword .if_ = true := by
    intro h
    obtain ⟨r, hr⟩ := atKeyword_iff.mp h
    obtain ⟨v, xs, rfl⟩ := hopens'
    rw [hvs.1] at hr
    cases hr
  rw [if_pos (atKeyword_iff.mpr ⟨q, hq⟩), if_neg hif, hno k a.advance d hvs trivial (by omega),
    Reading.ok_bind, ← hws.spanFrom_eq (by rw [split]; simp)]
  rfl

theorem read_condElseIf (htest : Form.expression.Read ts e) (hopens : Phrase.block.Opens us)
    (hyes : Phrase.block.Read us ss) (hopens' : Phrase.condStatement.Opens vs)
    (hno : Phrase.condStatement.Read vs s)
    (split : ws = ⟨.keyword .if_, p⟩ :: (ts ++ (us ++ ⟨.keyword .else_, q⟩ :: vs))) :
    Phrase.condStatement.Read ws (.cond (.across ws) e ss (some [s])) := by
  intro fuel c d hws helse hfuel
  have hlen : ws.length = ts.length + us.length + vs.length + 2 := by rw [split]; simp; omega
  obtain ⟨hp, h⟩ := split ▸ hws
  obtain ⟨b, hts, h⟩ := reads_append.mp h
  obtain ⟨a, hus, hq, hvs⟩ := reads_append.mp h
  obtain ⟨k, rfl⟩ := Nat.exists_eq_add_one.mpr (show 0 < fuel by omega)
  rw [condStatement, htest k c.advance b hts (stops_of_block hopens hus) (by omega), Reading.ok_bind]
  dsimp only
  rw [hyes k b a hus trivial (by omega), Reading.ok_bind]
  dsimp only
  have hif : a.advance.atKeyword .if_ = true := by
    obtain ⟨r, xs, rfl⟩ := hopens'
    exact atKeyword_iff.mpr ⟨r, hvs.1⟩
  rw [if_pos (atKeyword_iff.mpr ⟨q, hq⟩), if_pos hif, hno k a.advance d hvs helse (by omega),
    Reading.ok_bind, ← hws.spanFrom_eq (by rw [split]; simp)]
  rfl

theorem read_while (htest : Form.expression.Read ts e) (hopens : Phrase.block.Opens us)
    (hbody : Phrase.block.Read us ss) (split : ws = ⟨.keyword .while_, p⟩ :: (ts ++ us)) :
    Phrase.statement.Read ws (.while (.across ws) e ss) := by
  intro fuel c d hws _ hfuel
  have hlen : ws.length = ts.length + us.length + 1 := by rw [split]; simp
  obtain ⟨hp, h⟩ := split ▸ hws
  obtain ⟨b, hts, hus⟩ := reads_append.mp h
  obtain ⟨k, rfl⟩ := Nat.exists_eq_add_one.mpr (show 0 < fuel by omega)
  rw [statement, rest_eq_cons hp]
  dsimp only
  rw [htest k c.advance b hts (stops_of_block hopens hus) (by omega), Reading.ok_bind]
  dsimp only
  rw [hbody k b d hus trivial (by omega), Reading.ok_bind, ← hws.spanFrom_eq (by rw [split]; simp)]
  rfl

theorem read_range {x : String} {cmp : Located Token} {op : BinaryOp} {r : Span}
    (hop : Level.comparison.operator? cmp.val = some op) (hfirst : (Form.chain .sum).Read ts e₁)
    (hlast : (Form.chain .sum).Read us e₂) (hopens : Phrase.block.Opens vs)
    (hbody : Phrase.block.Read vs ss)
    (split : ws = ⟨.keyword .for_, p⟩ :: ⟨.name x, q⟩ :: cmp ::
      (ts ++ ⟨.symbol .dots, r⟩ :: (us ++ vs))) :
    Phrase.statement.Read ws (.range (.across ws) ⟨x, q⟩ ⟨op, cmp.span⟩ e₁ e₂ ss) := by
  intro fuel c d hws _ hfuel
  have hlen : ws.length = ts.length + us.length + vs.length + 4 := by rw [split]; simp; omega
  obtain ⟨hp, hx, hcmp, h⟩ := split ▸ hws
  obtain ⟨b, hts, hr, h⟩ := reads_append.mp h
  obtain ⟨a, hus, hvs⟩ := reads_append.mp h
  obtain ⟨k, rfl⟩ := Nat.exists_eq_add_one.mpr (show 0 < fuel by omega)
  have hcomparison : comparison c.advance.advance =
      .ok (⟨op, cmp.span⟩, c.advance.advance.advance) := by
    rw [comparison, peek_eq hcmp, Option.bind_some, hop, here_eq hcmp]
  rw [statement, rest_eq_cons hp]
  dsimp only
  rw [name_eq_ok (x := ⟨x, q⟩) |>.mpr ⟨hx, rfl⟩, Reading.ok_bind]
  dsimp only
  rw [hcomparison, Reading.ok_bind]
  dsimp only
  rw [accepts_binary hfirst k _ b hts (stops_of_head hr (by decide))
    (by simp only [Level.rank]; omega), Reading.ok_bind]
  dsimp only
  rw [expect_eq_ok.mpr ⟨r, hr, rfl⟩, Reading.ok_bind,
    accepts_binary hlast k _ a hus (stops_of_block hopens hvs)
      (by simp only [Level.rank]; omega), Reading.ok_bind]
  dsimp only
  rw [hbody k a d hvs trivial (by omega), Reading.ok_bind, ← hws.spanFrom_eq (by rw [split]; simp)]
  rfl

theorem read_define {x : String} {xs : List (Located String)} {r v : Span}
    (hparams : Phrase.parameters.Read ts xs) (hbody : Phrase.block.Read us ss)
    (split : ws = ⟨.keyword .fn_, p⟩ :: ⟨.name x, q⟩ :: ⟨.symbol .openParen, r⟩ ::
      (ts ++ ⟨.symbol .closeParen, v⟩ :: us)) :
    Phrase.statement.Read ws
      (.expr (.across ws) (.assign (.across ws) false true x (.function (.across ws) () xs ss))) := by
  intro fuel c d hws _ hfuel
  have hlen : ws.length = ts.length + us.length + 4 := by rw [split]; simp; omega
  obtain ⟨hp, hq, hr, h⟩ := split ▸ hws
  obtain ⟨b, hts, hv, hus⟩ := reads_append.mp h
  obtain ⟨k, rfl⟩ := Nat.exists_eq_add_one.mpr (show 0 < fuel by omega)
  rw [statement, rest_eq_cons hp, rest_eq_cons hq]
  dsimp only
  rw [hparams c.advance.advance b.advance r v ⟨hr, hts.trans ⟨hv, rfl⟩⟩, Reading.ok_bind]
  dsimp only
  rw [hbody k b.advance d hus trivial (by omega), Reading.ok_bind,
    ← hws.spanFrom_eq (by rw [split]; simp)]
  rfl

theorem read_break (split : ws = [⟨.keyword .break_, p⟩, ⟨.symbol .semicolon, q⟩]) :
    Phrase.statement.Read ws (.break (.across ws)) := by
  intro fuel c d hws _ hfuel
  obtain ⟨hp, hq⟩ := split ▸ hws
  obtain ⟨k, rfl⟩ := Nat.exists_eq_add_one.mpr (show 0 < fuel by omega)
  rw [statement, rest_eq_cons hp]
  dsimp only
  rw [expect_eq_ok.mpr ⟨q, hq⟩, Reading.ok_bind, ← hws.spanFrom_eq (by rw [split]; simp)]
  rfl

theorem read_continue (split : ws = [⟨.keyword .continue_, p⟩, ⟨.symbol .semicolon, q⟩]) :
    Phrase.statement.Read ws (.continue (.across ws)) := by
  intro fuel c d hws _ hfuel
  obtain ⟨hp, hq⟩ := split ▸ hws
  obtain ⟨k, rfl⟩ := Nat.exists_eq_add_one.mpr (show 0 < fuel by omega)
  rw [statement, rest_eq_cons hp]
  dsimp only
  rw [expect_eq_ok.mpr ⟨q, hq⟩, Reading.ok_bind, ← hws.spanFrom_eq (by rw [split]; simp)]
  rfl

theorem read_return {value : Option (Expr Unit)} (h : Phrase.optional.Read ts value)
    (split : ws = ⟨.keyword .return_, p⟩ :: (ts ++ [⟨.symbol .semicolon, q⟩])) :
    Phrase.statement.Read ws (.return (.across ws) value) := by
  intro fuel c d hws _ hfuel
  have hlen : ws.length = ts.length + 2 := by rw [split]; simp
  obtain ⟨hp, hrest⟩ := split ▸ hws
  obtain ⟨k, rfl⟩ := Nat.exists_eq_add_one.mpr (show 0 < fuel by omega)
  rw [statement, rest_eq_cons hp, ← hws.spanFrom_eq (by rw [split]; simp)]
  dsimp only
  cases value with
  | none =>
    cases h
    rw [if_pos (atSymbol_iff.mpr ⟨q, hrest.1⟩), reads_nil.mp hrest.2]
  | some e =>
    obtain ⟨hopens, h⟩ := h
    obtain ⟨b, hts, hq⟩ := reads_append.mp hrest
    have hopens : OpensExpr c.advance.rest := hrest.rest_eq ▸ (hopens.append _).append _
    rw [if_neg (hopens.not_atSymbol rfl rfl),
      h k c.advance b hts (stops_of_head hq.1 (by decide)) (by omega), Reading.ok_bind]
    dsimp only
    rw [expect_eq_ok.mpr ⟨q, hq⟩, Reading.ok_bind]
    rfl

theorem read_nested (hopens : Phrase.block.Opens ts) (h : Phrase.block.Read ts ss) :
    Phrase.statement.Read ts (.block (.across ts) ss) := by
  intro fuel c d hts _ hfuel
  obtain ⟨p, us, rfl⟩ := hopens
  obtain ⟨k, rfl⟩ := Nat.exists_eq_add_one.mpr (show 0 < fuel by omega)
  rw [statement, rest_eq_cons hts.1]
  dsimp only
  rw [h k c d hts trivial (by omega), Reading.ok_bind, ← hts.spanFrom_eq (by simp)]
  rfl

theorem read_expr (hopens : OpensExpr ts) (h : Form.expression.Read ts e)
    (split : ws = ts ++ [⟨.symbol .semicolon, p⟩]) :
    Phrase.statement.Read ws (.expr (.across ws) e) := by
  intro fuel c d hws _ hfuel
  have hlen : ws.length = ts.length + 1 := by rw [split]; simp
  obtain ⟨b, hts, hp⟩ := reads_append.mp (split ▸ hws)
  have hopens : OpensExpr c.rest := hts.rest_eq ▸ hopens.append _
  obtain ⟨k, rfl⟩ := Nat.exists_eq_add_one.mpr (show 0 < fuel by omega)
  rw [hopens.statement_eq, h k c b hts (stops_of_head hp.1 (by decide)) (by omega), Reading.ok_bind]
  dsimp only
  rw [expect_eq_ok.mpr ⟨p, hp⟩, Reading.ok_bind, ← hws.spanFrom_eq (by rw [split]; simp)]
  rfl

end

end Parser

/-- **What the grammar derives is read**, with enough fuel and before a token at which the phrase
ends. -/
theorem Derives.read {n : Phrase} {ts : List (Located Token)} {t : n.Tree} (h : Derives n ts t) :
    n.Read ts t := by
  induction h with
  | done => exact Parser.read_done
  | next first rest ih ih' => exact Parser.read_next first.opens ih rest.opens ih'
  | block _ ih => exact Parser.read_block ih
  | cond cond ih => exact Parser.read_cond cond.opens ih
  | condOnly _ yes split ih ih' => exact Parser.read_condOnly ih yes.opens ih' split
  | condElse _ yes no split ih ih' ih'' =>
    exact Parser.read_condElse ih yes.opens ih' no.opens ih'' split
  | condElseIf _ yes no split ih ih' ih'' =>
    exact Parser.read_condElseIf ih yes.opens ih' no.opens ih'' split
  | «while» _ body split ih ih' => exact Parser.read_while ih body.opens ih' split
  | range compares _ _ body split ih ih' ih'' =>
    exact Parser.read_range compares ih ih' body.opens ih'' split
  | define _ _ split ih ih' => exact Parser.read_define ih ih' split
  | «break» split => exact Parser.read_break split
  | «continue» split => exact Parser.read_continue split
  | «return» _ split ih => exact Parser.read_return ih split
  | nested body ih => exact Parser.read_nested body.opens ih
  | expr expr split ih => exact Parser.read_expr expr.opens ih split
  | noParameters => exact Parser.read_noParameters
  | someParameters names ih => exact Parser.read_someParameters names ih
  | lastName => exact Parser.read_lastName
  | nextName _ ih => exact Parser.read_nextName ih
  | name =>
    exact Parser.read_token fun k c hv hp => by rw [Parser.primary, hv, hp, Span.across_singleton]
  | globalName => exact Parser.read_globalName
  | plain _ ih => exact Parser.read_plain ih
  | assign target assigns value split ih ih' =>
    subst split
    have htarget := Parser.read_conditional_of_suffixed target.opens (Parser.read_primary ih)
    exact Parser.read_assignment htarget assigns ih' rfl
  | @assignIndex ws ts us vs t _ _ _ _ _ p q target index assigns value split ih ih' ih'' =>
    have htarget := Parser.read_index (p := p) (q := q) (Parser.read_primary ih) index.opens ih' rfl
    have hsplit : ws = (ts ++ ⟨.symbol .openBracket, p⟩ :: (us ++ [⟨.symbol .closeBracket, q⟩])) ++
      t :: vs := by simp [split]
    subst hsplit
    exact Parser.read_assignment
      (Parser.read_conditional_of_suffixed (target.opens.append _) htarget) assigns ih'' rfl
  | unconditional _ ih => exact Parser.read_unconditional ih
  | conditional _ _ _ split ih ih' ih'' => exact Parser.read_conditional ih ih' ih'' split
  | operand _ ih => exact Parser.read_operand ih
  | binary _ operator _ split ih ih' => exact split ▸ Parser.read_binary ih operator ih'
  | unary operator _ split ih => exact split ▸ Parser.read_unary operator ih
  | suffixed expr ih => exact Parser.read_suffixed expr.opens ih
  | primary _ ih => exact Parser.read_primary ih
  | call _ _ split ih ih' => exact Parser.read_call ih ih' split
  | index _ index split ih ih' => exact Parser.read_index ih index.opens ih' split
  | slice _ _ _ split ih ih' ih'' => exact Parser.read_slice ih ih' ih'' split
  | number | text | trueWord | falseWord | nilWord =>
    exact Parser.read_token fun k c hv hp => by rw [Parser.primary, hv, hp]
  | reference _ ih => exact ih
  | group _ split ih => exact Parser.read_group ih split
  | array _ split ih => exact Parser.read_array ih split
  | function _ _ split ih ih' => exact Parser.read_function ih ih' split
  | absent => exact rfl
  | present expr ih => exact ⟨expr.opens, ih⟩
  | noArguments => exact Parser.read_noArguments
  | someArguments items ih => exact Parser.read_someArguments items.opens ih
  | lastExpr _ ih => exact Parser.read_lastExpr ih
  | nextExpr _ _ ih ih' => exact Parser.read_nextExpr ih ih'

/-- Tokens are read as a program exactly when the grammar derives it from them. -/
theorem Program.ofTokens_eq_ok {size : Nat} {ts : List (Located Token)} {p : Program} :
    Program.ofTokens size ts = .ok p ↔ Derives .statements ts p.body := by
  constructor
  · intro h
    obtain ⟨⟨ss, d⟩, hss, h⟩ := Reading.bind_eq_ok.mp h
    cases h
    obtain ⟨⟨us, hus, hd⟩, hend⟩ := (Parser.readers_sound _).statements hss
    have hrest : d.rest = [] := hend.resolve_right Bool.false_ne_true
    have hts : ts = us ++ d.rest := hus.rest_eq
    rw [hts, hrest, List.append_nil]
    exact hd
  · intro h
    obtain ⟨d, hts, hd⟩ := Cursor.exists_reads ⟨size, ⟨0, 0⟩, ts⟩ ts [] (List.append_nil ts).symm
    rw [Program.ofTokens, h.read false _ _ d hts (.inl hd) (by omega), Reading.ok_bind]
    rfl

/-- **Reading is exact**: tokens are read as a program if and only if the grammar derives the tokens
with the tree of that program, and there is no other tree that it derives them with. -/
theorem parse_iff_derives (size : Nat) (ts : List (Located Token)) :
    (∀ p, Program.ofTokens size ts = .ok p ↔ Derives .statements ts p.body) ∧
      ∀ ss ss', Derives .statements ts ss → Derives .statements ts ss' → ss = ss' := by
  refine ⟨fun p => Program.ofTokens_eq_ok, fun ss ss' h h' => ?_⟩
  have hread : Program.ofTokens size ts = .ok ⟨ss⟩ := Program.ofTokens_eq_ok.mpr h
  have hread' : Program.ofTokens size ts = .ok ⟨ss'⟩ := Program.ofTokens_eq_ok.mpr h'
  rw [hread] at hread'
  cases hread'
  rfl

end Scriptlet
