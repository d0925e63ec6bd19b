import Scriptlet.Proofs.Grammar.Reading

/-!
What is read is derived.

Whenever a reader gives a tree and a cursor, the tokens between the cursors are a phrase of the
grammar, and the tree is its tree (`readers_sound`). The readers call each other with less fuel, so
the proof is by induction on the fuel: `SoundAt` collects what is known of all readers with one
fuel, and each reader has a lemma that derives its own part for one more.

The loops are the readers of chains. They are given what they have read so far, and their lemma
speaks of those tokens together with the ones they read themselves.
-/
namespace Scriptlet

/-- The tokens between the cursors are a phrase with this tree. -/
def Cursor.Takes (n : Phrase) (c : Cursor) (t : n.Tree) (d : Cursor) : Prop :=
  ∃ ts, c.Reads ts d ∧ Derives n ts t

namespace Parser

open Cursor

theorem names_sound {size : Nat} {previous : Span} {rest : List (Located Token)}
    {xs : List (Located String)} {d : Cursor} (h : names size previous rest = .ok (xs, d)) :
    Takes .names ⟨size, previous, rest⟩ xs d := by
  fun_induction names size previous rest generalizing xs d with
  | case1 _ x p q rest ih =>
    obtain ⟨⟨ys, e⟩, hys, h⟩ := Reading.bind_eq_ok.mp h
    cases h
    obtain ⟨ts, hts, hd⟩ := ih hys
    exact ⟨⟨.name x, p⟩ :: ⟨.symbol .comma, q⟩ :: ts, ⟨rfl, rfl, hts⟩, .nextName hd⟩
  | case2 _ x p rest _ =>
    cases h
    exact ⟨[⟨.name x, p⟩], ⟨rfl, rfl⟩, .lastName⟩
  | case3 => cases h

theorem parameters_sound {c d : Cursor} {xs : List (Located String)}
    (h : parameters c = .ok (xs, d)) :
    ∃ p ts q b, c.Reads (⟨.symbol .openParen, p⟩ :: ts) b ∧ b.Reads [⟨.symbol .closeParen, q⟩] d ∧
      Derives .parameters ts xs := by
  obtain ⟨b, hb, h⟩ := Reading.bind_eq_ok.mp h
  obtain ⟨p, hp⟩ := expect_eq_ok.mp hb
  split at h
  · rename_i hclose
    obtain ⟨q, hq⟩ := atSymbol_iff.mp hclose
    cases h
    exact ⟨p, [], q, b, hp, ⟨hq, rfl⟩, .noParameters⟩
  · obtain ⟨⟨ys, f⟩, hys, h⟩ := Reading.bind_eq_ok.mp h
    obtain ⟨g, hg, h⟩ := Reading.bind_eq_ok.mp h
    cases h
    obtain ⟨ts, hts, hd⟩ := names_sound hys
    obtain ⟨q, hq⟩ := expect_eq_ok.mp hg
    exact ⟨p, ts, q, f, hp.trans hts, hq, .someParameters hd⟩

theorem comparison_sound {c d : Cursor} {op : Located BinaryOp}
    (h : comparison c = .ok (op, d)) :
    ∃ t, c.Reads [t] d ∧ Level.comparison.operator? t.val = some op.val ∧ op.span = t.span := by
  rw [comparison] at h
  split at h
  · rename_i op' hop
    cases h
    obtain ⟨v, hv, hop⟩ := Option.bind_eq_some_iff.mp hop
    obtain ⟨t, ht, rfl⟩ := Option.map_eq_some_iff.mp hv
    exact ⟨t, ⟨ht, rfl⟩, hop, here_eq ht⟩
  · cases h

/-- What the readers give with this fuel is derived. -/
structure SoundAt (fuel : Nat) : Prop where
  statements {nested : Bool} {c d : Cursor} {ss : Block Unit}
    (h : statements nested fuel c = .ok (ss, d)) :
    Takes .statements c ss d ∧ (d.rest = [] ∨ nested = true)
  block {c d : Cursor} {ss : Block Unit} (h : block fuel c = .ok (ss, d)) : Takes .block c ss d
  statement {c d : Cursor} {s : Stmt Unit} (h : statement fuel c = .ok (s, d)) :
    Takes .statement c s d
  condStatement {c d : Cursor} {s : Stmt Unit} {p : Span}
    (hc : c.rest.head? = some ⟨.keyword .if_, p⟩) (h : condStatement fuel c = .ok (s, d)) :
    Takes .condStatement c s d
  expression {c d : Cursor} {e : Expr Unit} (h : expression fuel c = .ok (e, d)) :
    Takes (.expr .expression) c e d
  conditional {c d : Cursor} {e : Expr Unit} (h : conditional fuel c = .ok (e, d)) :
    Takes (.expr .conditional) c e d
  binary {level : Level} {c d : Cursor} {e : Expr Unit} (h : binary level fuel c = .ok (e, d)) :
    Takes (.expr (.chain level)) c e d
  operand {level : Level} {c d : Cursor} {e : Expr Unit} (h : operand level fuel c = .ok (e, d)) :
    Takes (.expr level.operands) c e d
  binaryTail {level : Level} {b c d : Cursor} {left e : Expr Unit}
    (hleft : Takes (.expr (.chain level)) c left b)
    (h : binaryTail level fuel left b = .ok (e, d)) : Takes (.expr (.chain level)) c e d
  unary {c d : Cursor} {e : Expr Unit} (h : unary fuel c = .ok (e, d)) : Takes (.expr .unary) c e d
  postfixTail {b c d : Cursor} {left e : Expr Unit} (hleft : Takes (.expr .suffixed) c left b)
    (h : postfixTail fuel left b = .ok (e, d)) : Takes (.expr .suffixed) c e d
  subscript {b c d : Cursor} {target e : Expr Unit} {p : Span}
    (ht : Takes (.expr .suffixed) c target b)
    (hb : b.rest.head? = some ⟨.symbol .openBracket, p⟩)
    (h : subscript fuel target b.advance = .ok (e, d)) : Takes (.expr .suffixed) c e d
  sliceStop {c d : Cursor} {e : Option (Expr Unit)} (h : sliceStop fuel c = .ok (e, d)) :
    ∃ ts p, c.Reads (ts ++ [⟨.symbol .closeBracket, p⟩]) d ∧ Derives .optional ts e
  arguments {close : Symbol} {what : Expectation} {c d : Cursor} {es : List (Expr Unit)}
    (h : arguments close what fuel c = .ok (es, d)) :
    ∃ ts p, c.Reads (ts ++ [⟨.symbol close, p⟩]) d ∧ Derives .arguments ts es
  expressions {c d : Cursor} {es : List (Expr Unit)} (h : expressions fuel c = .ok (es, d)) :
    Takes .expressions c es d
  primary {c d : Cursor} {e : Expr Unit} (h : primary fuel c = .ok (e, d)) :
    Takes (.expr .primary) c e d

namespace SoundAt

variable {fuel : Nat} {c d : Cursor} (ih : SoundAt fuel)
include ih

/-! ### Statements -/

theorem statements_step {nested : Bool} {ss : Block Unit}
    (h : Parser.statements nested (fuel + 1) c = .ok (ss, d)) :
    Takes .statements c ss d ∧ (d.rest = [] ∨ nested = true) := by
  rw [Parser.statements] at h
  split at h
  · rename_i hstop
    cases h
    refine ⟨⟨[], rfl, .done⟩, ?_⟩
    rw [Bool.or_eq_true, Bool.and_eq_true, List.isEmpty_iff] at hstop
    exact hstop.imp_right And.left
  · obtain ⟨⟨s, b⟩, hs, h⟩ := Reading.bind_eq_ok.mp h
    obtain ⟨⟨rs, a⟩, hrs, h⟩ := Reading.bind_eq_ok.mp h
    cases h
    obtain ⟨ts, hts, hsd⟩ := ih.statement hs
    obtain ⟨⟨us, hus, hrd⟩, hend⟩ := ih.statements hrs
    exact ⟨⟨ts ++ us, hts.trans hus, .next hsd hrd⟩, hend⟩

theorem block_step {ss : Block Unit} (h : Parser.block (fuel + 1) c = .ok (ss, d)) :
    Takes .block c ss d := by
  obtain ⟨b, hb, h⟩ := Reading.bind_eq_ok.mp h
  obtain ⟨⟨rs, a⟩, hrs, h⟩ := Reading.bind_eq_ok.mp h
  obtain ⟨e, he, h⟩ := Reading.bind_eq_ok.mp h
  cases h
  obtain ⟨p, hp⟩ := expect_eq_ok.mp hb
  obtain ⟨⟨ts, hts, hd⟩, -⟩ := ih.statements hrs
  obtain ⟨q, hq⟩ := expect_eq_ok.mp he
  exact ⟨_, hp.trans (hts.trans hq), .block hd⟩

theorem condStatement_step {s : Stmt Unit} {p : Span}
    (hc : c.rest.head? = some ⟨.keyword .if_, p⟩)
    (h : Parser.condStatement (fuel + 1) c = .ok (s, d)) : Takes .condStatement c s d := by
  obtain ⟨⟨test, b⟩, htest, h⟩ := Reading.bind_eq_ok.mp h
  obtain ⟨⟨yes, a⟩, hyes, h⟩ := Reading.bind_eq_ok.mp h
  obtain ⟨ts, hts, htd⟩ := ih.expression htest
  obtain ⟨us, hus, hyd⟩ := ih.block hyes
  dsimp only at h
  split at h
  · rename_i helse
    obtain ⟨q, hq⟩ := atKeyword_iff.mp helse
    split at h
    · rename_i hif'
      obtain ⟨r, hr⟩ := atKeyword_iff.mp hif'
      obtain ⟨⟨no, f⟩, hno, h⟩ := Reading.bind_eq_ok.mp h
      cases h
      obtain ⟨vs, hvs, hnd⟩ := ih.condStatement hr hno
      have hws : c.Reads (⟨.keyword .if_, p⟩ :: (ts ++ (us ++ ⟨.keyword .else_, q⟩ :: vs))) f :=
        ⟨hc, hts.trans (hus.trans ⟨hq, hvs⟩)⟩
      rw [hws.spanFrom_eq (by simp)]
      exact ⟨_, hws, .condElseIf htd hyd hnd rfl⟩
    · obtain ⟨⟨no, f⟩, hno, h⟩ := Reading.bind_eq_ok.mp h
      cases h
      obtain ⟨vs, hvs, hnd⟩ := ih.block hno
      have hws : c.Reads (⟨.keyword .if_, p⟩ :: (ts ++ (us ++ ⟨.keyword .else_, q⟩ :: vs))) f :=
        ⟨hc, hts.trans (hus.trans ⟨hq, hvs⟩)⟩
      rw [hws.spanFrom_eq (by simp)]
      exact ⟨_, hws, .condElse htd hyd hnd rfl⟩
  · cases h
    have hws : c.Reads (⟨.keyword .if_, p⟩ :: (ts ++ us)) d := ⟨hc, hts.trans hus⟩
    rw [hws.spanFrom_eq (by simp)]
    exact ⟨_, hws, .condOnly htd hyd rfl⟩

theorem statement_step {s : Stmt Unit} (h : Parser.statement (fuel + 1) c = .ok (s, d)) :
    Takes .statement c s d := by
  rw [Parser.statement] at h
  split at h
  · rename_i p _ hc
    obtain ⟨ts, hts, hd⟩ := ih.condStatement (p := p) (by rw [hc]; rfl) h
    exact ⟨ts, hts, .cond hd⟩
  · rename_i p _ hc
    have hwhile : c.Reads [⟨.keyword .while_, p⟩] c.advance := ⟨by rw [hc]; rfl, rfl⟩
    obtain ⟨⟨test, b⟩, htest, h⟩ := Reading.bind_eq_ok.mp h
    obtain ⟨⟨body, a⟩, hbody, h⟩ := Reading.bind_eq_ok.mp h
    cases h
    obtain ⟨ts, hts, htd⟩ := ih.expression htest
    obtain ⟨us, hus, hbd⟩ := ih.block hbody
    have hws := hwhile.trans (hts.trans hus)
    rw [hws.spanFrom_eq (by simp)]
    exact ⟨_, hws, .while htd hbd rfl⟩
  · rename_i p _ hc
    have hfor : c.Reads [⟨.keyword .for_, p⟩] c.advance := ⟨by rw [hc]; rfl, rfl⟩
    obtain ⟨⟨x, a₁⟩, hx, h⟩ := Reading.bind_eq_ok.mp h
    obtain ⟨⟨cmp, a₂⟩, hcmp, h⟩ := Reading.bind_eq_ok.mp h
    obtain ⟨⟨first, a₃⟩, hfirst, h⟩ := Reading.bind_eq_ok.mp h
    obtain ⟨a₄, hdots, h⟩ := Reading.bind_eq_ok.mp h
    obtain ⟨⟨last, a₅⟩, hlast, h⟩ := Reading.bind_eq_ok.mp h
    obtain ⟨⟨body, a₆⟩, hbody, h⟩ := Reading.bind_eq_ok.mp h
    cases h
    have hx := name_eq_ok.mp hx
    obtain ⟨t, ht, hop, hspan⟩ := comparison_sound hcmp
    obtain ⟨ts, hts, hfd⟩ := ih.binary hfirst
    obtain ⟨r, hr⟩ := expect_eq_ok.mp hdots
    obtain ⟨us, hus, hld⟩ := ih.binary hlast
    obtain ⟨vs, hvs, hbd⟩ := ih.block hbody
    have hws := hfor.trans (hx.trans (ht.trans (hts.trans (hr.trans (hus.trans hvs)))))
    rw [hws.spanFrom_eq (by simp), show cmp = ⟨cmp.val, t.span⟩ by rw [← hspan]]
    exact ⟨_, hws, .range hop hfd hld hbd rfl⟩
  · rename_i p x q _ hc
    have hfn : c.Reads [⟨.keyword .fn_, p⟩, ⟨.name x, q⟩] c.advance.advance :=
      ⟨by rw [hc]; rfl, by rw [advance, hc]; rfl, rfl⟩
    obtain ⟨⟨params, a⟩, hparams, h⟩ := Reading.bind_eq_ok.mp h
    obtain ⟨⟨body, b⟩, hbody, h⟩ := Reading.bind_eq_ok.mp h
    cases h
    obtain ⟨r, ts, v, a₁, hts, hv, hpd⟩ := parameters_sound hparams
    obtain ⟨us, hus, hbd⟩ := ih.block hbody
    have hws := hfn.trans (hts.trans (hv.trans hus))
    rw [hws.spanFrom_eq (by simp)]
    exact ⟨_, hws, .define hpd hbd rfl⟩
  · rename_i p _ hc
    obtain ⟨a, ha, h⟩ := Reading.bind_eq_ok.mp h
    cases h
    obtain ⟨q, hq⟩ := expect_eq_ok.mp ha
    have hws : c.Reads [⟨.keyword .break_, p⟩, ⟨.symbol .semicolon, q⟩] d := ⟨by rw [hc]; rfl, hq⟩
    rw [hws.spanFrom_eq (by simp)]
    exact ⟨_, hws, .break rfl⟩
  · rename_i p _ hc
    obtain ⟨a, ha, h⟩ := Reading.bind_eq_ok.mp h
    cases h
    obtain ⟨q, hq⟩ := expect_eq_ok.mp ha
    have hws : c.Reads [⟨.keyword .continue_, p⟩, ⟨.symbol .semicolon, q⟩] d := ⟨by rw [hc]; rfl, hq⟩
    rw [hws.spanFrom_eq (by simp)]
    exact ⟨_, hws, .continue rfl⟩
  · rename_i p _ hc
    have hreturn : c.Reads [⟨.keyword .return_, p⟩] c.advance := ⟨by rw [hc]; rfl, rfl⟩
    split at h
    · rename_i hsemi
      obtain ⟨q, hq⟩ := atSymbol_iff.mp hsemi
      cases h
      have hws : c.Reads [⟨.keyword .return_, p⟩, ⟨.symbol .semicolon, q⟩] c.advance.advance :=
        ⟨hreturn.1, hq, rfl⟩
      rw [hws.spanFrom_eq (by simp)]
      exact ⟨_, hws, .return .absent rfl⟩
    · obtain ⟨⟨value, b⟩, hvalue, h⟩ := Reading.bind_eq_ok.mp h
      obtain ⟨a, ha, h⟩ := Reading.bind_eq_ok.mp h
      cases h
      obtain ⟨ts, hts, hvd⟩ := ih.expression hvalue
      obtain ⟨q, hq⟩ := expect_eq_ok.mp ha
      have hws := hreturn.trans (hts.trans hq)
      rw [hws.spanFrom_eq (by simp)]
      exact ⟨_, hws, .return (.present hvd) rfl⟩
  · obtain ⟨⟨body, b⟩, hbody, h⟩ := Reading.bind_eq_ok.mp h
    cases h
    obtain ⟨ts, hts, hbd⟩ := ih.block hbody
    obtain ⟨q, us, rfl⟩ := hbd.opens
    rw [hts.spanFrom_eq (by simp)]
    exact ⟨_, hts, .nested hbd⟩
  · obtain ⟨⟨e, b⟩, he, h⟩ := Reading.bind_eq_ok.mp h
    obtain ⟨a, ha, h⟩ := Reading.bind_eq_ok.mp h
    cases h
    obtain ⟨ts, hts, hed⟩ := ih.expression he
    obtain ⟨q, hq⟩ := expect_eq_ok.mp ha
    have hws := hts.trans hq
    rw [hws.spanFrom_eq (by simp)]
    exact ⟨_, hws, .expr hed rfl⟩

/-! ### Expressions -/

theorem expression_step {e : Expr Unit} (h : Parser.expression (fuel + 1) c = .ok (e, d)) :
    Takes (.expr .expression) c e d := by
  obtain ⟨⟨target, b⟩, htarget, h⟩ := Reading.bind_eq_ok.mp h
  obtain ⟨ts, hts, htd⟩ := ih.conditional htarget
  dsimp only at h
  split at h
  · cases h
    exact ⟨ts, hts, .plain htd⟩
  · rename_i constant hassigns
    obtain ⟨⟨value, a⟩, hvalue, h⟩ := Reading.bind_eq_ok.mp h
    obtain ⟨us, hus, hvd⟩ := ih.expression hvalue
    obtain ⟨v, hv, hassigns⟩ := Option.bind_eq_some_iff.mp hassigns
    obtain ⟨t, ht, rfl⟩ := Option.map_eq_some_iff.mp hv
    dsimp only at h
    split at h
    · rename_i assignment hassignment
      cases h
      exact ⟨_, hts.trans (.cons ht hus), .of_assignment? htd hassigns hvd hassignment⟩
    · cases h

theorem conditional_step {e : Expr Unit} (h : Parser.conditional (fuel + 1) c = .ok (e, d)) :
    Takes (.expr .conditional) c e d := by
  obtain ⟨⟨test, b⟩, htest, h⟩ := Reading.bind_eq_ok.mp h
  obtain ⟨ts, hts, htd⟩ := ih.binary htest
  dsimp only at h
  split at h
  · rename_i hquestion
    obtain ⟨p, hp⟩ := atSymbol_iff.mp hquestion
    obtain ⟨⟨yes, a₁⟩, hyes, h⟩ := Reading.bind_eq_ok.mp h
    obtain ⟨a₂, hcolon, h⟩ := Reading.bind_eq_ok.mp h
    obtain ⟨⟨no, a₃⟩, hno, h⟩ := Reading.bind_eq_ok.mp h
    cases h
    obtain ⟨us, hus, hyd⟩ := ih.expression hyes
    obtain ⟨q, hq⟩ := expect_eq_ok.mp hcolon
    obtain ⟨vs, hvs, hnd⟩ := ih.conditional hno
    exact ⟨_, hts.trans (.cons hp (hus.trans (hq.trans hvs))), .conditional htd hyd hnd rfl⟩
  · cases h
    exact ⟨ts, hts, .unconditional htd⟩

theorem operand_step {level : Level} {e : Expr Unit}
    (h : Parser.operand level (fuel + 1) c = .ok (e, d)) : Takes (.expr level.operands) c e d := by
  cases level with
  | product => exact ih.unary h
  | _ => exact ih.binary h

theorem binary_step {level : Level} {e : Expr Unit}
    (h : Parser.binary level (fuel + 1) c = .ok (e, d)) : Takes (.expr (.chain level)) c e d := by
  obtain ⟨⟨left, b⟩, hleft, h⟩ := Reading.bind_eq_ok.mp h
  obtain ⟨ts, hts, hd⟩ := ih.operand hleft
  exact ih.binaryTail ⟨ts, hts, .operand hd⟩ h

theorem binaryTail_step {level : Level} {b : Cursor} {left e : Expr Unit}
    (hleft : Takes (.expr (.chain level)) c left b)
    (h : Parser.binaryTail level (fuel + 1) left b = .ok (e, d)) :
    Takes (.expr (.chain level)) c e d := by
  rw [Parser.binaryTail] at h
  split at h
  · cases h
    exact hleft
  · rename_i op hop
    obtain ⟨v, hv, hop⟩ := Option.bind_eq_some_iff.mp hop
    obtain ⟨t, ht, rfl⟩ := Option.map_eq_some_iff.mp hv
    obtain ⟨⟨right, a⟩, hright, h⟩ := Reading.bind_eq_ok.mp h
    obtain ⟨ts, hts, hld⟩ := hleft
    obtain ⟨us, hus, hrd⟩ := ih.operand hright
    exact ih.binaryTail ⟨_, hts.trans (.cons ht hus), .binary hld hop hrd rfl⟩ h

theorem unary_step {e : Expr Unit} (h : Parser.unary (fuel + 1) c = .ok (e, d)) :
    Takes (.expr .unary) c e d := by
  rw [Parser.unary] at h
  split at h
  · obtain ⟨⟨inner, b⟩, hinner, h⟩ := Reading.bind_eq_ok.mp h
    obtain ⟨ts, hts, hd⟩ := ih.primary hinner
    obtain ⟨us, hus, hd⟩ := ih.postfixTail ⟨ts, hts, .primary hd⟩ h
    exact ⟨us, hus, .suffixed hd⟩
  · rename_i op hop
    obtain ⟨v, hv, hop⟩ := Option.bind_eq_some_iff.mp hop
    obtain ⟨t, ht, rfl⟩ := Option.map_eq_some_iff.mp hv
    obtain ⟨⟨inner, b⟩, hinner, h⟩ := Reading.bind_eq_ok.mp h
    cases h
    obtain ⟨ts, hts, hd⟩ := ih.unary hinner
    rw [here_eq ht]
    exact ⟨_, .cons ht hts, .unary hop hd rfl⟩

theorem postfixTail_step {b : Cursor} {left e : Expr Unit} (hleft : Takes (.expr .suffixed) c left b)
    (h : Parser.postfixTail (fuel + 1) left b = .ok (e, d)) : Takes (.expr .suffixed) c e d := by
  rw [Parser.postfixTail] at h
  split at h
  · rename_i hopen
    obtain ⟨p, hp⟩ := atSymbol_iff.mp hopen
    obtain ⟨⟨args, a⟩, hargs, h⟩ := Reading.bind_eq_ok.mp h
    obtain ⟨ts, hts, hld⟩ := hleft
    obtain ⟨us, q, hus, had⟩ := ih.arguments hargs
    refine ih.postfixTail ⟨_, hts.trans (.cons hp hus), ?_⟩ h
    rw [hus.spanFrom_of_last]
    exact .call hld had rfl
  · split at h
    · rename_i hopen
      obtain ⟨p, hp⟩ := atSymbol_iff.mp hopen
      obtain ⟨⟨inner, a⟩, hinner, h⟩ := Reading.bind_eq_ok.mp h
      exact ih.postfixTail (ih.subscript hleft hp hinner) h
    · cases h
      exact hleft

theorem subscript_step {b : Cursor} {target e : Expr Unit} {p : Span}
    (ht : Takes (.expr .suffixed) c target b)
    (hb : b.rest.head? = some ⟨.symbol .openBracket, p⟩)
    (h : Parser.subscript (fuel + 1) target b.advance = .ok (e, d)) :
    Takes (.expr .suffixed) c e d := by
  obtain ⟨ts, hts, htd⟩ := ht
  rw [Parser.subscript] at h
  split at h
  · cases h
  split at h
  · rename_i hcolon
    obtain ⟨q, hq⟩ := atSymbol_iff.mp hcolon
    obtain ⟨⟨stop, a⟩, hstop, h⟩ := Reading.bind_eq_ok.mp h
    cases h
    obtain ⟨vs, r, hvs, hsd⟩ := ih.sliceStop hstop
    rw [hvs.spanFrom_of_last]
    exact ⟨_, hts.trans (.cons hb (.cons hq hvs)), .slice htd .absent hsd rfl⟩
  obtain ⟨⟨start, a⟩, hstart, h⟩ := Reading.bind_eq_ok.mp h
  obtain ⟨us, hus, hsd⟩ := ih.expression hstart
  dsimp only at h
  split at h
  · rename_i hcolon
    obtain ⟨q, hq⟩ := atSymbol_iff.mp hcolon
    obtain ⟨⟨stop, f⟩, hstop, h⟩ := Reading.bind_eq_ok.mp h
    cases h
    obtain ⟨vs, r, hvs, hed⟩ := ih.sliceStop hstop
    rw [hvs.spanFrom_of_last]
    exact ⟨_, hts.trans (.cons hb (hus.trans (.cons hq hvs))), .slice htd (.present hsd) hed rfl⟩
  · obtain ⟨f, hclose, h⟩ := Reading.bind_eq_ok.mp h
    cases h
    obtain ⟨q, hq⟩ := expect_eq_ok.mp hclose
    have hlast := hus.trans hq
    rw [hlast.spanFrom_of_last]
    exact ⟨_, hts.trans (.cons hb hlast), .index htd hsd rfl⟩

theorem sliceStop_step {e : Option (Expr Unit)} (h : Parser.sliceStop (fuel + 1) c = .ok (e, d)) :
    ∃ ts p, c.Reads (ts ++ [⟨.symbol .closeBracket, p⟩]) d ∧ Derives .optional ts e := by
  rw [Parser.sliceStop] at h
  split at h
  · rename_i hclose
    obtain ⟨p, hp⟩ := atSymbol_iff.mp hclose
    cases h
    exact ⟨[], p, ⟨hp, rfl⟩, .absent⟩
  · obtain ⟨⟨stop, b⟩, hstop, h⟩ := Reading.bind_eq_ok.mp h
    obtain ⟨a, ha, h⟩ := Reading.bind_eq_ok.mp h
    cases h
    obtain ⟨ts, hts, hd⟩ := ih.expression hstop
    obtain ⟨p, hp⟩ := expect_eq_ok.mp ha
    exact ⟨ts, p, hts.trans hp, .present hd⟩

theorem arguments_step {close : Symbol} {what : Expectation} {es : List (Expr Unit)}
    (h : Parser.arguments close what (fuel + 1) c = .ok (es, d)) :
    ∃ ts p, c.Reads (ts ++ [⟨.symbol close, p⟩]) d ∧ Derives .arguments ts es := by
  rw [Parser.arguments] at h
  split at h
  · rename_i hclose
    obtain ⟨p, hp⟩ := atSymbol_iff.mp hclose
    cases h
    exact ⟨[], p, ⟨hp, rfl⟩, .noArguments⟩
  · obtain ⟨⟨items, b⟩, hitems, h⟩ := Reading.bind_eq_ok.mp h
    obtain ⟨a, ha, h⟩ := Reading.bind_eq_ok.mp h
    cases h
    obtain ⟨ts, hts, hd⟩ := ih.expressions hitems
    obtain ⟨p, hp⟩ := expect_eq_ok.mp ha
    exact ⟨ts, p, hts.trans hp, .someArguments hd⟩

theorem expressions_step {es : List (Expr Unit)}
    (h : Parser.expressions (fuel + 1) c = .ok (es, d)) : Takes .expressions c es d := by
  obtain ⟨⟨e, b⟩, he, h⟩ := Reading.bind_eq_ok.mp h
  obtain ⟨ts, hts, hed⟩ := ih.expression he
  dsimp only at h
  split at h
  · rename_i hcomma
    obtain ⟨p, hp⟩ := atSymbol_iff.mp hcomma
    obtain ⟨⟨items, a⟩, hitems, h⟩ := Reading.bind_eq_ok.mp h
    cases h
    obtain ⟨us, hus, hd⟩ := ih.expressions hitems
    have hws : c.Reads (ts ++ ⟨.symbol .comma, p⟩ :: us) a := hts.trans ⟨hp, hus⟩
    exact ⟨_, hws, .nextExpr hed hd⟩
  · cases h
    exact ⟨ts, hts, .lastExpr hed⟩

theorem primary_step {e : Expr Unit} (h : Parser.primary (fuel + 1) c = .ok (e, d)) :
    Takes (.expr .primary) c e d := by
  rw [Parser.primary] at h
  split at h
  · rename_i hv
    cases h
    have hws := reads_of_peek hv
    rw [hws.spanFrom_singleton]
    exact ⟨_, hws, .number⟩
  · rename_i hv
    cases h
    have hws := reads_of_peek hv
    rw [hws.spanFrom_singleton]
    exact ⟨_, hws, .text⟩
  · rename_i hv
    cases h
    have hws := reads_of_peek hv
    rw [hws.spanFrom_singleton]
    exact ⟨_, hws, .trueWord⟩
  · rename_i hv
    cases h
    have hws := reads_of_peek hv
    rw [hws.spanFrom_singleton]
    exact ⟨_, hws, .falseWord⟩
  · rename_i hv
    cases h
    have hws := reads_of_peek hv
    rw [hws.spanFrom_singleton]
    exact ⟨_, hws, .nilWord⟩
  · rename_i hv
    cases h
    have hws := reads_of_peek hv
    rw [hws.spanFrom_eq (by simp)]
    exact ⟨_, hws, .reference .name⟩
  · rename_i hv
    obtain ⟨⟨x, b⟩, hx, h⟩ := Reading.bind_eq_ok.mp h
    cases h
    have hws := (reads_of_peek hv).trans (name_eq_ok.mp hx)
    rw [hws.spanFrom_eq (by simp)]
    exact ⟨_, hws, .reference .globalName⟩
  · rename_i hv
    obtain ⟨⟨inner, b⟩, hinner, h⟩ := Reading.bind_eq_ok.mp h
    obtain ⟨a, ha, h⟩ := Reading.bind_eq_ok.mp h
    cases h
    obtain ⟨ts, hts, hd⟩ := ih.expression hinner
    obtain ⟨q, hq⟩ := expect_eq_ok.mp ha
    have hws := (reads_of_peek hv).trans (hts.trans hq)
    rw [hws.spanFrom_eq (by simp)]
    exact ⟨_, hws, .group hd rfl⟩
  · rename_i hv
    obtain ⟨⟨items, b⟩, hitems, h⟩ := Reading.bind_eq_ok.mp h
    cases h
    obtain ⟨ts, q, hts, hd⟩ := ih.arguments hitems
    have hws := (reads_of_peek hv).trans hts
    rw [hws.spanFrom_eq (by simp)]
    exact ⟨_, hws, .array hd rfl⟩
  · rename_i hv
    obtain ⟨⟨params, a⟩, hparams, h⟩ := Reading.bind_eq_ok.mp h
    obtain ⟨⟨body, b⟩, hbody, h⟩ := Reading.bind_eq_ok.mp h
    cases h
    obtain ⟨q, ts, r, a₁, hts, hr, hpd⟩ := parameters_sound hparams
    obtain ⟨us, hus, hbd⟩ := ih.block hbody
    have hws := (reads_of_peek hv).trans (hts.trans (hr.trans hus))
    rw [hws.spanFrom_eq (by simp)]
    exact ⟨_, hws, .function hpd hbd rfl⟩
  · cases h

end SoundAt

/-- **Readers give what the grammar derives**, with any fuel. -/
theorem readers_sound (fuel : Nat) : SoundAt fuel := by
  induction fuel with
  | zero => constructor <;> intros <;> rename_i h <;> cases h
  | succ fuel ih =>
    exact {
      statements := ih.statements_step
      block := ih.block_step
      statement := ih.statement_step
      condStatement := ih.condStatement_step
      expression := ih.expression_step
      conditional := ih.conditional_step
      binary := ih.binary_step
      operand := ih.operand_step
      binaryTail := ih.binaryTail_step
      unary := ih.unary_step
      postfixTail := ih.postfixTail_step
      subscript := ih.subscript_step
      sliceStop := ih.sliceStop_step
      arguments := ih.arguments_step
      expressions := ih.expressions_step
      primary := ih.primary_step }

end Parser
end Scriptlet
