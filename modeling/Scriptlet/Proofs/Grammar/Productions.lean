import Scriptlet.Program.Parser

/-!
The grammar of programs as productions.

The table `Nonterminal.production` is the grammar that the parser is written after, rule by rule, with
one difference: anything may stand on the left side of an assignment. `Production.Matches p vs` says
that the tokens `vs` can be derived from the right side `p`, and `Production.Viable p vs` that they are
the beginning of such tokens. There are no trees and no places here.

Every production derives something (`Production.exists_matches`), so tokens that begin the first part of
a sequence begin the sequence (`Production.Viable.seq`). Which productions derive no tokens at all is
computed by `Production.nullable`.
-/
namespace Scriptlet

/-- The left sides of the productions. The levels of binary operators are one family. -/
inductive Nonterminal where
  | program | stmt | ifStmt | block | params
  | expr | ternary | chain (level : Level) | unary | suffixed | subscript | args | primary

/-- The right sides of productions. -/
inductive Production where
  | empty
  | keyword (k : Keyword)
  | symbol (s : Symbol)
  | number
  | text
  | name
  | phrase (n : Nonterminal)
  | seq (a b : Production)
  | either (a b : Production)
  | many (a : Production)

namespace Production

/-- One after the other. -/
def inOrder : List Production → Production
  | [] => .empty
  | a :: as => .seq a (inOrder as)

/-- One of several. -/
def oneOf (a : Production) : List Production → Production
  | [] => a
  | b :: bs => .either a (oneOf b bs)

def optional (a : Production) : Production :=
  .either a .empty

end Production

open Production (inOrder oneOf optional)

/-- The operators of a level. -/
def Level.symbols : Level → Production
  | or => .keyword .or_
  | and => .keyword .and_
  | equality => oneOf (.symbol .equal) [.symbol .notEqual]
  | comparison =>
    oneOf (.symbol .less) [.symbol .lessEqual, .symbol .greater, .symbol .greaterEqual]
  | sum => oneOf (.symbol .plus) [.symbol .minus]
  | product => oneOf (.symbol .star) [.symbol .slash, .symbol .percent]

/-- What stands between the operators of a level. -/
def Level.between (level : Level) : Production :=
  match level.tighter? with
  | some tighter => .phrase (.chain tighter)
  | none => .phrase .unary

/-- Items with commas between them, one at least. -/
def Production.items (a : Production) : Production :=
  inOrder [a, .many (inOrder [.symbol .comma, a])]

/-- Items with commas between them, none or more. -/
def Production.list (a : Production) : Production :=
  optional (items a)

/-- The grammar. The bounds of a range are sums, so that no comparison is taken for a part of them. -/
def Nonterminal.production : Nonterminal → Production
  | program => .many (.phrase .stmt)
  | stmt => oneOf (.phrase .ifStmt) [
      inOrder [.keyword .while_, .phrase .expr, .phrase .block],
      inOrder [.keyword .for_, .name, Level.comparison.symbols, .phrase (.chain .sum), .symbol .dots,
        .phrase (.chain .sum), .phrase .block],
      inOrder [.keyword .fn_, .name, .symbol .openParen, .phrase .params, .symbol .closeParen,
        .phrase .block],
      inOrder [.keyword .break_, .symbol .semicolon],
      inOrder [.keyword .continue_, .symbol .semicolon],
      inOrder [.keyword .return_, optional (.phrase .expr), .symbol .semicolon],
      .phrase .block,
      inOrder [.phrase .expr, .symbol .semicolon]]
  | ifStmt => inOrder [.keyword .if_, .phrase .expr, .phrase .block,
      optional (inOrder [.keyword .else_, oneOf (.phrase .ifStmt) [.phrase .block]])]
  | block => inOrder [.symbol .openBrace, .many (.phrase .stmt), .symbol .closeBrace]
  | params => .list .name
  | expr => inOrder [.phrase .ternary,
      optional (inOrder [oneOf (.symbol .assign) [.symbol .define], .phrase .expr])]
  | ternary => inOrder [.phrase (.chain .or),
      optional (inOrder [.symbol .question, .phrase .expr, .symbol .colon, .phrase .ternary])]
  | chain level => inOrder [level.between, .many (inOrder [level.symbols, level.between])]
  | unary => oneOf
      (inOrder [oneOf (.symbol .bang) [.keyword .not_, .symbol .minus, .symbol .plus,
        .keyword .typeof_, .symbol .dollar], .phrase .unary])
      [.phrase .suffixed]
  | suffixed => inOrder [.phrase .primary, .many (oneOf
      (inOrder [.symbol .openParen, .phrase .args, .symbol .closeParen])
      [inOrder [.symbol .openBracket, .phrase .subscript, .symbol .closeBracket]])]
  | subscript => oneOf (.phrase .expr)
      [inOrder [optional (.phrase .expr), .symbol .colon, optional (.phrase .expr)]]
  | args => .list (.phrase .expr)
  | primary => oneOf .number [.text, .keyword .true_, .keyword .false_, .keyword .nil_,
      inOrder [.keyword .global_, .name], .name,
      inOrder [.symbol .openParen, .phrase .expr, .symbol .closeParen],
      inOrder [.symbol .openBracket, .phrase .args, .symbol .closeBracket],
      inOrder [.keyword .fn_, .symbol .openParen, .phrase .params, .symbol .closeParen,
        .phrase .block]]

namespace Production

/-- The tokens can be derived from the production. -/
inductive Matches : Production → List Token → Prop
  | empty : Matches .empty []
  | keyword {k} : Matches (.keyword k) [.keyword k]
  | symbol {s} : Matches (.symbol s) [.symbol s]
  | number {x} : Matches .number [.number x]
  | text {s} : Matches .text [.text s]
  | name {x} : Matches .name [.name x]
  | phrase {n vs} (h : Matches n.production vs) : Matches (.phrase n) vs
  | seq {a b vs us} (ha : Matches a vs) (hb : Matches b us) : Matches (.seq a b) (vs ++ us)
  | left {a b vs} (h : Matches a vs) : Matches (.either a b) vs
  | right {a b vs} (h : Matches b vs) : Matches (.either a b) vs
  | none {a} : Matches (.many a) []
  | more {a vs us} (ha : Matches a vs) (hmore : Matches (.many a) us) : Matches (.many a) (vs ++ us)

/-- The tokens are the beginning of some that can be derived. -/
def Viable (p : Production) (vs : List Token) : Prop :=
  ∃ us, p.Matches (vs ++ us)

variable {a b c p : Production} {as : List Production} {vs us : List Token}

theorem Matches.oneOf (ha : a ∈ b :: as) (h : a.Matches vs) : (oneOf b as).Matches vs := by
  induction as generalizing b with
  | nil =>
    rw [List.mem_singleton.mp ha] at h
    exact h
  | cons d as ih =>
    rcases List.mem_cons.mp ha with rfl | ha
    · exact .left h
    · exact .right (ih ha)

theorem Matches.assoc (h : (Production.seq (.seq a b) c).Matches vs) :
    (Production.seq a (.seq b c)).Matches vs := by
  cases h with
  | seq hab hc =>
    cases hab with
    | seq ha hb =>
      rw [List.append_assoc]
      exact .seq ha (.seq hb hc)

theorem Matches.seq_mono (h : (Production.seq a b).Matches vs)
    (hac : ∀ us, a.Matches us → c.Matches us) : (Production.seq c b).Matches vs := by
  cases h with
  | seq ha hb => exact .seq (hac _ ha) hb

theorem Matches.last (h : a.Matches vs) : (Production.seq a .empty).Matches vs := by
  have hlast := h.seq .empty
  rwa [List.append_nil] at hlast

theorem Matches.of_last (h : (Production.seq a .empty).Matches vs) : a.Matches vs := by
  cases h with
  | seq ha hb =>
    cases hb with
    | empty => rwa [List.append_nil]

theorem Matches.next (h : (Production.seq a (.many a)).Matches vs) : (Production.many a).Matches vs := by
  cases h with
  | seq ha hmore => exact .more ha hmore

theorem Matches.inOrder_append {l m : List Production}
    (h : (Production.seq (inOrder l) (inOrder m)).Matches vs) : (inOrder (l ++ m)).Matches vs := by
  induction l generalizing vs with
  | nil =>
    cases h with
    | seq hl hm =>
      cases hl with
      | empty => exact hm
  | cons a l ih =>
    cases h.assoc with
    | seq ha hrest => exact .seq ha (ih hrest)

/-- The first item and the rest of a list. -/
theorem Matches.items
    (h : (inOrder [a, optional (inOrder [.symbol .comma, items a])]).Matches vs) :
    (items a).Matches vs := by
  cases h with
  | seq ha hrest =>
    refine .seq ha (Matches.last ?_)
    cases hrest.of_last with
    | right hempty =>
      cases hempty with
      | empty => exact .none
    | left hmore =>
      cases hmore with
      | seq hcomma hitems =>
        cases hitems.of_last with
        | seq hb hmany =>
          rw [← List.append_assoc]
          exact .more (.seq hcomma hb.last) hmany.of_last

/-- A subscript with a colon, before its closing bracket. -/
theorem Matches.slice (h : (inOrder [optional (.phrase .expr), .symbol .colon,
      optional (.phrase .expr), .symbol .closeBracket]).Matches vs) :
    (inOrder [.phrase .subscript, .symbol .closeBracket]).Matches vs := by
  cases h with
  | seq hstart h =>
    cases h with
    | seq hcolon h =>
      cases h with
      | seq hstop hclose =>
        have hslice := Matches.right (a := .phrase .expr) (.seq hstart (.seq hcolon hstop.last))
        have hall := (Matches.phrase (n := .subscript) hslice).seq hclose
        rwa [List.append_assoc, List.append_assoc] at hall

/-! ### Productions that derive no tokens -/

end Production

/-- Whether a phrase may have no tokens. -/
def Nonterminal.nullable : Nonterminal → Bool
  | program | params | args => true
  | _ => false

namespace Production

variable {a b c p : Production} {as : List Production} {vs us : List Token}

def nullable : Production → Bool
  | empty | many _ => true
  | phrase n => n.nullable
  | seq a b => a.nullable && b.nullable
  | either a b => a.nullable || b.nullable
  | _ => false

theorem nullable_production (n : Nonterminal) : n.production.nullable = n.nullable := by
  cases n with
  | chain level => cases level <;> rfl
  | _ => rfl

theorem nullable_of_matches_nil (h : p.Matches []) : p.nullable = true := by
  generalize hvs : ([] : List Token) = vs at h
  induction h with
  | empty | none | more => rfl
  | keyword | symbol | number | text | name => cases hvs
  | phrase _ ih => rw [nullable, ← nullable_production, ih hvs]
  | seq _ _ iha ihb =>
    obtain ⟨ha, hb⟩ := List.append_eq_nil_iff.mp hvs.symm
    rw [nullable, iha ha.symm, ihb hb.symm, Bool.and_self]
  | left _ ih => rw [nullable, ih hvs, Bool.true_or]
  | right _ ih => rw [nullable, ih hvs, Bool.or_true]

theorem Matches.ne_nil (h : p.Matches vs) (hp : p.nullable = false) : vs ≠ [] := by
  rintro rfl
  rw [nullable_of_matches_nil h] at hp
  cases hp

/-! ### Every production derives something -/

/-- What is derived between the operators of a level is derived as a chain of one. -/
theorem Matches.chain {level : Level} (h : level.between.Matches vs) :
    (Production.phrase (.chain level)).Matches vs := by
  have hchain := Matches.seq h (.seq (.none (a := inOrder [level.symbols, level.between])) .empty)
  rw [List.append_nil, List.append_nil] at hchain
  exact .phrase hchain

/-! The word `nil` is an expression of every form. -/

theorem matches_primary_nil : (phrase .primary).Matches [.keyword .nil_] :=
  .phrase (.oneOf (a := .keyword .nil_) (by simp) .keyword)

theorem matches_suffixed_nil : (phrase .suffixed).Matches [.keyword .nil_] :=
  .phrase (.seq matches_primary_nil (.seq .none .empty))

theorem matches_unary_nil : (phrase .unary).Matches [.keyword .nil_] :=
  .phrase (.right matches_suffixed_nil)

theorem matches_chain_nil (level : Level) : (phrase (.chain level)).Matches [.keyword .nil_] := by
  -- from the tightest level to the loosest
  have hproduct : (phrase (.chain .product)).Matches [.keyword .nil_] := .chain matches_unary_nil
  have hsum : (phrase (.chain .sum)).Matches [.keyword .nil_] := .chain hproduct
  have hcomparison : (phrase (.chain .comparison)).Matches [.keyword .nil_] := .chain hsum
  have hequality : (phrase (.chain .equality)).Matches [.keyword .nil_] := .chain hcomparison
  have hand : (phrase (.chain .and)).Matches [.keyword .nil_] := .chain hequality
  cases level with
  | or => exact .chain hand
  | _ => assumption

theorem matches_ternary_nil : (phrase .ternary).Matches [.keyword .nil_] :=
  .phrase (.seq (matches_chain_nil .or) (.seq (.right .empty) .empty))

theorem matches_expr_nil : (phrase .expr).Matches [.keyword .nil_] :=
  .phrase (.seq matches_ternary_nil (.seq (.right .empty) .empty))

theorem matches_block_nil : (phrase .block).Matches [.symbol .openBrace, .symbol .closeBrace] :=
  .phrase (.seq .symbol (.seq .none (.seq .symbol .empty)))

theorem exists_matches_phrase (n : Nonterminal) : ∃ vs, (phrase n).Matches vs := by
  cases n with
  | program => exact ⟨_, .phrase .none⟩
  | stmt => exact ⟨_, .phrase (.oneOf (by simp) matches_block_nil)⟩
  | ifStmt =>
    exact ⟨_, .phrase (.seq .keyword (.seq matches_expr_nil
      (.seq matches_block_nil (.seq (.right .empty) .empty))))⟩
  | block => exact ⟨_, matches_block_nil⟩
  | params | args => exact ⟨_, .phrase (.right .empty)⟩
  | expr => exact ⟨_, matches_expr_nil⟩
  | ternary => exact ⟨_, matches_ternary_nil⟩
  | chain level => exact ⟨_, matches_chain_nil level⟩
  | unary => exact ⟨_, matches_unary_nil⟩
  | suffixed => exact ⟨_, matches_suffixed_nil⟩
  | subscript => exact ⟨_, .phrase (.left matches_expr_nil)⟩
  | primary => exact ⟨_, matches_primary_nil⟩

theorem exists_matches (p : Production) : ∃ vs, p.Matches vs := by
  induction p with
  | empty => exact ⟨_, .empty⟩
  | keyword k => exact ⟨_, .keyword⟩
  | symbol s => exact ⟨_, .symbol⟩
  | number => exact ⟨_, .number (x := 0)⟩
  | text => exact ⟨_, .text (s := "")⟩
  | name => exact ⟨_, .name (x := "x")⟩
  | phrase n => exact exists_matches_phrase n
  | seq a b iha ihb =>
    obtain ⟨vs, ha⟩ := iha
    obtain ⟨us, hb⟩ := ihb
    exact ⟨_, .seq ha hb⟩
  | either a b iha _ =>
    obtain ⟨vs, ha⟩ := iha
    exact ⟨_, .left ha⟩
  | many a _ => exact ⟨_, .none⟩

/-! ### Tokens that begin something -/

theorem Viable.mono (h : a.Viable vs) (hab : ∀ us, a.Matches us → b.Matches us) : b.Viable vs := by
  obtain ⟨us, hus⟩ := h
  exact ⟨us, hab _ hus⟩

theorem viable_nil (p : Production) : p.Viable [] :=
  p.exists_matches

/-- What begins the first part of a sequence begins the sequence. -/
theorem Viable.seq (h : a.Viable vs) (b : Production) : (Production.seq a b).Viable vs := by
  obtain ⟨us, hus⟩ := h
  obtain ⟨ws, hws⟩ := b.exists_matches
  refine ⟨us ++ ws, ?_⟩
  rw [← List.append_assoc]
  exact .seq hus hws

/-- Behind the first part of a sequence, what begins the second part begins the sequence. -/
theorem Matches.seq_viable (ha : a.Matches vs) (hb : b.Viable us) :
    (Production.seq a b).Viable (vs ++ us) := by
  obtain ⟨ws, hws⟩ := hb
  refine ⟨ws, ?_⟩
  rw [List.append_assoc]
  exact .seq ha hws

end Production
end Scriptlet
