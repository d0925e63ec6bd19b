import Scriptlet.Proofs.Grammar.Locality
import Scriptlet.Proofs.Grammar.Refusals

/-!
Tokens are refused at the first one that does not fit.

Every reader is local (`Parser.readers_local`). This is one induction on the fuel, with a step lemma
for each reader that follows its production. Two places need care. Whether `fn` begins a definition is
decided by the token behind it, so the reader of an expression is known to pass an `fn` that it starts
with (`AtFunction`). And the left side of an assignment is checked when the right side has been read,
so two readings of the same tokens have to give expressions of the same form (`Expr.SameForm`).
-/
namespace Scriptlet

open Production (inOrder oneOf optional items)

/-! ### What can be assigned to -/

namespace Expr

def isName : Expr Unit → Bool
  | .name .. => true
  | _ => false

def isElement : Expr Unit → Bool
  | .index _ target _ => target.isName
  | _ => false

/-- Expressions that are both names, both elements of names, or neither. -/
def SameForm (e e' : Expr Unit) : Prop :=
  e.isName = e'.isName ∧ e.isElement = e'.isElement

theorem isSome_assignment? (e : Expr Unit) (p : Span) (constant : Bool) (value : Expr Unit) :
    (e.assignment? p constant value).isSome = (e.isName || e.isElement) := by
  cases e with
  | index _ target _ => cases target <;> rfl
  | _ => rfl

theorem SameForm.isSome_assignment? {e e' : Expr Unit} (h : e.SameForm e') (p p' : Span)
    (constant : Bool) (value value' : Expr Unit) :
    (e'.assignment? p' constant value').isSome = (e.assignment? p constant value).isSome := by
  rw [Expr.isSome_assignment?, Expr.isSome_assignment?, h.1, h.2]

theorem SameForm.of_assignment? {e e' a a' value value' : Expr Unit} {p p' : Span}
    {constant constant' : Bool} (h : e.assignment? p constant value = some a)
    (h' : e'.assignment? p' constant' value' = some a') : a.SameForm a' := by
  have hform : ∀ {e value a : Expr Unit} {p constant}, e.assignment? p constant value = some a →
      a.isName = false ∧ a.isElement = false := by
    intro e value a p constant h
    unfold assignment? at h
    split at h <;> cases h <;> exact ⟨rfl, rfl⟩
  exact ⟨(hform h).1.trans (hform h').1.symm, (hform h).2.trans (hform h').2.symm⟩

theorem SameForm.index {e e' : Expr Unit} (h : e.SameForm e') (p p' : Span) (i i' : Expr Unit) :
    (Expr.index p e i).SameForm (.index p' e' i') :=
  ⟨rfl, h.1⟩

end Expr

theorem Level.matches_symbols {level : Level} {v : Token} {op : BinaryOp}
    (h : level.operator? v = some op) : level.symbols.Matches [v] := by
  unfold operator? at h
  split at h
  case h_14 => cases h
  all_goals first | exact .keyword | exact .oneOf (by simp) .symbol

theorem UnaryOp.matches_of_ofToken? {v : Token} {op : UnaryOp} (h : ofToken? v = some op) :
    (oneOf (.symbol .bang) [.keyword .not_, .symbol .minus, .symbol .plus, .keyword .typeof_,
      .symbol .dollar]).Matches [v] := by
  unfold ofToken? at h
  split at h
  case h_7 => cases h
  all_goals first | exact .oneOf (by simp) .keyword | exact .oneOf (by simp) .symbol

theorem Token.matches_of_assigns? {v : Token} {constant : Bool} (h : v.assigns? = some constant) :
    (oneOf (.symbol .assign) [.symbol .define]).Matches [v] := by
  unfold assigns? at h
  split at h
  case h_3 => cases h
  all_goals exact .oneOf (by simp) .symbol

namespace Parser

open Reading (Local)

/-! ### Readers without fuel -/

/-- A list of names is a name and, behind a comma, a list of names. -/
theorem names_eq (c : Cursor) : names c.size c.previous c.rest = do
    let (x, d) ← c.name .parameter
    if d.atSymbol .comma then
      let (xs, e) ← names d.advance.size d.advance.previous d.advance.rest
      return (x :: xs, e)
    else
      return ([x], d) := by
  obtain ⟨size, last, rest⟩ := c
  cases rest with
  | nil => rfl
  | cons t rest =>
    obtain ⟨v, p⟩ := t
    cases v with
    | name x =>
      cases rest with
      | nil => rfl
      | cons u rest =>
        obtain ⟨v, q⟩ := u
        cases v with
        | symbol s => cases s <;> rfl
        | _ => rfl
    | _ => rfl

theorem names_local {ι : Type} {height : Nat} (c : Cursor) :
    Local (items .name) False height (fun _ _ => True)
      (fun (_ : ι) _ c' => names c'.size c'.previous c'.rest) c (names c.size c.previous c.rest) := by
  induction hn : c.rest.length using Nat.strongRecOn generalizing c ι height with
  | ind n ih =>
    subst hn
    rw [names_eq]
    refine .of_peek (fun _ _ c' _ => names_eq c') ?_
    refine (Local.bind .name rfl fun x d hd => .last ?_).mono fun _ => .items
    refine .ite (fun _ => Cursor.atSymbol_congr) (fun hcomma => ?_) fun _ => ?_
    · have hv := Cursor.peek_of_atSymbol hcomma
      have := Cursor.length_advance hv
      refine .mono (.assoc (.bind (.advance (g := fun _ _ _ d => names d.size d.previous d.rest) hv
        .symbol (ih _ (by omega) _ rfl)) rfl fun xs e _ => ?_)) fun _ => .left
      exact .done
    · exact .here (.right .empty) fun _ _ _ _ => ⟨_, rfl, trivial⟩

theorem parameters_local {ι : Type} {height : Nat} (c : Cursor) :
    Local (inOrder [.symbol .openParen, .phrase .params, .symbol .closeParen]) False height
      (fun _ _ => True) (fun (_ : ι) _ => parameters) c (parameters c) := by
  refine .expect fun _ => ?_
  refine .ite (fun _ => Cursor.atSymbol_congr) (fun hclose => ?_) fun _ => ?_
  · exact .close hclose (.phrase (.right .empty))
  · refine .mono (.bind (names_local _) rfl fun xs d _ => ?_)
      fun _ h => h.seq_mono fun _ h => .phrase (.left h)
    exact .expect fun _ => .done

theorem comparison_local {ι : Type} {height : Nat} (c : Cursor) :
    Local Level.comparison.symbols False height (fun _ _ => True) (fun (_ : ι) _ => comparison) c
      (comparison c) := by
  rw [comparison]
  split
  · rename_i op hop
    obtain ⟨v, hv, hop⟩ := Option.bind_eq_some_iff.mp hop
    refine .token hv (Level.matches_symbols hop) fun i fuel c' hv' => ⟨⟨op, c'.here⟩, ?_, trivial⟩
    simp [comparison, hv', hop]
  · rename_i hop
    refine .fail id fun i fuel c' hc => ?_
    simp [comparison, hc, hop]

/-- A statement of a keyword and a semicolon. -/
theorem jump_local {ι : Type} {height : Nat} {c : Cursor} {k : Keyword} (hk : c.peek = some (.keyword k))
    (jump : Span → Stmt Unit) (what : Expectation) :
    Local (inOrder [.keyword k, .symbol .semicolon]) False height (fun _ _ => True)
      (fun (_ : ι) _ c' => do
        let d ← c'.advance.expect .semicolon what
        return (jump (d.spanFrom c'.here), d)) c
      (do
        let d ← c.advance.expect .semicolon what
        return (jump (d.spanFrom c.here), d)) := by
  refine .advance (g := fun _ _ c' d => d.expect .semicolon what >>= fun d =>
    .ok (jump (d.spanFrom c'.here), d)) hk .keyword ?_
  exact .expect fun _ => .done

/-! ### Statements by their first tokens -/

/-- The reader of a statement is local at this cursor, whatever the statement is. -/
abbrev LocalStatement (fuel : Nat) (ι : Type) (height : Nat) (c : Cursor) : Prop :=
  Local (.phrase .stmt) False height (fun _ _ => True) (fun (_ : ι) fuel => statement (fuel + 1)) c
    (statement (fuel + 1) c)

theorem breakStatement_local {fuel height : Nat} {ι : Type} {c : Cursor}
    (hv : c.peek = some (.keyword .break_)) : LocalStatement fuel ι height c := by
  obtain ⟨p, ts, hrest⟩ := Cursor.rest_of_peek hv
  simp only [LocalStatement, statement, hrest]
  refine .of_rest hv (fun _ _ c' _ _ h => by simp only [h]; rfl) ?_
  exact .mono (jump_local hv .break .afterBreak) fun _ h => .phrase (.oneOf (by simp) h)

theorem continueStatement_local {fuel height : Nat} {ι : Type} {c : Cursor}
    (hv : c.peek = some (.keyword .continue_)) : LocalStatement fuel ι height c := by
  obtain ⟨p, ts, hrest⟩ := Cursor.rest_of_peek hv
  simp only [LocalStatement, statement, hrest]
  refine .of_rest hv (fun _ _ c' _ _ h => by simp only [h]; rfl) ?_
  exact .mono (jump_local hv .continue .afterContinue) fun _ h => .phrase (.oneOf (by simp) h)

/-- No other statement than an expression begins here. -/
def opensExpression (c : Cursor) : Bool :=
  match c.peek with
  | some (.keyword .if_) | some (.keyword .while_) | some (.keyword .for_)
  | some (.keyword .break_) | some (.keyword .continue_) | some (.keyword .return_)
  | some (.symbol .openBrace) => false
  | some (.keyword .fn_) =>
    match c.advance.peek with
    | some (.name _) => false
    | _ => true
  | _ => true

/-- The next token decides, or the one behind it if the next is `fn`. -/
theorem opensExpression_congr {c c' : Cursor} (hpeek : c'.peek = c.peek)
    (hnext : c.peek = some (.keyword .fn_) → c'.advance.peek = c.advance.peek) :
    opensExpression c' = opensExpression c := by
  unfold opensExpression
  rw [hpeek]
  by_cases hfn : c.peek = some (.keyword .fn_)
  · rw [hnext hfn]
  · cases hv : c.peek with
    | none => rfl
    | some v =>
      cases v with
      | keyword k =>
        cases k with
        | fn_ => exact absurd hv hfn
        | _ => rfl
      | symbol s => cases s <;> rfl
      | _ => rfl

theorem name_of_opensExpression {c : Cursor} (hv : c.peek = some (.keyword .fn_))
    (h : opensExpression c = false) : ∃ x, c.advance.peek = some (.name x) := by
  rw [opensExpression, hv] at h
  dsimp only at h
  split at h
  · rename_i x hx
    exact ⟨x, hx⟩
  · cases h

theorem statement_of_opensExpression {fuel : Nat} {c : Cursor} (h : opensExpression c = true) :
    statement (fuel + 1) c = do
      let (e, d) ← expression fuel c
      let d ← d.expect .semicolon .afterExpression
      return (.expr (d.spanFrom c.here) e, d) := by
  rw [statement]
  split
  case h_9 => rfl
  case h_4 hrest => simp [opensExpression, Cursor.peek, Cursor.advance, hrest] at h
  all_goals
    rename_i hrest
    simp [opensExpression, Cursor.peek, hrest] at h

/-! ### Readers with fuel -/

/-- With this fuel, the reader of a production is local wherever the tokens and `calls` calls are paid
for. -/
def LocalAt {α : Type} (fuel : Nat) (p : Production) (starts : Cursor → Prop) (calls : Nat)
    (Q : α → α → Prop) (read : Nat → Cursor → Reading (α × Cursor)) : Prop :=
  ∀ (ι : Type) (height : Nat) (c : Cursor), calls ≤ height → c.Fueled calls fuel →
    Local p (starts c) height Q (fun (_ : ι) => read) c (read fuel c)

/-- The same for a reader that continues an expression. The other readings may continue others, if the
result can be assigned to or not in the same cases. -/
def LocalTailAt (fuel : Nat) (p : Production) (calls : Nat)
    (read : Nat → Expr Unit → Cursor → Reading (Expr Unit × Cursor)) : Prop :=
  ∀ (ι : Type) (height : Nat) (e : Expr Unit) (c : Cursor) (es : ι → Cursor → Expr Unit),
    (∀ i c', e.SameForm (es i c')) → calls ≤ height → c.Fueled calls fuel →
    Local p False height Expr.SameForm (fun i fuel c' => read fuel (es i c') c') c (read fuel e c)

variable {α : Type} {fuel calls : Nat} {p : Production}

theorem LocalAt.zero {starts : Cursor → Prop} {Q : α → α → Prop}
    {read : Nat → Cursor → Reading (α × Cursor)} (h : 0 < calls) :
    LocalAt 0 p starts calls Q read := by
  intro ι height c _ hc
  omega

theorem LocalAt.succ {starts : Cursor → Prop} {Q : α → α → Prop}
    {read : Nat → Cursor → Reading (α × Cursor)}
    (h : ∀ (ι : Type) (height : Nat) (c : Cursor), calls ≤ height → c.Fueled calls fuel →
      Local p (starts c) height Q (fun (_ : ι) fuel => read (fuel + 1)) c (read (fuel + 1) c)) :
    LocalAt (fuel + 1) p starts (calls + 1) Q read := by
  intro ι height c hheight hc
  obtain ⟨height, rfl⟩ : ∃ k, height = k + 1 := ⟨height - 1, by omega⟩
  exact .succ (h ι height c (by omega) (by omega))

theorem LocalTailAt.zero {read : Nat → Expr Unit → Cursor → Reading (Expr Unit × Cursor)}
    (h : 0 < calls) : LocalTailAt 0 p calls read := by
  intro ι height e c es _ _ hc
  omega

theorem LocalTailAt.succ {read : Nat → Expr Unit → Cursor → Reading (Expr Unit × Cursor)}
    (h : ∀ (ι : Type) (height : Nat) (e : Expr Unit) (c : Cursor) (es : ι → Cursor → Expr Unit),
      (∀ i c', e.SameForm (es i c')) → calls ≤ height → c.Fueled calls fuel →
      Local p False height Expr.SameForm (fun i fuel c' => read (fuel + 1) (es i c') c') c
        (read (fuel + 1) e c)) :
    LocalTailAt (fuel + 1) p (calls + 1) read := by
  intro ι height e c es hes hheight hc
  obtain ⟨height, rfl⟩ : ∃ k, height = k + 1 := ⟨height - 1, by omega⟩
  exact .succ (h ι height e c es hes (by omega) (by omega))

/-- An expression that begins with `fn` is not refused there. -/
def AtFunction (c : Cursor) : Prop :=
  c.peek = some (.keyword .fn_)

/-- The readers are local with this fuel. The calls that one makes before it passes a token go down
the grammar. -/
structure LocalReaders (fuel : Nat) : Prop where
  statements (nested : Bool) : LocalAt fuel (.many (.phrase .stmt)) (fun _ => False) 18
    (fun _ _ => True) (statements nested)
  block : LocalAt fuel (.phrase .block) (fun _ => False) 1 (fun _ _ => True) block
  condStatement (ι : Type) (height : Nat) (c : Cursor) (hif : c.peek = some (.keyword .if_))
    (hheight : 1 ≤ height) (hc : c.Fueled 1 fuel) :
    Local (.phrase .ifStmt) False height (fun _ _ => True) (fun (_ : ι) => condStatement) c
      (condStatement fuel c)
  statement : LocalAt fuel (.phrase .stmt) (fun _ => False) 17 (fun _ _ => True) statement
  expression : LocalAt fuel (.phrase .expr) AtFunction 16 Expr.SameForm expression
  conditional : LocalAt fuel (.phrase .ternary) AtFunction 15 Expr.SameForm conditional
  binary (level : Level) : LocalAt fuel (.phrase (.chain level)) AtFunction (20 - 2 * level.rank)
    Expr.SameForm (binary level)
  operand (level : Level) : LocalAt fuel level.between AtFunction (19 - 2 * level.rank)
    Expr.SameForm (operand level)
  binaryTail (level : Level) :
    LocalTailAt fuel (.many (inOrder [level.symbols, level.between])) 1 (binaryTail level)
  unary : LocalAt fuel (.phrase .unary) AtFunction 2 Expr.SameForm unary
  postfixTail : LocalTailAt fuel (.many (oneOf
    (inOrder [.symbol .openParen, .phrase .args, .symbol .closeParen])
    [inOrder [.symbol .openBracket, .phrase .subscript, .symbol .closeBracket]])) 1 postfixTail
  subscript : LocalTailAt fuel (inOrder [.phrase .subscript, .symbol .closeBracket]) 17 subscript
  sliceStop : LocalAt fuel (inOrder [optional (.phrase .expr), .symbol .closeBracket])
    (fun _ => False) 17 (fun _ _ => True) sliceStop
  arguments (close : Symbol) (what : Expectation) :
    LocalAt fuel (inOrder [.phrase .args, .symbol close]) (fun _ => False) 18 (fun _ _ => True)
      (arguments close what)
  expressions : LocalAt fuel (items (.phrase .expr)) (fun _ => False) 17 (fun _ _ => True) expressions
  primary : LocalAt fuel (.phrase .primary) AtFunction 1 Expr.SameForm primary

namespace LocalReaders

variable {fuel : Nat} (ih : LocalReaders fuel)
include ih

theorem statements_step (nested : Bool) : LocalAt (fuel + 1) (.many (.phrase .stmt)) (fun _ => False)
    18 (fun _ _ => True) (Parser.statements nested) := by
  refine .succ fun ι height c hheight hc => ?_
  simp only [Parser.statements]
  refine .ite (fun c' hc' => ?_) (fun _ => ?_) fun _ => ?_
  · rw [Cursor.isEmpty_congr hc', Cursor.atSymbol_congr hc']
  · exact .here .none fun _ _ _ _ => ⟨_, rfl, trivial⟩
  · refine .mono (.bind (ih.statement ι height c hheight hc) rfl fun s d hd => ?_) fun _ => .next
    refine .mono (.bind_nullable (ih.statements nested _ _ d (by omega) (by omega)) fun ss e _ => ?_)
      fun _ => .of_last
    exact .done

theorem block_step :
    LocalAt (fuel + 1) (.phrase .block) (fun _ => False) 1 (fun _ _ => True) Parser.block := by
  refine .succ fun ι height c _ hc => .phrase ?_
  simp only [Parser.block]
  refine .expect fun hd => ?_
  refine .bind_nullable (ih.statements true _ _ c.advance (by omega) (by omega)) fun ss d _ => ?_
  exact .expect fun _ => .done

theorem expressions_step : LocalAt (fuel + 1) (items (.phrase .expr)) (fun _ => False) 17
    (fun _ _ => True) Parser.expressions := by
  refine .succ fun ι height c hheight hc => ?_
  simp only [Parser.expressions]
  refine .mono (.bind (ih.expression ι height c hheight hc).anyway rfl fun e d hd => .last ?_)
    fun _ => .items
  refine .ite (fun _ => Cursor.atSymbol_congr) (fun hcomma => ?_) fun _ => ?_
  · have hv := Cursor.peek_of_atSymbol hcomma
    have := Cursor.length_advance hv
    refine .mono (.assoc (.bind (.advance hv .symbol
      (ih.expressions _ _ d.advance (by omega) (by omega))) rfl fun es b _ => ?_)) fun _ => .left
    exact .done
  · exact .here (.right .empty) fun _ _ _ _ => ⟨_, rfl, trivial⟩

theorem arguments_step (close : Symbol) (what : Expectation) :
    LocalAt (fuel + 1) (inOrder [.phrase .args, .symbol close]) (fun _ => False) 18 (fun _ _ => True)
      (Parser.arguments close what) := by
  refine .succ fun ι height c hheight hc => ?_
  simp only [Parser.arguments]
  refine .ite (fun _ => Cursor.atSymbol_congr) (fun hclose => ?_) fun _ => ?_
  · exact .close hclose (.phrase (.right .empty))
  · refine .mono (.bind (ih.expressions ι height c hheight hc) rfl fun es d _ => ?_)
      fun _ h => h.seq_mono fun _ h => .phrase (.left h)
    exact .expect fun _ => .done

theorem sliceStop_step :
    LocalAt (fuel + 1) (inOrder [optional (.phrase .expr), .symbol .closeBracket]) (fun _ => False) 17
      (fun _ _ => True) Parser.sliceStop := by
  refine .succ fun ι height c hheight hc => ?_
  simp only [Parser.sliceStop]
  refine .ite (fun _ => Cursor.atSymbol_congr) (fun hclose => ?_) fun _ => ?_
  · exact .close hclose (.right .empty)
  · refine .mono (.bind (ih.expression ι height c hheight hc).anyway rfl fun e d _ => ?_)
      fun _ h => h.seq_mono fun _ => .left
    exact .expect fun _ => .done

theorem condStatement_step (ι : Type) (height : Nat) (c : Cursor) (hif : c.peek = some (.keyword .if_))
    (hheight : 1 ≤ height) (hc : c.Fueled 1 (fuel + 1)) :
    Local (.phrase .ifStmt) False height (fun _ _ => True) (fun (_ : ι) => Parser.condStatement) c
      (Parser.condStatement (fuel + 1) c) := by
  obtain ⟨height, rfl⟩ : ∃ k, height = k + 1 := ⟨height - 1, by omega⟩
  refine .succ (.phrase ?_)
  simp only [Parser.condStatement]
  have := Cursor.length_advance hif
  refine .assoc (.bind (.advance hif .keyword
    (ih.expression _ _ c.advance (by omega) (by omega)).anyway) rfl fun test d _ => ?_)
  refine .bind (ih.block _ _ d (by omega) (by omega)) rfl fun yes e _ => ?_
  refine .last (.ite (fun _ => Cursor.atKeyword_congr) (fun helse => ?_) fun _ => ?_)
  · have hv := Cursor.peek_of_atKeyword helse
    have := Cursor.length_advance hv
    -- the token behind `else` decides
    refine .mono (.advance (g := fun (i : Past (Past ι Expr.SameForm test) (fun _ _ => True) yes)
      fuel _ d =>
      if d.atKeyword .if_ then
        Parser.condStatement fuel d >>= fun x =>
          .ok (Stmt.cond (x.2.spanFrom i.index.start.here) i.index.val i.val (some [x.1]), x.2)
      else
        Parser.block fuel d >>= fun x =>
          .ok (Stmt.cond (x.2.spanFrom i.index.start.here) i.index.val i.val (some x.1), x.2))
      hv .keyword ?_) fun _ => .left
    refine .last (.ite (fun _ => Cursor.atKeyword_congr) (fun hif => ?_) fun _ => ?_)
    · have hif := Cursor.peek_of_atKeyword hif
      refine .mono (.bind (ih.condStatement _ _ e.advance hif (by omega) (by omega)) rfl
        fun no b _ => ?_) fun _ h => .left h.of_last
      exact .done
    · refine .mono (.bind (ih.block _ _ e.advance (by omega) (by omega)) rfl fun no b _ => ?_)
        fun _ h => .right h.of_last
      exact .done
  · exact .here (.right .empty) fun _ _ _ _ => ⟨_, rfl, trivial⟩

theorem conditional_step :
    LocalAt (fuel + 1) (.phrase .ternary) AtFunction 15 Expr.SameForm Parser.conditional := by
  refine .succ fun ι height c hheight hc => .phrase ?_
  simp only [Parser.conditional]
  refine .bind (ih.binary .or ι height c hheight hc) rfl fun test d hd => ?_
  refine .last (.ite (fun _ => Cursor.atSymbol_congr) (fun hquestion => ?_) fun _ => ?_)
  · have hv := Cursor.peek_of_atSymbol hquestion
    have := Cursor.length_advance hv
    refine .mono (.assoc (.bind (.advance hv .symbol
      (ih.expression _ _ d.advance (by omega) (by omega)).anyway) rfl fun yes e _ => ?_)) fun _ => .left
    refine .expect fun _ => ?_
    refine .bind (ih.conditional _ _ e.advance (by omega) (by omega)).anyway rfl fun no b _ => ?_
    exact .here .empty fun _ _ _ _ => ⟨_, rfl, rfl, rfl⟩
  · exact .here (.right .empty) fun i _ _ _ => ⟨_, rfl, i.same⟩

theorem binary_step (level : Level) : LocalAt (fuel + 1) (.phrase (.chain level)) AtFunction
    (20 - 2 * level.rank) Expr.SameForm (Parser.binary level) := by
  have hle := level.rank_le
  have hrank : 20 - 2 * level.rank = 19 - 2 * level.rank + 1 := by omega
  rw [hrank]
  refine .succ fun ι height c hheight hc => .phrase ?_
  simp only [Parser.binary]
  refine .bind (ih.operand level ι height c hheight hc) ?_ fun left d _ => .last ?_
  · cases level <;> rfl
  · exact ih.binaryTail level _ _ left d (fun i _ => Past.val i) (fun i _ => Past.same i) (by omega)
      (by omega)

theorem operand_step (level : Level) : LocalAt (fuel + 1) level.between AtFunction
    (19 - 2 * level.rank) Expr.SameForm (Parser.operand level) := by
  have hle := level.rank_le
  have hrank : 19 - 2 * level.rank = 18 - 2 * level.rank + 1 := by omega
  rw [hrank]
  refine .succ fun ι height c hheight hc => ?_
  simp only [Parser.operand]
  cases level with
  | product => exact ih.unary ι height c hheight hc
  | or => exact ih.binary .and ι height c hheight hc
  | and => exact ih.binary .equality ι height c hheight hc
  | equality => exact ih.binary .comparison ι height c hheight hc
  | comparison => exact ih.binary .sum ι height c hheight hc
  | sum => exact ih.binary .product ι height c hheight hc

theorem binaryTail_step (level : Level) : LocalTailAt (fuel + 1)
    (.many (inOrder [level.symbols, level.between])) 1 (Parser.binaryTail level) := by
  refine .succ fun ι height e d es hes _ hd => ?_
  simp only [Parser.binaryTail]
  cases hop : d.peek.bind level.operator? with
  | none =>
    refine .here .none fun i fuel d' hd' => ⟨es i d', ?_, hes i d'⟩
    simp only [hd', hop]
  | some op =>
    obtain ⟨v, hv, hop'⟩ := Option.bind_eq_some_iff.mp hop
    have hlength := Cursor.length_advance hv
    refine .of_peek (fun i fuel d' hd' => by simp only [hd', hop]; rfl) ?_
    have hrank := level.rank_le
    refine .mono (.bind (.advance hv (Level.matches_symbols hop')
      (ih.operand level _ _ d.advance (by omega) (by omega)).anyway) ?_ fun right b _ => ?_)
      fun _ h => .next (h.seq_mono fun _ h => h.last.assoc)
    · cases level <;> rfl
    · refine ih.binaryTail level _ _ _ b _ (fun i _ => ?_) ?_ ?_
      · exact ⟨rfl, rfl⟩
      · omega
      · omega

theorem unary_step :
    LocalAt (fuel + 1) (.phrase .unary) AtFunction 2 Expr.SameForm Parser.unary := by
  refine .succ fun ι height c hheight hc => .phrase ?_
  simp only [Parser.unary]
  cases hop : c.peek.bind UnaryOp.ofToken? with
  | none =>
    refine .of_peek (fun _ _ c' hc' => by simp only [hc', hop]; rfl)
      (.mono ?_ fun _ h => .right (.phrase h))
    refine .bind (ih.primary ι height c hheight hc) rfl fun e d _ => .last ?_
    exact ih.postfixTail _ _ e d (fun i _ => Past.val i) (fun i _ => Past.same i) (by omega) (by omega)
  | some op =>
    obtain ⟨v, hv, hop'⟩ := Option.bind_eq_some_iff.mp hop
    have hlength := Cursor.length_advance hv
    refine .of_peek (fun _ _ c' hc' => by simp only [hc', hop]; rfl) (.mono ?_ fun _ => .left)
    refine .assoc (.bind (.advance hv (UnaryOp.matches_of_ofToken? hop')
      (ih.unary _ _ c.advance (by omega) (by omega)).anyway) rfl fun e d _ => ?_)
    exact .here .empty fun _ _ _ _ => ⟨_, rfl, rfl, rfl⟩

theorem postfixTail_step : LocalTailAt (fuel + 1) (.many (oneOf
    (inOrder [.symbol .openParen, .phrase .args, .symbol .closeParen])
    [inOrder [.symbol .openBracket, .phrase .subscript, .symbol .closeBracket]])) 1
    Parser.postfixTail := by
  refine .succ fun ι height e d es hes _ hd => ?_
  simp only [Parser.postfixTail]
  refine .ite (fun _ => Cursor.atSymbol_congr) (fun hopen => ?_) fun _ =>
    .ite (fun _ => Cursor.atSymbol_congr) (fun hopen => ?_) fun _ => ?_
  · have hv := Cursor.peek_of_atSymbol hopen
    have := Cursor.length_advance hv
    refine .mono (.bind (.mono (.advance hv .symbol
      (ih.arguments .closeParen .argumentsEnd _ _ d.advance (by omega) (by omega))) fun _ => .left)
      ?_ ?_) fun _ => .next
    · rfl
    · intro args b _
      refine ih.postfixTail _ _ _ b _ (fun i _ => ?_) ?_ ?_
      · exact ⟨rfl, rfl⟩
      · omega
      · omega
  · have hv := Cursor.peek_of_atSymbol hopen
    have := Cursor.length_advance hv
    refine .mono (.bind (.mono (.advance
      (g := fun i fuel d' => Parser.subscript fuel (es i d')) hv .symbol
      (ih.subscript (ι × Cursor) _ e d.advance (fun i _ => es i.1 i.2) (fun i _ => hes i.1 i.2)
        (by omega) (by omega))) fun _ => .right) ?_ ?_) fun _ => .next
    · rfl
    · intro e b _
      refine ih.postfixTail _ _ e b _ (fun i _ => ?_) ?_ ?_
      · exact i.same
      · omega
      · omega
  · exact .here .none fun i _ d' _ => ⟨_, rfl, hes i d'⟩

theorem subscript_step : LocalTailAt (fuel + 1)
    (inOrder [.phrase .subscript, .symbol .closeBracket]) 17 Parser.subscript := by
  refine .succ fun ι height e d es hes hheight hd => ?_
  simp only [Parser.subscript]
  refine .ite (fun _ => Cursor.atSymbol_congr) (fun _ => ?_) fun _ =>
    .ite (fun _ => Cursor.atSymbol_congr) (fun hcolon => ?_) fun _ => ?_
  · exact .fail id fun _ _ _ _ => rfl
  · have hv := Cursor.peek_of_atSymbol hcolon
    have := Cursor.length_advance hv
    refine .mono (.bind (.advance hv .symbol (ih.sliceStop _ _ d.advance (by omega) (by omega))) rfl
      fun stop b _ => .here .empty fun _ _ _ _ => ⟨_, rfl, rfl, rfl⟩) fun _ h => ?_
    exact .slice (.seq (.right .empty) h.of_last)
  · -- whether this is an index or a slice is seen only behind the first expression
    refine .mono (p := .seq (.phrase .expr) (.either
      (inOrder [.symbol .colon, optional (.phrase .expr), .symbol .closeBracket])
      (inOrder [.symbol .closeBracket]))) ?_ fun _ h => ?_
    · refine .bind (ih.expression ι height d hheight hd).anyway rfl fun start b _ =>
        .ite (fun _ => Cursor.atSymbol_congr) (fun hcolon => ?_) fun _ => ?_
      · have hv := Cursor.peek_of_atSymbol hcolon
        have := Cursor.length_advance hv
        refine .mono (.bind (.advance hv .symbol (ih.sliceStop _ _ b.advance (by omega) (by omega)))
          rfl fun stop b _ => .here .empty fun _ _ _ _ => ⟨_, rfl, rfl, rfl⟩) fun _ h => .left h.of_last
      · refine .mono (.expect fun _ => .here .empty fun i _ _ _ => ⟨_, rfl, ?_⟩) fun _ => .right
        exact (hes _ _).index _ _ _ _
    · cases h with
      | seq hstart h =>
        cases h with
        | left h => exact .slice (.seq (.left hstart) h)
        | right h => exact .seq (.phrase (.left hstart)) h

theorem expression_step :
    LocalAt (fuel + 1) (.phrase .expr) AtFunction 16 Expr.SameForm Parser.expression := by
  refine .succ fun ι height c hheight hc => .phrase ?_
  simp only [Parser.expression]
  refine .bind (ih.conditional ι height c hheight hc) rfl fun target d hd => ?_
  cases hop : d.peek.bind Token.assigns? with
  | none =>
    refine .last (.here (.right .empty) fun i fuel d' hd' => ⟨i.val, ?_, i.same⟩)
    simp only [hd', hop]
    rfl
  | some constant =>
    obtain ⟨v, hv, hop'⟩ := Option.bind_eq_some_iff.mp hop
    have hlength := Cursor.length_advance hv
    refine .of_peek (fun i fuel d' hd' => by simp only [hd', hop]; rfl) (.last ?_)
    refine .mono (.assoc (.bind (.advance hv (Token.matches_of_assigns? hop')
      (ih.expression _ _ d.advance (by omega) (by omega)).anyway) rfl fun value e _ => ?_))
      fun _ => .left
    -- the targets can be assigned to or not in the same cases
    cases ha : target.assignment? (target.span.merge value.span) constant value with
    | none => exact .target
    | some assignment =>
      refine .here .empty fun i fuel e' _ => ?_
      have hsome := i.index.same.isSome_assignment? (target.span.merge value.span)
        (i.index.val.span.merge i.val.span) constant value i.val
      rw [ha, Option.isSome_some] at hsome
      obtain ⟨assignment', ha'⟩ := Option.isSome_iff_exists.mp hsome
      refine ⟨assignment', ?_, .of_assignment? ha ha'⟩
      dsimp only
      rw [ha']
      rfl

theorem primary_step :
    LocalAt (fuel + 1) (.phrase .primary) AtFunction 1 Expr.SameForm Parser.primary := by
  refine .succ fun ι height c hheight hc => .phrase ?_
  simp only [Parser.primary]
  split
  · rename_i x hv
    refine .token hv (.oneOf (by simp) .number) fun _ _ c' hv' =>
      ⟨.number (c'.advance.spanFrom c'.here) x, ?_, rfl, rfl⟩
    simp only [hv']
  · rename_i s hv
    refine .token hv (.oneOf (by simp) .text) fun _ _ c' hv' =>
      ⟨.text (c'.advance.spanFrom c'.here) s, ?_, rfl, rfl⟩
    simp only [hv']
  · rename_i hv
    refine .token hv (.oneOf (by simp) .keyword) fun _ _ c' hv' =>
      ⟨.bool (c'.advance.spanFrom c'.here) true, ?_, rfl, rfl⟩
    simp only [hv']
  · rename_i hv
    refine .token hv (.oneOf (by simp) .keyword) fun _ _ c' hv' =>
      ⟨.bool (c'.advance.spanFrom c'.here) false, ?_, rfl, rfl⟩
    simp only [hv']
  · rename_i hv
    refine .token hv (.oneOf (by simp) .keyword) fun _ _ c' hv' =>
      ⟨.nil (c'.advance.spanFrom c'.here), ?_, rfl, rfl⟩
    simp only [hv']
  · rename_i x hv
    refine .token hv (.oneOf (by simp) .name) fun _ _ c' hv' =>
      ⟨.name (c'.advance.spanFrom c'.here) false x, ?_, rfl, rfl⟩
    simp only [hv']
  · rename_i hv
    refine .of_peek (fun _ _ c' hc' => by simp only [hc', hv]; rfl)
      (.mono (p := inOrder [.keyword .global_, .name]) ?_ fun _ => .oneOf (by simp))
    refine .assoc (.bind (.advance (g := fun _ _ _ d => d.name .globalName) hv .keyword .name) rfl
      fun x d _ => ?_)
    exact .here .empty fun _ _ _ _ => ⟨_, rfl, rfl, rfl⟩
  · rename_i hv
    have := Cursor.length_advance hv
    refine .of_peek (fun _ _ c' hc' => by simp only [hc', hv]; rfl) (.mono
      (p := inOrder [.symbol .openParen, .phrase .expr, .symbol .closeParen]) ?_
      fun _ => .oneOf (by simp))
    refine .assoc (.bind (.advance hv .symbol
      (ih.expression _ _ c.advance (by omega) (by omega)).anyway) rfl fun e d _ => ?_)
    exact .expect fun _ => .here .empty fun _ _ _ _ => ⟨_, rfl, rfl, rfl⟩
  · rename_i hv
    have := Cursor.length_advance hv
    refine .of_peek (fun _ _ c' hc' => by simp only [hc', hv]; rfl) (.mono
      (p := inOrder [.symbol .openBracket, .phrase .args, .symbol .closeBracket]) ?_
      fun _ => .oneOf (by simp))
    refine .mono (.bind (.advance hv .symbol
      (ih.arguments .closeBracket .arrayEnd _ _ c.advance (by omega) (by omega))) rfl
      fun es d _ => .here .empty fun _ _ _ _ => ⟨_, rfl, rfl, rfl⟩) fun _ => .of_last
  · rename_i hv
    have := Cursor.length_advance hv
    refine .of_peek (fun _ _ c' hc' => by simp only [hc', hv]; rfl) (.mono
      (p := inOrder [.keyword .fn_, .symbol .openParen, .phrase .params, .symbol .closeParen,
        .phrase .block]) ?_ fun _ => .oneOf (by simp))
    refine .mono (.bind (.advance (g := fun _ _ _ => parameters) hv .keyword (parameters_local _)) rfl
      fun xs d _ => .bind (ih.block _ _ d (by omega) (by omega)) rfl
      fun body e _ => .here .empty fun _ _ _ _ => ⟨_, rfl, rfl, rfl⟩) fun _ h => ?_
    exact .inOrder_append (l := [.keyword .fn_, .symbol .openParen, .phrase .params,
      .symbol .closeParen]) (m := [.phrase .block]) h
  · rename_i h₁ h₂ h₃ h₄ h₅ h₆ h₇ h₈ h₉ h
    refine .fail h fun _ _ c' hc' => ?_
    simp only [hc']

section statement

variable {ι : Type} {height : Nat} {c : Cursor} (hheight : 16 ≤ height) (hc : c.Fueled 16 fuel)
include hheight hc

theorem ifStatement_step (hv : c.peek = some (.keyword .if_)) : LocalStatement fuel ι height c := by
  obtain ⟨p, ts, hrest⟩ := Cursor.rest_of_peek hv
  simp only [LocalStatement, Parser.statement, hrest]
  refine .of_rest hv (fun _ _ c' _ _ h => by simp only [h]; rfl) ?_
  exact .mono (ih.condStatement ι height c hv (by omega) (by omega)) fun _ h =>
    .phrase (.oneOf (by simp) h)

theorem whileStatement_step (hv : c.peek = some (.keyword .while_)) :
    LocalStatement fuel ι height c := by
  obtain ⟨p, ts, hrest⟩ := Cursor.rest_of_peek hv
  have := Cursor.length_advance hv
  simp only [LocalStatement, Parser.statement, hrest]
  refine .of_rest hv (fun _ _ c' _ _ h => by simp only [h]; rfl) (.mono
    (p := inOrder [.keyword .while_, .phrase .expr, .phrase .block]) ?_
    fun _ h => .phrase (.oneOf (by simp) h))
  refine .assoc (.bind (.advance hv .keyword
    (ih.expression _ _ c.advance (by omega) (by omega)).anyway) rfl fun test d _ => ?_)
  refine .bind (ih.block _ _ d (by omega) (by omega)) rfl fun body e _ => ?_
  exact .done

theorem rangeStatement_step (hv : c.peek = some (.keyword .for_)) :
    LocalStatement fuel ι height c := by
  obtain ⟨p, ts, hrest⟩ := Cursor.rest_of_peek hv
  have := Cursor.length_advance hv
  simp only [LocalStatement, Parser.statement, hrest]
  refine .of_rest hv (fun _ _ c' _ _ h => by simp only [h]; rfl) (.mono
    (p := inOrder [.keyword .for_, .name, Level.comparison.symbols, .phrase (.chain .sum),
      .symbol .dots, .phrase (.chain .sum), .phrase .block]) ?_
    fun _ h => .phrase (.oneOf (by simp) h))
  refine .assoc (.bind (.advance (g := fun _ _ _ d => d.name .loopVariable) hv .keyword .name) rfl
    fun x d₁ _ => ?_)
  refine .bind (comparison_local d₁) rfl fun cmp d₂ _ => ?_
  -- the bounds are sums, so a comparison does not become part of them
  have hsum : 20 - 2 * Level.sum.rank = 6 := rfl
  refine .bind (ih.binary .sum _ _ d₂ (by omega) (by omega)).anyway rfl fun first d₃ _ => ?_
  refine .expect fun _ => ?_
  refine .bind (ih.binary .sum _ _ d₃.advance (by omega) (by omega)).anyway rfl fun last d₄ _ => ?_
  refine .bind (ih.block _ _ d₄ (by omega) (by omega)) rfl fun body d₅ _ => ?_
  exact .done

theorem definition_step {x : String} (hv : c.peek = some (.keyword .fn_))
    (hx : c.advance.peek = some (.name x)) : LocalStatement fuel ι height c := by
  obtain ⟨p, q, ts, hrest⟩ := Cursor.rest_of_peeks hv hx
  have := Cursor.length_advance hv
  have := Cursor.length_advance hx
  simp only [LocalStatement, Parser.statement, hrest]
  refine .anyway (.of_peeks rfl (fun _ _ c' hv' (hx' : True → c'.advance.peek = c.advance.peek) => by
    obtain ⟨p, q, ts, h⟩ := Cursor.rest_of_peeks (hv'.trans hv) ((hx' trivial).trans hx)
    simp only [h]
    rfl) (.mono (p := inOrder [.keyword .fn_, .name, .symbol .openParen, .phrase .params,
      .symbol .closeParen, .phrase .block]) ?_ fun _ h => .phrase (.oneOf (by simp) h)))
  -- `fn` and the name are passed before anything is read
  refine .mono (.bind (.advance (g := fun _ _ _ d => parameters d.advance) hv .keyword
    (.advance (g := fun _ _ _ => parameters) hx .name (parameters_local _))) rfl fun xs d _ =>
    .bind (ih.block _ _ d (by omega) (by omega)) rfl
    fun body e _ => .done) fun _ h => ?_
  exact .inOrder_append (l := [.keyword .fn_, .name, .symbol .openParen, .phrase .params,
    .symbol .closeParen]) (m := [.phrase .block]) h

theorem returnStatement_step (hv : c.peek = some (.keyword .return_)) :
    LocalStatement fuel ι height c := by
  obtain ⟨p, ts, hrest⟩ := Cursor.rest_of_peek hv
  have := Cursor.length_advance hv
  simp only [LocalStatement, Parser.statement, hrest]
  refine .of_rest hv (fun _ _ c' _ _ h => by simp only [h]; rfl) (.mono
    (p := inOrder [.keyword .return_, optional (.phrase .expr), .symbol .semicolon]) ?_
    fun _ h => .phrase (.oneOf (by simp) h))
  -- the token behind `return` decides
  refine .advance (g := fun _ fuel c' d =>
    if d.atSymbol .semicolon then .ok (Stmt.return (d.advance.spanFrom c'.here) none, d.advance)
    else Parser.expression fuel d >>= fun x => x.2.expect .semicolon .afterReturn >>= fun d =>
      .ok (Stmt.return (d.spanFrom c'.here) (some x.1), d)) hv .keyword ?_
  refine .ite (fun _ => Cursor.atSymbol_congr) (fun hsemicolon => ?_) fun _ => ?_
  · exact .close hsemicolon (.right .empty)
  · refine .mono (.bind (ih.expression _ _ c.advance (by omega) (by omega)).anyway rfl
      fun e d _ => ?_) fun _ h => h.seq_mono fun _ => .left
    exact .expect fun _ => .done

theorem blockStatement_step (hv : c.peek = some (.symbol .openBrace)) :
    LocalStatement fuel ι height c := by
  obtain ⟨p, ts, hrest⟩ := Cursor.rest_of_peek hv
  simp only [LocalStatement, Parser.statement, hrest]
  refine .of_rest hv (fun _ _ c' _ _ h => by simp only [h]; rfl) ?_
  refine .mono (.bind (ih.block ι height c (by omega) (by omega)) rfl fun body d _ =>
    .done) fun _ h => .phrase (.oneOf (by simp) h.of_last)

/-- Behind `fn`, the next token decides that an expression begins; the reader of the expression is
known to pass the `fn`. -/
theorem expressionStatement_step (h : Parser.opensExpression c = true) : LocalStatement fuel ι height c := by
  rw [LocalStatement, Parser.statement_of_opensExpression h]
  refine .anyway (.of_peeks rfl (fun _ fuel c' hpeek hfn => Parser.statement_of_opensExpression
    ((Parser.opensExpression_congr hpeek hfn).trans h)) (.mono
      (p := inOrder [.phrase .expr, .symbol .semicolon]) ?_ fun _ h => .phrase (.oneOf (by simp) h)))
  refine .bind (ih.expression ι height c hheight hc) rfl fun e d _ => ?_
  exact .expect fun _ => .done

end statement

theorem statement_step : LocalAt (fuel + 1) (.phrase .stmt) (fun _ => False) 17 (fun _ _ => True)
    Parser.statement := by
  refine .succ fun ι height c hheight hc => ?_
  cases hv : c.peek with
  | none => exact ih.expressionStatement_step hheight hc (by rw [Parser.opensExpression, hv])
  | some v =>
    cases v with
    | keyword k =>
      cases k with
      | if_ => exact ih.ifStatement_step hheight hc hv
      | while_ => exact ih.whileStatement_step hheight hc hv
      | for_ => exact ih.rangeStatement_step hheight hc hv
      | break_ => exact breakStatement_local hv
      | continue_ => exact continueStatement_local hv
      | return_ => exact ih.returnStatement_step hheight hc hv
      | fn_ =>
        cases hopens : Parser.opensExpression c with
        | true => exact ih.expressionStatement_step hheight hc hopens
        | false =>
          obtain ⟨x, hx⟩ := Parser.name_of_opensExpression hv hopens
          exact ih.definition_step hheight hc hv hx
      | _ => exact ih.expressionStatement_step hheight hc (by rw [Parser.opensExpression, hv])
    | symbol s =>
      cases s with
      | openBrace => exact ih.blockStatement_step hheight hc hv
      | _ => exact ih.expressionStatement_step hheight hc (by rw [Parser.opensExpression, hv])
    | _ => exact ih.expressionStatement_step hheight hc (by rw [Parser.opensExpression, hv])

end LocalReaders

theorem readers_local (fuel : Nat) : LocalReaders fuel := by
  induction fuel with
  | zero =>
    -- without fuel there is none for even one call
    have hrank : ∀ level : Level, level.rank ≤ 8 := Level.rank_le
    exact {
      statements := fun _ => .zero (by decide)
      block := .zero (by decide)
      condStatement := fun _ _ _ _ _ hc => absurd hc (by omega)
      statement := .zero (by decide)
      expression := .zero (by decide)
      conditional := .zero (by decide)
      binary := fun level => .zero (by have := hrank level; omega)
      operand := fun level => .zero (by have := hrank level; omega)
      binaryTail := fun _ => .zero (by decide)
      unary := .zero (by decide)
      postfixTail := .zero (by decide)
      subscript := .zero (by decide)
      sliceStop := .zero (by decide)
      arguments := fun _ _ => .zero (by decide)
      expressions := .zero (by decide)
      primary := .zero (by decide) }
  | succ fuel ih =>
    exact {
      statements := ih.statements_step
      block := ih.block_step
      condStatement := ih.condStatement_step
      statement := ih.statement_step
      expression := ih.expression_step
      conditional := ih.conditional_step
      binary := ih.binary_step
      operand := ih.operand_step
      binaryTail := ih.binaryTail_step
      unary := ih.unary_step
      postfixTail := ih.postfixTail_step
      subscript := ih.subscript_step
      sliceStop := ih.sliceStop_step
      arguments := ih.arguments_step
      expressions := ih.expressions_step
      primary := ih.primary_step }

end Parser

/-! ### Refused programs -/

namespace Cursor

variable {c d : Cursor} {vs : List Token}

theorem Passes.eq_take (h : c.Passes vs d) :
    vs = (c.rest.take vs.length).map (·.val) ∧ d.rest = c.rest.drop vs.length ∧ d.size = c.size := by
  obtain ⟨ts, rfl, hts⟩ := passes_iff.mp h
  rw [hts.rest_eq, List.length_map, List.take_left, List.drop_left]
  exact ⟨rfl, rfl, hts.size_eq⟩

theorem exists_passes (c : Cursor) (n : Nat) :
    ∃ d, c.Passes ((c.rest.take n).map (·.val)) d ∧ d.rest = c.rest.drop n := by
  obtain ⟨d, hd, hrest⟩ := c.exists_reads _ _ (List.take_append_drop n c.rest).symm
  exact ⟨d, passes_iff.mpr ⟨_, rfl, hd⟩, hrest⟩

/-- The same first tokens are passed, and the one behind them is seen. -/
theorem exists_passes_of_take (c : Cursor) {ts : List (Located Token)} {n : Nat}
    (h : (c.rest.take (n + 1)).map (·.val) = (ts.take (n + 1)).map (·.val)) :
    ∃ d, c.Passes ((ts.take n).map (·.val)) d ∧ d.rest = c.rest.drop n ∧
      c.rest[n]?.map (·.val) = ts[n]?.map (·.val) := by
  obtain ⟨d, hpasses, hrest⟩ := c.exists_passes n
  have htake : (c.rest.take n).map (·.val) = (ts.take n).map (·.val) := by
    have hfirst := congrArg (List.take n) h
    rwa [← List.map_take, ← List.map_take, List.take_take, List.take_take,
      Nat.min_eq_left (Nat.le_succ n)] at hfirst
  have hget : c.rest[n]?.map (·.val) = ts[n]?.map (·.val) := by
    have hnext := congrArg (fun ws => ws[n]?) h
    simpa using hnext
  rw [htake] at hpasses
  exact ⟨d, hpasses, hrest, hget⟩

theorem peek_of_drop {ts : List (Located Token)} {n : Nat} (h : c.rest = ts.drop n) :
    c.peek = ts[n]?.map (·.val) := by
  rw [peek, h, List.head?_drop]

theorem here_of_drop {ts : List (Located Token)} {n : Nat} (h : c.rest = ts.drop n) :
    c.here = (ts[n]?.map (·.span)).getD ⟨c.size, c.size⟩ := by
  rw [← List.head?_drop, ← h, here]
  cases c.rest <;> rfl

end Cursor

theorem Program.ofTokens_eq_error_of_statements {size : Nat} {ts : List (Located Token)}
    {e : ParseError} :
    Program.ofTokens size ts = .error e ↔
      Parser.statements false (32 * (ts.length + 1)) ⟨size, ⟨0, 0⟩, ts⟩ = .error e := by
  rw [Program.ofTokens]
  cases Parser.statements false (32 * (ts.length + 1)) ⟨size, ⟨0, 0⟩, ts⟩ with
  | error e' => exact ⟨fun h => congrArg Except.error (Except.error.inj h),
      fun h => congrArg Except.error (Except.error.inj h)⟩
  | ok x => exact ⟨nofun, nofun⟩

/-- **Tokens are refused at the first one that does not fit.** If something else is expected at the
token in position `p`, or at the end, then the tokens before it are the beginning of a program, as the
grammar has it that lets anything be assigned to. And all tokens that begin with the same ones, up to
and with that token, are refused there with the same message. -/
theorem Program.refused_at_first (size : Nat) (ts : List (Located Token)) (what : Expectation)
    (found : Option Token) (span : Span)
    (h : Program.ofTokens size ts = .error ⟨.expected what found, span⟩) :
    ∃ p ≤ ts.length, found = ts[p]?.map (·.val) ∧ span = (ts[p]?.map (·.span)).getD ⟨size, size⟩ ∧
      (∃ us, (Production.phrase .program).Matches ((ts.take p).map (·.val) ++ us)) ∧
      (p < ts.length → ∀ size' us, (us.take (p + 1)).map (·.val) = (ts.take (p + 1)).map (·.val) →
        ∃ e, Program.ofTokens size' us = .error e ∧ us[p]?.map (·.span) = some e.span ∧
          e.message = ParseError.message ⟨.expected what found, span⟩) := by
  have hread := Program.ofTokens_eq_error_of_statements.mp h
  have hlocal := (Parser.readers_local (32 * (ts.length + 1))).statements false Unit 18 ⟨size, ⟨0, 0⟩, ts⟩
    (Nat.le_refl 18) (by show 32 * ts.length + 18 ≤ 32 * (ts.length + 1); omega)
  rw [hread] at hlocal
  cases hlocal with
  | @refused what d vs passes viable moves same =>
    -- the refused token is behind those that were passed
    obtain ⟨hvs, hrest, hsize⟩ := passes.eq_take
    have hpeek := Cursor.peek_of_drop hrest
    have hlength := passes.length_eq
    refine ⟨vs.length, Nat.le.intro (hlength.trans (Nat.add_comm _ _)).symm, hpeek, ?_, ?_, ?_⟩
    · rw [Cursor.here_of_drop hrest, hsize]
    · obtain ⟨us, hus⟩ := viable
      rw [← hvs]
      exact ⟨us, .phrase hus⟩
    · -- the cursor behind the same tokens of another source sees the same token
      intro hlt size' us hus
      obtain ⟨d', hpasses, hrest', hget⟩ := Cursor.exists_passes_of_take ⟨size', ⟨0, 0⟩, us⟩ hus
      rw [← hvs] at hpasses
      have hsees : d'.peek = d.peek := by
        rw [Cursor.peek_of_drop hrest', hpeek, hget]
      have hrefused := same () (32 * (us.length + 1)) ⟨size', ⟨0, 0⟩, us⟩ d'
        (by show 32 * us.length + 18 ≤ 32 * (us.length + 1); omega) hpasses hsees
      refine ⟨_, Program.ofTokens_eq_error_of_statements.mpr hrefused, ?_, ?_⟩
      · have hsome : us[vs.length]?.isSome := by
          rw [← Option.isSome_map, hget]
          simp [hlt]
        rw [Cursor.here_of_drop hrest']
        obtain ⟨t, ht⟩ := Option.isSome_iff_exists.mp hsome
        rw [ht]
        rfl
      · rw [hsees]
        rfl

/-- The tokens of `nil = )` are refused at the parenthesis, before the target is looked at, and so is
all that begins with them. -/
theorem Program.refused_at_first_value :
    Program.ofTokens 7 [⟨.keyword .nil_, ⟨0, 3⟩⟩, ⟨.symbol .assign, ⟨4, 5⟩⟩,
        ⟨.symbol .closeParen, ⟨6, 7⟩⟩] =
      .error ⟨.expected .expression (some (.symbol .closeParen)), ⟨6, 7⟩⟩ ∧
    (∃ us, (Production.phrase .program).Matches ([.keyword .nil_, .symbol .assign] ++ us)) ∧
    ∀ size us, (us.take 3).map (·.val) = [.keyword .nil_, .symbol .assign, .symbol .closeParen] →
      ∃ e, Program.ofTokens size us = .error e ∧ e.message = "expected expression, found `)`" := by
  have hrefused : Program.ofTokens 7 [⟨.keyword .nil_, ⟨0, 3⟩⟩, ⟨.symbol .assign, ⟨4, 5⟩⟩,
      ⟨.symbol .closeParen, ⟨6, 7⟩⟩] =
    .error ⟨.expected .expression (some (.symbol .closeParen)), ⟨6, 7⟩⟩ := rfl
  obtain ⟨p, hp, hfound, -, hviable, hsame⟩ := Program.refused_at_first _ _ _ _ _ hrefused
  obtain rfl : p = 2 := by
    rcases p with _ | _ | _ | p
    · cases hfound
    · cases hfound
    · rfl
    · simp at hfound
  refine ⟨hrefused, hviable, fun size us hus => ?_⟩
  obtain ⟨e, he, -, hmessage⟩ := hsame (by decide) size us hus
  exact ⟨e, he, hmessage⟩

end Scriptlet
