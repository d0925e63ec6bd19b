import Scriptlet.Proofs.Pointing

/-!
The places of a program are exact and nested.

The parts of a program that have a place of their own are its statements and expressions, the
parameters of its functions, and the variable and the comparison of its range loops (`Part`).
`Part.ReadFrom q us` says that `us` are the tokens that the part `q` was read from, by the grammar
and with no token left out. The declaration of a function is read as a statement, an assignment and a
function, all from the same tokens.

The parts that lie directly in a part are read from tokens that stand in the same order among its own
(`Part.ReadFrom.stands`), so every part of a program is read from a stretch of its tokens
(`Program.Has.readFrom`). As the tokens of a source follow each other, a part spans the tokens that it was
read from, although its place was merged from those of smaller parts (`Part.ReadFrom.span_eq`). So spans
are nested and ordered as the stretches are: this is `Program.spans_nested`.
-/
namespace Scriptlet

/-! ### Parts -/

/-- The parts of a program that have a place of their own. -/
inductive Part where
  | stmt (s : Stmt Unit)
  | expr (e : Expr Unit)
  /-- A parameter, or the variable of a range loop. -/
  | name (x : Located String)
  /-- The comparison of a range loop. -/
  | comparison (op : Located BinaryOp)

namespace Part

def span : Part → Span
  | .stmt s => s.span
  | .expr e => e.span
  | .name x => x.span
  | .comparison op => op.span

/-- The parts that lie directly in a part, in the order of the source. -/
def parts : Part → List Part
  | .stmt s =>
    match s with
    | .expr _ e => [.expr e]
    | .block _ body => body.map .stmt
    | .cond _ test yes no => .expr test :: (yes.map .stmt ++ (no.getD []).map .stmt)
    | .while _ test body => .expr test :: body.map .stmt
    | .range _ x cmp first last body =>
      .name x :: .comparison cmp :: .expr first :: .expr last :: body.map .stmt
    | .break _ | .continue _ => []
    | .return _ value => value.toList.map .expr
  | .expr e =>
    match e with
    | .number _ _ | .text _ _ | .bool _ _ | .nil _ | .name _ _ _ => []
    | .array _ items => items.map .expr
    | .group _ inner => [.expr inner]
    | .binary _ _ left right => [.expr left, .expr right]
    | .unary _ _ operand => [.expr operand]
    | .conditional _ test yes no => [.expr test, .expr yes, .expr no]
    | .call _ callee args => .expr callee :: args.map .expr
    | .index _ target i => [.expr target, .expr i]
    | .slice _ target start stop =>
      .expr target :: (start.toList.map .expr ++ stop.toList.map .expr)
    | .assign _ _ _ _ value => [.expr value]
    | .assignIndex _ _ _ _ i value => [.expr i, .expr value]
    | .function _ _ params body => params.map .name ++ body.map .stmt
  | .name _ | .comparison _ => []

end Part

/-- The parts of a program: its statements, and what lies in them at any depth. -/
inductive Program.Has (p : Program) : Part → Prop
  | top {s : Stmt Unit} (h : s ∈ p.body) : p.Has (.stmt s)
  | inside {q r : Part} (hq : p.Has q) (hr : r ∈ q.parts) : p.Has r

/-! ### Tokens of parts -/

/-- The tokens declare a function with this name, these parameters and this body. -/
inductive Declares (x : String) (xs : List (Located String)) (ss : Block Unit) :
    List (Located Token) → Prop
  | mk {ts us : List (Located Token)} {p q r v : Span} (params : Derives .parameters ts xs)
      (body : Derives .block us ss) :
      Declares x xs ss (⟨.keyword .fn_, p⟩ :: ⟨.name x, q⟩ :: ⟨.symbol .openParen, r⟩ ::
        (ts ++ ⟨.symbol .closeParen, v⟩ :: us))

/-- The function that tokens declare. -/
def declared (us : List (Located Token)) (xs : List (Located String)) (ss : Block Unit) :
    Expr Unit :=
  .function (.across us) () xs ss

/-- The assignment that stands for a declaration. -/
def declaration (us : List (Located Token)) (x : String) (xs : List (Located String))
    (ss : Block Unit) : Expr Unit :=
  .assign (.across us) false true x (declared us xs ss)

/-- The tokens that a part was read from, all of them. -/
inductive Part.ReadFrom : Part → List (Located Token) → Prop
  | stmt {s us} (h : Derives .statement us s) : ReadFrom (.stmt s) us
  | expr {e form us} (h : Derives (.expr form) us e) : ReadFrom (.expr e) us
  | declaration {x xs ss us} (h : Declares x xs ss us) :
      ReadFrom (.expr (declaration us x xs ss)) us
  | declared {x xs ss us} (h : Declares x xs ss us) : ReadFrom (.expr (declared us xs ss)) us
  | name {x p} : ReadFrom (.name ⟨x, p⟩) [⟨.name x, p⟩]
  | comparison {t op} (h : Level.comparison.operator? t.val = some op) :
      ReadFrom (.comparison ⟨op, t.span⟩) [t]

/-- The parts are read from tokens that stand in this order among these. -/
inductive Stands : List (Located Token) → List Part → Prop
  | nil {ts} : Stands ts []
  | skip {t ts qs} (h : Stands ts qs) : Stands (t :: ts) qs
  | cons {us ts q qs} (hq : q.ReadFrom us) (h : Stands ts qs) : Stands (us ++ ts) (q :: qs)

namespace Stands

variable {ts us : List (Located Token)} {q : Part} {qs rs : List Part}

theorem single (hq : q.ReadFrom us) : Stands us [q] := by
  have h : Stands (us ++ []) [q] := .cons hq .nil
  rwa [List.append_nil] at h

theorem left (h : Stands us qs) (ts : List (Located Token)) : Stands (ts ++ us) qs := by
  induction ts with
  | nil => exact h
  | cons t ts ih => exact .skip ih

theorem append (h : Stands ts qs) (h' : Stands us rs) : Stands (ts ++ us) (qs ++ rs) := by
  induction h with
  | @nil ts => exact h'.left ts
  | skip _ ih => exact .skip ih
  | cons hq _ ih =>
    rw [List.append_assoc]
    exact .cons hq ih

theorem right (h : Stands ts qs) (us : List (Located Token)) : Stands (ts ++ us) qs := by
  have happend : Stands (ts ++ us) (qs ++ []) := h.append .nil
  rwa [List.append_nil] at happend

end Stands

/-- What lies in a phrase stands among its tokens. -/
def Phrase.Stands (ts : List (Located Token)) : (n : Phrase) → n.Tree → Prop
  | .statements, ss | .block, ss => Scriptlet.Stands ts (ss.map .stmt)
  | .statement, s | .condStatement, s => Scriptlet.Stands ts (Part.stmt s).parts
  | .parameters, xs | .names, xs => Scriptlet.Stands ts (xs.map .name)
  | .reference, _ => True
  | .expr _, e => Scriptlet.Stands ts (Part.expr e).parts
  | .optional, e => Scriptlet.Stands ts (e.toList.map .expr)
  | .arguments, es | .expressions, es => Scriptlet.Stands ts (es.map .expr)

/-- One case for each rule: the parts of the tree are in the order of the rule. -/
theorem Derives.stands {n : Phrase} {ts : List (Located Token)} {t : n.Tree} (h : Derives n ts t) :
    n.Stands ts t := by
  induction h with
  | done | noParameters | absent | noArguments => exact .nil
  | name | globalName => trivial
  | number | text | trueWord | falseWord | nilWord | reference | «break» | «continue» => exact .nil
  | cond _ ih | someParameters _ ih | plain _ ih | unconditional _ ih | operand _ ih
  | suffixed _ ih | primary _ ih | someArguments _ ih | nested _ ih => exact ih
  | next first _ _ ih => exact .cons (.stmt first) ih
  | block _ ih => exact .skip (ih.right _)
  | condOnly test _ split _ ih =>
    subst split
    refine .skip (.cons (.expr test) ?_)
    rw [Option.getD_none, List.map_nil, List.append_nil]
    exact ih
  | condElse test _ _ split _ ih ih' =>
    subst split
    exact .skip (.cons (.expr test) (ih.append (.skip ih')))
  | condElseIf test _ no split _ ih _ =>
    subst split
    exact .skip (.cons (.expr test) (ih.append (.skip (.single (.stmt (.cond no))))))
  | «while» test _ split _ ih =>
    subst split
    exact .skip (.cons (.expr test) ih)
  | @range ws ts us vs x cmp op e d ss p q r compares first last _ split _ _ ih =>
    subst split
    have hbounds : Scriptlet.Stands (ts ++ ⟨.symbol .dots, r⟩ :: (us ++ vs))
        (.expr e :: .expr d :: ss.map .stmt) :=
      .cons (.expr first) (.skip (.cons (.expr last) ih))
    have hhead := Scriptlet.Stands.cons (.name (x := x) (p := q)) (.cons (.comparison compares) hbounds)
    exact .skip hhead
  | define params body split =>
    subst split
    exact .single (.declaration (.mk params body))
  | «return» _ split ih =>
    subst split
    exact .skip (ih.right _)
  | expr expr split =>
    subst split
    exact .cons (.expr expr) .nil
  | lastName => exact .single .name
  | @nextName ts x xs p q _ ih =>
    have htail := Scriptlet.Stands.cons (.name (x := x) (p := p)) (.skip (t := ⟨.symbol .comma, q⟩) ih)
    exact htail
  | assign _ _ value split =>
    subst split
    exact .left (.skip (.single (.expr value))) _
  | assignIndex _ index _ value split =>
    subst split
    exact .left (.skip (.cons (.expr index) (.skip (.skip (.single (.expr value)))))) _
  | conditional test yes no split =>
    subst split
    exact .cons (.expr test) (.skip (.cons (.expr yes) (.skip (.single (.expr no)))))
  | binary left _ right split =>
    subst split
    exact .cons (.expr left) (.skip (.single (.expr right)))
  | unary _ operand split =>
    subst split
    exact .skip (.single (.expr operand))
  | call callee _ split _ ih =>
    subst split
    exact .cons (.expr callee) (.skip (ih.right _))
  | index target index split =>
    subst split
    exact .cons (.expr target) (.skip (.cons (.expr index) .nil))
  | slice target _ _ split _ ih ih' =>
    subst split
    exact .cons (.expr target) (.skip (ih.append (.skip (ih'.right _))))
  | group inner split =>
    subst split
    exact .skip (.cons (.expr inner) .nil)
  | array _ split ih =>
    subst split
    exact .skip (ih.right _)
  | function _ _ split ih ih' =>
    subst split
    exact .skip (.skip (ih.append (.skip ih')))
  | present expr => exact .single (.expr expr)
  | lastExpr expr => exact .single (.expr expr)
  | nextExpr expr _ _ ih => exact .cons (.expr expr) (.skip ih)

/-! ### The spans of parts -/

namespace Part.ReadFrom

variable {q : Part} {us : List (Located Token)}

theorem ne_nil (h : q.ReadFrom us) : us ≠ [] := by
  cases h with
  | stmt h =>
    obtain ⟨t, ts, rfl, -⟩ := h.opens
    exact List.cons_ne_nil t ts
  | expr h => exact h.expr_ne_nil
  | declaration h | declared h =>
    cases h
    exact List.cons_ne_nil _ _
  | name | comparison => exact List.cons_ne_nil _ _

/-- A part spans the tokens that it was read from. -/
theorem span_eq (h : q.ReadFrom us) (horder : InOrder us) : q.span = .over us := by
  cases h with
  | stmt h => exact h.spans horder
  | expr h => exact h.spans horder
  | declaration h | declared h =>
    cases h
    exact horder.across_eq (List.cons_ne_nil _ _)
  | name | comparison => rfl

/-- The parts that lie in a part are read from some of its tokens, in their order. -/
theorem stands (h : q.ReadFrom us) : Stands us q.parts := by
  cases h with
  | stmt h => exact h.stands
  | expr h => exact h.stands
  | declaration h => exact .single (.declared h)
  | declared h =>
    cases h with
    | mk params body => exact .skip (.skip (.skip (params.stands.append (.skip body.stands))))
  | name | comparison => exact .nil

end Part.ReadFrom

/-- One of the parts is read from a stretch of the tokens. -/
theorem Stands.readFrom {ts : List (Located Token)} {qs : List Part} (h : Stands ts qs) {q : Part}
    (hq : q ∈ qs) : ∃ us, Stretch ts us ∧ q.ReadFrom us := by
  induction h with
  | nil => cases hq
  | skip _ ih =>
    obtain ⟨us, hus, hread⟩ := ih hq
    exact ⟨us, hus.trans (List.suffix_cons _ _).isInfix, hread⟩
  | @cons us ts r qs hr _ ih =>
    rcases List.mem_cons.mp hq with rfl | hq
    · exact ⟨us, (List.prefix_append us ts).isInfix, hr⟩
    · obtain ⟨vs, hvs, hread⟩ := ih hq
      exact ⟨vs, hvs.trans (List.suffix_append us ts).isInfix, hread⟩

/-- What is read at any depth is read from a stretch of all tokens. -/
theorem Program.Has.readFrom {p : Program} {ts : List (Located Token)}
    (hp : Derives .statements ts p.body) {q : Part} (hq : p.Has q) :
    ∃ us, Stretch ts us ∧ q.ReadFrom us := by
  induction hq with
  | top hs => exact Stands.readFrom hp.stands (List.mem_map_of_mem hs)
  | inside _ hr ih =>
    obtain ⟨us, hus, hread⟩ := ih
    obtain ⟨vs, hvs, hread'⟩ := hread.stands.readFrom hr
    exact ⟨vs, hvs.trans hus, hread'⟩

/-! ### Nested and ordered spans -/

/-- The first span ends before the second begins. -/
def Span.Precedes (a b : Span) : Prop :=
  a.stop ≤ b.start

theorem InOrder.precedes {ts us vs : List (Located Token)} (h : InOrder (us ++ ts))
    (hvs : Stretch ts vs) (hus : us ≠ []) (hne : vs ≠ []) : (Span.over us).Precedes (.over vs) := by
  rw [Span.over_eq hus, Span.over_eq hne]
  exact (List.pairwise_append.mp h.pairwise).2.2 _ (List.getLast_mem hus) _
    (hvs.subset (List.head_mem hne))

/-- Parts that stand among tokens follow each other. -/
theorem Stands.pairwise {ts : List (Located Token)} {qs : List Part} (h : Stands ts qs)
    (horder : InOrder ts) : qs.Pairwise fun q r => q.span.Precedes r.span := by
  induction h with
  | nil => exact .nil
  | skip _ ih => exact ih (horder.of_stretch (List.suffix_cons _ _).isInfix)
  | @cons us ts q qs hq hqs ih =>
    refine .cons (fun r hr => ?_) (ih (horder.of_stretch (List.suffix_append us ts).isInfix))
    -- `r` is read from some of the tokens behind those of `q`
    obtain ⟨vs, hvs, hread⟩ := hqs.readFrom hr
    have hfront := horder.of_stretch (Stretch.left List.infix_rfl)
    have hback := horder.of_stretch (hvs.trans (List.suffix_append us ts).isInfix)
    rw [hq.span_eq hfront, hread.span_eq hback]
    exact horder.precedes hvs hq.ne_nil hread.ne_nil

/-! ### Declarations -/

theorem Derives.statement_unique {us : List (Located Token)} {s s' : Stmt Unit}
    (h : Derives .statement us s) (h' : Derives .statement us s') : s = s' := by
  have hread : ∀ {r}, Derives .statement us r → Program.ofTokens 0 us = .ok ⟨[r]⟩ := by
    intro r hr
    refine Program.ofTokens_eq_ok.mpr ?_
    have hnext := Derives.next hr .done
    rwa [List.append_nil] at hnext
  have heq := (hread h).symm.trans (hread h')
  cases heq
  rfl

/-- The parts that the tokens of a declaration stand for. -/
def declarationParts (us : List (Located Token)) (x : String) (xs : List (Located String))
    (ss : Block Unit) : List Part :=
  [.stmt (.expr (.across us) (declaration us x xs ss)), .expr (declaration us x xs ss),
    .expr (declared us xs ss)]

theorem Declares.statement {x : String} {xs : List (Located String)} {ss : Block Unit}
    {us : List (Located Token)} (h : Declares x xs ss us) :
    Derives .statement us (.expr (.across us) (declaration us x xs ss)) := by
  cases h with
  | mk params body => exact .define params body rfl

/-- Nothing else is read from the tokens of a declaration. -/
theorem Declares.mem_parts {x : String} {xs : List (Located String)} {ss : Block Unit}
    {us : List (Located Token)} (h : Declares x xs ss us) {q : Part} (hq : q.ReadFrom us) :
    q ∈ declarationParts us x xs ss := by
  have hsame : ∀ {x' xs' ss'}, Declares x' xs' ss' us → x' = x ∧ xs' = xs ∧ ss' = ss := by
    intro x' xs' ss' h'
    have heq := h'.statement.statement_unique h.statement
    cases heq
    exact ⟨rfl, rfl, rfl⟩
  cases hq with
  | stmt hs =>
    rw [hs.statement_unique h.statement]
    exact List.mem_cons_self
  | expr he =>
    -- no expression begins with `fn` and a name
    have hopens := Form.Opens.opensExpr he.opens
    cases h with
    | mk => rcases hopens with (h | _) | h <;> cases h
  | declaration h' =>
    obtain ⟨rfl, rfl, rfl⟩ := hsame h'
    simp [declarationParts]
  | declared h' =>
    obtain ⟨rfl, rfl, rfl⟩ := hsame h'
    simp [declarationParts]
  | name | comparison => cases h

/-! ### Placed parts -/

/-- The part of a program with these tokens has its place exactly where it was read, and the parts
that lie in it have theirs within it, one behind the other. -/
structure Part.Placed (ts : List (Located Token)) (q : Part) : Prop where
  /-- If these are the tokens of a declaration, the part is one of those that it stands for. -/
  exact : ∃ us, us ≠ [] ∧ Stretch ts us ∧ q.ReadFrom us ∧ q.span = .over us ∧
    ∀ x xs ss, Declares x xs ss us → q ∈ declarationParts us x xs ss
  nonempty : q.span.start < q.span.stop
  encloses : ∀ r ∈ q.parts, q.span.Encloses r.span
  ordered : q.parts.Pairwise fun r r' => r.span.Precedes r'.span

theorem Part.ReadFrom.placed {ts us : List (Located Token)} {q : Part} (hread : q.ReadFrom us)
    (hus : Stretch ts us) (horder : InOrder us) : q.Placed ts where
  exact := ⟨us, hread.ne_nil, hus, hread, hread.span_eq horder, fun _ _ _ h => h.mem_parts hread⟩
  nonempty := by
    rw [hread.span_eq horder]
    exact horder.over_nonempty hread.ne_nil
  encloses r hr := by
    obtain ⟨vs, hvs, hread'⟩ := hread.stands.readFrom hr
    rw [hread.span_eq horder, hread'.span_eq (horder.of_stretch hvs)]
    exact horder.encloses hvs hread'.ne_nil
  ordered := hread.stands.pairwise horder

namespace Program

/-- **The places of a program are exact, nested and ordered.** Every part of a program, at any depth,
spans the tokens that it was read from, from the first to the last; the statement, the assignment and
the function that a declaration stands for all span the declaration. What lies in a part has its
place within that of the part. The parts that lie in one follow each other, and so do the statements
of the program. -/
theorem spans_nested (source : String) (p : Program) (h : Program.ofSource source = .ok p) :
    ∃ ts, tokenize source = .ok ts ∧ (∀ q, p.Has q → q.Placed ts) ∧
      p.body.Pairwise fun s s' => s.span.Precedes s'.span := by
  obtain ⟨ts, hts, hderives⟩ := ofSource_eq_ok_derives h
  have horder := (tokenize_eq_ok.mp hts).tiled.inOrder
  refine ⟨ts, hts, fun q hq => ?_, ?_⟩
  · obtain ⟨us, hus, hread⟩ := hq.readFrom hderives
    exact hread.placed hus (horder.of_stretch hus)
  · have hbody := Stands.pairwise hderives.stands horder
    exact (List.pairwise_map (f := Part.stmt)).mp hbody

/-- A declaration with a loop and an assignment to an element in its body, and a call behind it. -/
theorem spans_nested_declaration :
    ∃ p, Program.ofSource
        "fn f(a) \x7b for i < a .. 9 \x7b x[i] = a ? i : 2; \x7d \x7d f(1);" = .ok p ∧
      p.body.map Stmt.span = [⟨0, 48⟩, ⟨49, 54⟩] ∧
      ∃ ts, tokenize "fn f(a) \x7b for i < a .. 9 \x7b x[i] = a ? i : 2; \x7d \x7d f(1);" = .ok ts ∧
        (∀ q, p.Has q → q.Placed ts) ∧ p.body.Pairwise fun s s' => s.span.Precedes s'.span := by
  obtain ⟨p, hp, hspans⟩ : ∃ p, Program.ofSource
      "fn f(a) \x7b for i < a .. 9 \x7b x[i] = a ? i : 2; \x7d \x7d f(1);" = .ok p ∧
        p.body.map Stmt.span = [⟨0, 48⟩, ⟨49, 54⟩] := by
    decide +kernel
  exact ⟨p, hp, hspans, spans_nested _ p hp⟩

end Program
end Scriptlet
