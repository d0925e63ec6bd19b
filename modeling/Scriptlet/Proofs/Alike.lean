import Scriptlet.Program.Findings
import Scriptlet.Program.Marking
import Scriptlet.Proofs.Correspondence

/-!
Code that is alike.

Two pieces of code are alike if they are the same up to what a `Likeness` leaves open: where they
stand in the source (`Likeness.Spans`), and statements that are never reached (`Likeness.loose`).
A likeness may also ask that every `break`, `continue`, `return` and `global` is where it belongs
(`Likeness.placed`); then code that is alike to itself has no misplaced construct.

* `Block.mark_alike`: alike programs are alike with their marks too, so that their functions have the
  same identities;
* `Likeness.ahead`, `Likeness.correspondence`: functions correspond if they are alike;
* `Correspondence.Admits`, `Correspondence.Coded`: functions from several sources may correspond, each
  pair alike in a way of its own.
-/
namespace Scriptlet

theorem Span.merge_congr {a b c d : Span} (hab : a = b) (hcd : c = d) : a.merge c = b.merge d := by
  rw [hab, hcd]

/-- How far two pieces of code may differ. -/
structure Likeness where
  /-- The places that may stand for each other. -/
  Spans : Span → Span → Prop
  /-- Whether all that depends on loops and functions around it has to be inside them. -/
  placed : Prop
  /-- Whether statements that are never reached may differ. -/
  loose : Prop
  merge : ∀ {a b c d : Span}, Spans a b → Spans c d → Spans (a.merge c) (b.merge d)

namespace Likeness

variable (L : Likeness)

/-- The same thing at places that may stand for each other. -/
structure Located {α : Type} (x y : Scriptlet.Located α) : Prop where
  val : x.val = y.val
  span : L.Spans x.span y.span

/-- A `global` is inside a function, if that is asked for. -/
def Global (p : Surroundings) (global : Bool) : Prop :=
  L.placed → global = true → p.inFunction = true

end Likeness

section

variable (L : Likeness) {φ : Type}

mutual

inductive Expr.Alike : Surroundings → Expr φ → Expr φ → Prop
  | number {p a b x} (hs : L.Spans a b) : Expr.Alike p (.number a x) (.number b x)
  | text {p a b x} (hs : L.Spans a b) : Expr.Alike p (.text a x) (.text b x)
  | bool {p a b x} (hs : L.Spans a b) : Expr.Alike p (.bool a x) (.bool b x)
  | nil {p a b} (hs : L.Spans a b) : Expr.Alike p (.nil a) (.nil b)
  | array {p a b es ds} (hs : L.Spans a b) (he : Expr.AllAlike p es ds) :
    Expr.Alike p (.array a es) (.array b ds)
  | group {p a b e d} (hs : L.Spans a b) (he : Expr.Alike p e d) :
    Expr.Alike p (.group a e) (.group b d)
  | name {p a b global x} (hs : L.Spans a b) (hg : L.Global p global) :
    Expr.Alike p (.name a global x) (.name b global x)
  | binary {p a b op e₁ e₂ d₁ d₂} (hs : L.Spans a b) (h₁ : Expr.Alike p e₁ d₁)
    (h₂ : Expr.Alike p e₂ d₂) : Expr.Alike p (.binary a op e₁ e₂) (.binary b op d₁ d₂)
  | unary {p a b op e d} (hs : L.Spans a b) (he : Expr.Alike p e d) :
    Expr.Alike p (.unary a op e) (.unary b op d)
  | conditional {p a b e₁ e₂ e₃ d₁ d₂ d₃} (hs : L.Spans a b) (h₁ : Expr.Alike p e₁ d₁)
    (h₂ : Expr.Alike p e₂ d₂) (h₃ : Expr.Alike p e₃ d₃) :
    Expr.Alike p (.conditional a e₁ e₂ e₃) (.conditional b d₁ d₂ d₃)
  | call {p a b e d es ds} (hs : L.Spans a b) (he : Expr.Alike p e d)
    (ha : Expr.AllAlike p es ds) : Expr.Alike p (.call a e es) (.call b d ds)
  | index {p a b e₁ e₂ d₁ d₂} (hs : L.Spans a b) (h₁ : Expr.Alike p e₁ d₁)
    (h₂ : Expr.Alike p e₂ d₂) : Expr.Alike p (.index a e₁ e₂) (.index b d₁ d₂)
  | slice {p a b e d e₁ e₂ d₁ d₂} (hs : L.Spans a b) (he : Expr.Alike p e d)
    (h₁ : Expr.OptionAlike p e₁ d₁) (h₂ : Expr.OptionAlike p e₂ d₂) :
    Expr.Alike p (.slice a e e₁ e₂) (.slice b d d₁ d₂)
  | assign {p a b global constant x e d} (hs : L.Spans a b) (hg : L.Global p global)
    (he : Expr.Alike p e d) :
    Expr.Alike p (.assign a global constant x e) (.assign b global constant x d)
  | assignIndex {p a b global constant x e₁ e₂ d₁ d₂} (hs : L.Spans a b)
    (hg : L.Global p global) (h₁ : Expr.Alike p e₁ d₁) (h₂ : Expr.Alike p e₂ d₂) :
    Expr.Alike p (.assignIndex a global constant x e₁ e₂) (.assignIndex b global constant x d₁ d₂)
  | function {p a b mark xs ys body body'} (hs : L.Spans a b) (hx : List.Forall₂ L.Located xs ys)
    (hb : Block.Alike .body body body') :
    Expr.Alike p (.function a mark xs body) (.function b mark ys body')

inductive Expr.AllAlike : Surroundings → List (Expr φ) → List (Expr φ) → Prop
  | nil {p} : Expr.AllAlike p [] []
  | cons {p e d es ds} (he : Expr.Alike p e d) (hes : Expr.AllAlike p es ds) :
    Expr.AllAlike p (e :: es) (d :: ds)

inductive Expr.OptionAlike : Surroundings → Option (Expr φ) → Option (Expr φ) → Prop
  | none {p} : Expr.OptionAlike p none none
  | some {p e d} (he : Expr.Alike p e d) : Expr.OptionAlike p (some e) (some d)

inductive Stmt.Alike : Surroundings → Stmt φ → Stmt φ → Prop
  | expr {p a b e d} (hs : L.Spans a b) (he : Expr.Alike p e d) :
    Stmt.Alike p (.expr a e) (.expr b d)
  | block {p a b body body'} (hs : L.Spans a b) (hb : Block.Alike p body body') :
    Stmt.Alike p (.block a body) (.block b body')
  | cond {p a b e d yes yes' no no'} (hs : L.Spans a b) (he : Expr.Alike p e d)
    (hy : Block.Alike p yes yes') (hn : Block.OptionAlike p no no') :
    Stmt.Alike p (.cond a e yes no) (.cond b d yes' no')
  | while {p a b e d body body'} (hs : L.Spans a b) (he : Expr.Alike p e d)
    (hb : Block.Alike p.loop body body') : Stmt.Alike p (.while a e body) (.while b d body')
  | range {p a b x y cmp cmp' e₁ e₂ d₁ d₂ body body'} (hs : L.Spans a b) (hx : L.Located x y)
    (hc : L.Located cmp cmp') (h₁ : Expr.Alike p e₁ d₁) (h₂ : Expr.Alike p e₂ d₂)
    (hb : Block.Alike p.loop body body') :
    Stmt.Alike p (.range a x cmp e₁ e₂ body) (.range b y cmp' d₁ d₂ body')
  | break {p a b} (hs : L.Spans a b) (hp : L.placed → p.inLoop = true) :
    Stmt.Alike p (.break a) (.break b)
  | continue {p a b} (hs : L.Spans a b) (hp : L.placed → p.inLoop = true) :
    Stmt.Alike p (.continue a) (.continue b)
  | return {p a b e d} (hs : L.Spans a b) (hp : L.placed → p.inFunction = true)
    (he : Expr.OptionAlike p e d) : Stmt.Alike p (.return a e) (.return b d)

inductive Block.Alike : Surroundings → List (Stmt φ) → List (Stmt φ) → Prop
  | nil {p} : Block.Alike p [] []
  | cons {p s t ss ts} (hs : Stmt.Alike p s t) (hss : Block.Alike p ss ts) :
    Block.Alike p (s :: ss) (t :: ts)
  /-- What follows the statement that ends a block may be anything. -/
  | ends {p s t ss ts} (hl : L.loose) (hs : Stmt.Alike p s t) (he : s.endsBlock = true) :
    Block.Alike p (s :: ss) (t :: ts)

inductive Block.OptionAlike : Surroundings → Option (List (Stmt φ)) → Option (List (Stmt φ)) → Prop
  | none {p} : Block.OptionAlike p none none
  | some {p body body'} (hb : Block.Alike p body body') :
    Block.OptionAlike p (some body) (some body')

end

end

variable {L : Likeness} {φ : Type} {p : Surroundings}

theorem Expr.Alike.span {e d : Expr φ} (h : e.Alike L p d) : L.Spans e.span d.span := by
  cases h <;> assumption

theorem Expr.AllAlike.length_eq {es ds : List (Expr φ)} (h : Expr.AllAlike L p es ds) :
    es.length = ds.length := by
  induction es generalizing ds with
  | nil =>
    cases h
    rfl
  | cons e es ih =>
    cases h with
    | cons he hes => rw [List.length_cons, List.length_cons, ih hes]

theorem Likeness.map_val_eq {α : Type} {xs ys : List (Scriptlet.Located α)}
    (h : List.Forall₂ L.Located xs ys) : xs.map (·.val) = ys.map (·.val) := by
  induction h with
  | nil => rfl
  | cons hx _ ih => rw [List.map_cons, List.map_cons, hx.val, ih]

/-! ### Marks -/

theorem Stmt.endsBlock_mark (s : Stmt Unit) (path : FunctionId) :
    (s.mark path).endsBlock = s.endsBlock := by
  cases s <;> rfl

mutual

theorem Expr.mark_alike {p : Surroundings} : (e : Expr Unit) → {d : Expr Unit} →
    e.Alike L p d → (path : FunctionId) → (e.mark path).Alike L p (d.mark path)
  | .number .., _, .number hs, _ => .number hs
  | .text .., _, .text hs, _ => .text hs
  | .bool .., _, .bool hs, _ => .bool hs
  | .nil .., _, .nil hs, _ => .nil hs
  | .array _ es, _, .array hs he, path => .array hs (Expr.markList_alike es he path 0)
  | .group _ e, _, .group hs he, _ => .group hs (e.mark_alike he _)
  | .name .., _, .name hs hg, _ => .name hs hg
  | .binary _ _ e₁ e₂, _, .binary hs h₁ h₂, _ =>
    .binary hs (e₁.mark_alike h₁ _) (e₂.mark_alike h₂ _)
  | .unary _ _ e, _, .unary hs he, _ => .unary hs (e.mark_alike he _)
  | .conditional _ e₁ e₂ e₃, _, .conditional hs h₁ h₂ h₃, _ =>
    .conditional hs (e₁.mark_alike h₁ _) (e₂.mark_alike h₂ _) (e₃.mark_alike h₃ _)
  | .call _ e es, _, .call hs he ha, path =>
    .call hs (e.mark_alike he _) (Expr.markList_alike es ha path 1)
  | .index _ e₁ e₂, _, .index hs h₁ h₂, _ =>
    .index hs (e₁.mark_alike h₁ _) (e₂.mark_alike h₂ _)
  | .slice _ e start stop, _, .slice hs he h₁ h₂, _ =>
    .slice hs (e.mark_alike he _) (Expr.markOption_alike start h₁ _)
      (Expr.markOption_alike stop h₂ _)
  | .assign _ _ _ _ e, _, .assign hs hg he, _ => .assign hs hg (e.mark_alike he _)
  | .assignIndex _ _ _ _ e₁ e₂, _, .assignIndex hs hg h₁ h₂, _ =>
    .assignIndex hs hg (e₁.mark_alike h₁ _) (e₂.mark_alike h₂ _)
  | .function _ _ _ body, _, .function hs hx hb, path =>
    .function hs hx (Block.mark_alike body hb path 0)
termination_by structural x => x

theorem Expr.markList_alike {p : Surroundings} : (es : List (Expr Unit)) →
    {ds : List (Expr Unit)} → Expr.AllAlike L p es ds → (path : FunctionId) → (i : Nat) →
    Expr.AllAlike L p (Expr.markList path i es) (Expr.markList path i ds)
  | [], _, .nil, _, _ => .nil
  | e :: es, _, .cons he hes, path, i =>
    .cons (e.mark_alike he _) (Expr.markList_alike es hes path (i + 1))
termination_by structural x => x

theorem Expr.markOption_alike {p : Surroundings} : (e : Option (Expr Unit)) →
    {d : Option (Expr Unit)} → Expr.OptionAlike L p e d → (path : FunctionId) →
    Expr.OptionAlike L p (Expr.markOption path e) (Expr.markOption path d)
  | none, _, .none, _ => .none
  | some e, _, .some he, path => .some (e.mark_alike he path)
termination_by structural x => x

theorem Stmt.mark_alike {p : Surroundings} : (s : Stmt Unit) → {t : Stmt Unit} →
    s.Alike L p t → (path : FunctionId) → (s.mark path).Alike L p (t.mark path)
  | .expr _ e, _, .expr hs he, _ => .expr hs (e.mark_alike he _)
  | .block _ body, _, .block hs hb, path => .block hs (Block.mark_alike body hb path 0)
  | .cond _ e yes no, _, .cond hs he hy hn, _ =>
    .cond hs (e.mark_alike he _) (Block.mark_alike yes hy _ 0) (Block.markOption_alike no hn _)
  | .while _ e body, _, .while hs he hb, _ =>
    .while hs (e.mark_alike he _) (Block.mark_alike body hb _ 0)
  | .range _ _ _ e₁ e₂ body, _, .range hs hx hc h₁ h₂ hb, _ =>
    .range hs hx hc (e₁.mark_alike h₁ _) (e₂.mark_alike h₂ _) (Block.mark_alike body hb _ 0)
  | .break _, _, .break hs hp, _ => .break hs hp
  | .continue _, _, .continue hs hp, _ => .continue hs hp
  | .return _ e, _, .return hs hp he, _ => .return hs hp (Expr.markOption_alike e he _)
termination_by structural x => x

theorem Block.mark_alike {p : Surroundings} : (ss : List (Stmt Unit)) →
    {ts : List (Stmt Unit)} → Block.Alike L p ss ts → (path : FunctionId) → (i : Nat) →
    Block.Alike L p (Block.mark path i ss) (Block.mark path i ts)
  | [], _, .nil, _, _ => .nil
  | s :: ss, _, .cons hs hss, path, i =>
    .cons (s.mark_alike hs _) (Block.mark_alike ss hss path (i + 1))
  | s :: _, _, .ends hl hs he, path, i =>
    .ends hl (s.mark_alike hs _) (by rw [Stmt.endsBlock_mark, he])
termination_by structural x => x

theorem Block.markOption_alike {p : Surroundings} : (ss : Option (List (Stmt Unit))) →
    {ts : Option (List (Stmt Unit))} → Block.OptionAlike L p ss ts → (path : FunctionId) →
    Block.OptionAlike L p (Block.markOption path ss) (Block.markOption path ts)
  | none, _, .none, _ => .none
  | some body, _, .some hb, path => .some (Block.mark_alike body hb path 0)
termination_by structural x => x

end

/-- Functions correspond if they have the same identity and are alike. Where everything has to be
placed, no fault of something misplaced is allowed. -/
def Likeness.ahead (L : Likeness) (lead : Lead) : Correspondence where
  lead := lead
  Functions f g := f.id = g.id ∧ List.Forall₂ L.Located f.params g.params ∧
    Block.Alike L .body f.body g.body
  Spans := L.Spans
  Allows c := L.placed → ¬ c.IsMisplaced
  id_eq h := h.1
  params_eq h := map_val_eq h.2.1
  allows_of_placed h _ := h

/-- The correspondence of runs with the same references. -/
abbrev Likeness.correspondence (L : Likeness) : Correspondence :=
  L.ahead .none

/-- Code that is alike in this way has a part in runs that correspond. -/
structure Correspondence.Admits (K : Correspondence) (L : Likeness) : Prop where
  spans : ∀ {a b : Span}, L.Spans a b → K.Spans a b
  functions : ∀ {f g : Function}, f.id = g.id → List.Forall₂ L.Located f.params g.params →
    Block.Alike L .body f.body g.body → K.Functions f g
  allows : ∀ {c : Fault.Cause}, (L.placed → ¬ c.IsMisplaced) → K.Allows c

/-- The functions that stand for each other are alike, each pair in a way of its own. -/
def Correspondence.Coded (K : Correspondence) : Prop :=
  ∀ f g, K.Functions f g → ∃ L, K.Admits L ∧ Block.Alike L .body f.body g.body

theorem Likeness.admits (L : Likeness) (lead : Lead) : (L.ahead lead).Admits L where
  spans := id
  functions hid hx hb := ⟨hid, hx, hb⟩
  allows := id

theorem Likeness.coded (L : Likeness) (lead : Lead) : (L.ahead lead).Coded :=
  fun _ _ h => ⟨L, L.admits lead, h.2.2⟩

end Scriptlet
