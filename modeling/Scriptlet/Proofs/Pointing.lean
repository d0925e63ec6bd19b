import Scriptlet.Proofs.Grammar.Refusals
import Scriptlet.Proofs.Independence
import Scriptlet.Proofs.Tiling

/-!
Diagnostics point into the source.

The place of a node is put together from those of tokens (`Derives.alike`). What is reported about a
program, before it runs or while it runs, is at a node, or at the least span that holds two of them. So
if a place is allowed only where it runs from the start of a token to the stop of the same token or a
later one (`Span.IsStretch`), the program is still alike to itself, and so are all that is found in it
and its runs. Errors of the parser are at tokens too, or at the end of the source
(`Program.ofTokens_eq_error`). `Program.diagnostics_pointInto` collects these.
-/
namespace Scriptlet

/-! ### The places of a tree -/

/-- What was read is alike to itself, wherever it stands. -/
def Phrase.SelfAlike (L : Likeness) : (n : Phrase) → n.Tree → Prop
  | .statements, ss | .block, ss => ∀ p, Block.Alike L p ss ss
  | .statement, s | .condStatement, s => ∀ p, s.Alike L p s
  | .parameters, xs | .names, xs => List.Forall₂ L.Located xs xs
  | .reference, _ => True
  | .expr _, e => ∀ p, e.Alike L p e
  | .optional, e => ∀ p, Expr.OptionAlike L p e e
  | .arguments, es | .expressions, es => ∀ p, Expr.AllAlike L p es es

theorem Span.across_alike {L : Likeness} {ts : List (Located Token)} (hne : ts ≠ [])
    (h : ∀ t ∈ ts, L.Spans t.span t.span) : L.Spans (.across ts) (.across ts) := by
  rw [across_eq hne]
  exact L.merge (h _ (List.head_mem hne)) (h _ (List.getLast_mem hne))

/-- **Every place is merged from those of tokens.** So a tree is alike to itself as soon as the places
of tokens may stand for themselves. -/
theorem Derives.alike {L : Likeness} (hplaced : ¬ L.placed) {all : List (Located Token)}
    (hspans : ∀ t ∈ all, L.Spans t.span t.span) {n : Phrase} {ts : List (Located Token)} {t : n.Tree}
    (h : Derives n ts t) (hts : Stretch all ts) : n.SelfAlike L t := by
  have hglobal : ∀ p global, L.Global p global := fun _ _ hp => absurd hp hplaced
  have htoken : ∀ t, Stretch all [t] → L.Spans t.span t.span :=
    fun t ht => hspans t (ht.subset (List.mem_singleton_self t))
  have hspan : ∀ ws, ws ≠ [] → Stretch all ws → L.Spans (.across ws) (.across ws) :=
    fun ws hne hws => Span.across_alike hne fun t ht => hspans t (hws.subset ht)
  induction h with
  | done | noArguments => exact fun p => .nil
  | noParameters => exact .nil
  | name | globalName => trivial
  | absent => exact fun p => .none
  | cond _ ih | someParameters _ ih | plain _ ih | unconditional _ ih | operand _ ih
  | suffixed _ ih | primary _ ih | someArguments _ ih => exact ih hts
  | next _ _ ih₁ ih₂ => exact fun p => .cons (ih₁ hts.left p) (ih₂ hts.right p)
  | block _ ih => exact ih hts.tail.left
  | condOnly _ _ split ih₁ ih₂ =>
    subst split
    exact fun p => .cond (hspan _ (by simp) hts) (ih₁ hts.tail.left p) (ih₂ hts.tail.right p) .none
  | condElse _ _ _ split ih₁ ih₂ ih₃ =>
    subst split
    have hrest := hts.tail.right
    exact fun p => .cond (hspan _ (by simp) hts) (ih₁ hts.tail.left p) (ih₂ hrest.left p)
      (.some (ih₃ hrest.right.tail p))
  | condElseIf _ _ _ split ih₁ ih₂ ih₃ =>
    subst split
    have hrest := hts.tail.right
    exact fun p => .cond (hspan _ (by simp) hts) (ih₁ hts.tail.left p) (ih₂ hrest.left p)
      (.some (.cons (ih₃ hrest.right.tail p) .nil))
  | «while» _ _ split ih₁ ih₂ =>
    subst split
    exact fun p => .while (hspan _ (by simp) hts) (ih₁ hts.tail.left p) (ih₂ hts.tail.right p.loop)
  | range _ _ _ _ split ih₁ ih₂ ih₃ =>
    subst split
    have hbounds := hts.tail.tail.tail
    exact fun p => .range (hspan _ (by simp) hts) ⟨rfl, htoken _ hts.tail.head⟩
      ⟨rfl, htoken _ hts.tail.tail.head⟩ (ih₁ hbounds.left p) (ih₂ hbounds.right.tail.left p)
      (ih₃ hbounds.right.tail.right p.loop)
  | define _ _ split ih₁ ih₂ =>
    subst split
    have hs := hspan _ (by simp) hts
    have hrest := hts.tail.tail.tail
    exact fun p => .expr hs (.assign hs (hglobal p _)
      (.function hs (ih₁ hrest.left) (ih₂ hrest.right.tail .body)))
  | «break» split =>
    subst split
    exact fun p => .break (hspan _ (by simp) hts) fun hp => absurd hp hplaced
  | «continue» split =>
    subst split
    exact fun p => .continue (hspan _ (by simp) hts) fun hp => absurd hp hplaced
  | «return» _ split ih =>
    subst split
    exact fun p => .return (hspan _ (by simp) hts) (fun hp => absurd hp hplaced)
      (ih hts.tail.left p)
  | nested body ih =>
    obtain ⟨q, us, rfl⟩ := body.opens
    exact fun p => .block (hspan _ (by simp) hts) (ih hts p)
  | expr _ split ih =>
    subst split
    exact fun p => .expr (hspan _ (by simp) hts) (ih hts.left p)
  | lastName => exact .cons ⟨rfl, htoken _ hts⟩ .nil
  | nextName _ ih => exact .cons ⟨rfl, htoken _ hts.head⟩ (ih hts.tail.tail)
  | assign target _ _ split _ ih =>
    subst split
    intro p
    have htarget := hspan _ (OpensPrimary.ne_nil target.opens) hts.left
    have hvalue := ih hts.right.tail p
    exact .assign (L.merge htarget hvalue.span) (hglobal p _) hvalue
  | assignIndex target _ _ _ split _ ih₁ ih₂ =>
    subst split
    intro p
    have hrest := hts.right.tail
    have htarget := hspan _ (OpensPrimary.ne_nil target.opens) hts.left
    have hvalue := ih₂ hrest.right.tail.tail p
    exact .assignIndex (L.merge (L.merge htarget (htoken _ hrest.right.head)) hvalue.span)
      (hglobal p _) (ih₁ hrest.left p) hvalue
  | conditional _ _ _ split ih₁ ih₂ ih₃ =>
    subst split
    intro p
    have hrest := hts.right.tail
    have htest := ih₁ hts.left p
    have hno := ih₃ hrest.right.tail p
    exact .conditional (L.merge htest.span hno.span) htest (ih₂ hrest.left p) hno
  | binary _ _ _ split ih₁ ih₂ =>
    subst split
    intro p
    have hleft := ih₁ hts.left p
    have hright := ih₂ hts.right.tail p
    exact .binary (L.merge hleft.span hright.span) hleft hright
  | unary _ _ split ih =>
    subst split
    intro p
    have hoperand := ih hts.tail p
    exact .unary (L.merge (htoken _ hts.head) hoperand.span) hoperand
  | call _ _ split ih₁ ih₂ =>
    subst split
    intro p
    have hrest := hts.right.tail
    have hcallee := ih₁ hts.left p
    exact .call (L.merge hcallee.span (htoken _ hrest.right)) hcallee (ih₂ hrest.left p)
  | index _ _ split ih₁ ih₂ =>
    subst split
    intro p
    have hrest := hts.right.tail
    have htarget := ih₁ hts.left p
    exact .index (L.merge htarget.span (htoken _ hrest.right)) htarget (ih₂ hrest.left p)
  | slice _ _ _ split ih₁ ih₂ ih₃ =>
    subst split
    intro p
    have hrest := hts.right.tail
    have hstop := hrest.right.tail
    have htarget := ih₁ hts.left p
    exact .slice (L.merge htarget.span (htoken _ hstop.right)) htarget (ih₂ hrest.left p)
      (ih₃ hstop.left p)
  | number => exact fun p => .number (htoken _ hts)
  | text => exact fun p => .text (htoken _ hts)
  | trueWord => exact fun p => .bool (htoken _ hts)
  | falseWord => exact fun p => .bool (htoken _ hts)
  | nilWord => exact fun p => .nil (htoken _ hts)
  | reference name _ =>
    exact fun p => .name (hspan _ (OpensPrimary.ne_nil name.opens) hts) (hglobal p _)
  | group _ split ih =>
    subst split
    exact fun p => .group (hspan _ (by simp) hts) (ih hts.tail.left p)
  | array _ split ih =>
    subst split
    exact fun p => .array (hspan _ (by simp) hts) (ih hts.tail.left p)
  | function _ _ split ih₁ ih₂ =>
    subst split
    have hrest := hts.tail.tail
    exact fun p => .function (hspan _ (by simp) hts) (ih₁ hrest.left) (ih₂ hrest.right.tail .body)
  | present _ ih => exact fun p => .some (ih hts p)
  | lastExpr _ ih => exact fun p => .cons (ih hts p) .nil
  | nextExpr _ _ ih₁ ih₂ => exact fun p => .cons (ih₁ hts.left p) (ih₂ hts.right.tail p)

/-! ### Stretches of a source -/

/-- The span runs from the start of a token to the stop of the same token or a later one. -/
def Span.IsStretch (ts : List (Located Token)) (s : Span) : Prop :=
  ∃ (i j : Nat) (t u : Located Token), i ≤ j ∧ ts[i]? = some t ∧ ts[j]? = some u ∧
    s = ⟨t.span.start, u.span.stop⟩

/-- A token is a stretch of its own. -/
theorem Span.isStretch_of_mem {ts : List (Located Token)} {t : Located Token} (h : t ∈ ts) :
    t.span.IsStretch ts := by
  obtain ⟨i, hi, rfl⟩ := List.getElem_of_mem h
  exact ⟨i, i, ts[i], ts[i], Nat.le_refl i, List.getElem?_eq_getElem hi, List.getElem?_eq_getElem hi,
    rfl⟩

namespace InOrder

variable {ts : List (Located Token)} (h : InOrder ts)
include h

/-- A later token starts and stops later. -/
theorem le_of_le {i j : Nat} {t u : Located Token} (hij : i ≤ j) (hi : ts[i]? = some t)
    (hj : ts[j]? = some u) : t.span.start ≤ u.span.start ∧ t.span.stop ≤ u.span.stop := by
  by_cases heq : i = j
  · subst heq
    cases hi.symm.trans hj
    exact ⟨le_rfl, le_rfl⟩
  · obtain ⟨hi', rfl⟩ := List.getElem?_eq_some_iff.mp hi
    obtain ⟨hj', rfl⟩ := List.getElem?_eq_some_iff.mp hj
    have hbetween := List.pairwise_iff_getElem.mp h.pairwise i j hi' hj' (by omega)
    have hfirst := h.nonempty _ (List.getElem_mem hi')
    have hsecond := h.nonempty _ (List.getElem_mem hj')
    omega

/-- The least span that holds two stretches is a stretch. -/
theorem merge {a b : Span} (ha : a.IsStretch ts) (hb : b.IsStretch ts) :
    (a.merge b).IsStretch ts := by
  obtain ⟨i, j, t, u, hij, hi, hj, rfl⟩ := ha
  obtain ⟨k, l, v, w, hkl, hk, hl, rfl⟩ := hb
  -- it starts where the first of the two starts, and stops where the last of them stops
  rcases Nat.le_total i k with hik | hki
  · rw [Span.merge, Nat.min_eq_left (h.le_of_le hik hi hk).1]
    rcases Nat.le_total j l with hjl | hlj
    · rw [Nat.max_eq_right (h.le_of_le hjl hj hl).2]
      exact ⟨i, l, t, w, by omega, hi, hl, rfl⟩
    · rw [Nat.max_eq_left (h.le_of_le hlj hl hj).2]
      exact ⟨i, j, t, u, hij, hi, hj, rfl⟩
  · rw [Span.merge, Nat.min_eq_right (h.le_of_le hki hk hi).1]
    rcases Nat.le_total j l with hjl | hlj
    · rw [Nat.max_eq_right (h.le_of_le hjl hj hl).2]
      exact ⟨k, l, v, w, hkl, hk, hl, rfl⟩
    · rw [Nat.max_eq_left (h.le_of_le hlj hl hj).2]
      exact ⟨k, j, v, u, by omega, hk, hj, rfl⟩

end InOrder

theorem Tiled.inOrder {source : String} {ts : List (Located Token)}
    (h : Tiled 0 source.toList ts) : InOrder ts where
  nonempty t ht := (h.within t ht).1
  pairwise := h.pairwise

/-- Code whose places are stretches of these tokens; what it is compared with does not matter. -/
def InOrder.likeness {ts : List (Located Token)} (h : InOrder ts) : Likeness where
  Spans a _ := a.IsStretch ts
  placed := False
  loose := False
  merge := h.merge

/-- What is read from tokens has its places there. -/
theorem Derives.alike_stretches {ts us : List (Located Token)} (h : InOrder ts) {n : Phrase}
    {t : n.Tree} (ht : Derives n us t) (hus : Stretch ts us) : n.SelfAlike h.likeness t :=
  ht.alike (L := h.likeness) id (fun _ => Span.isStretch_of_mem) hus

/-! ### Diagnostics -/

/-- The span points at tokens of the source: it starts where a token starts, and stops where the same
token or a later one stops. So it is not empty, lies within the source, and does not cut through a
character. -/
structure PointsInto (source : String) (s : Span) : Prop where
  isStretch : ∃ ts, tokenize source = .ok ts ∧ s.IsStretch ts
  nonempty : s.start < s.stop
  within : s.stop ≤ source.utf8ByteSize
  start_isValid : String.Pos.Raw.IsValid source ⟨s.start⟩
  stop_isValid : String.Pos.Raw.IsValid source ⟨s.stop⟩

/-- A stretch of the tokens of a source points into it. -/
theorem Span.IsStretch.pointsInto {source : String} {ts : List (Located Token)} {s : Span}
    (h : s.IsStretch ts) (hts : tokenize source = .ok ts) : PointsInto source s := by
  have htiled := (tokenize_eq_ok.mp hts).tiled
  have hwhole := h
  obtain ⟨i, j, t, u, hij, hi, hj, rfl⟩ := h
  obtain ⟨hle, -⟩ := htiled.inOrder.le_of_le hij hi hj
  obtain ⟨-, -, hvalid, -⟩ := htiled.within t (List.mem_of_getElem? hi)
  obtain ⟨hlt, hsize, -, hvalid'⟩ := htiled.within u (List.mem_of_getElem? hj)
  exact ⟨⟨ts, hts, hwhole⟩, Nat.lt_of_le_of_lt hle hlt, hsize, hvalid, hvalid'⟩

theorem ParseError.At.isStretch {size : Nat} {ts : List (Located Token)} {e : ParseError}
    (h : e.At size ts) (horder : InOrder ts) :
    e.span.IsStretch ts ∨ e.span = ⟨size, size⟩ ∧ ∃ what, e.cause = .expected what none := by
  cases h with
  | found what ht => exact .inl (Span.isStretch_of_mem ht)
  | ended what => exact .inr ⟨rfl, what, rfl⟩
  | target he hws => exact .inl (he.alike_stretches horder hws .top).span

/-- What is found in code with such places is at such places. -/
theorem Likeness.Reports.spans {L : Likeness} {r : Report} (h : L.Reports r r) :
    (∀ v span, r.violation? = some (v, span) → L.Spans span span) ∧
      ∀ w ∈ r.warnings, L.Spans w.span w.span := by
  constructor
  · intro v span hv
    have hviolation := h.violation?
    rw [hv] at hviolation
    cases hviolation with
    | some hs => exact hs.2
  · intro w hw
    exact (List.forall₂_same.mp h.warnings w hw).span

/-- A fault of code with such places is at such a place. -/
theorem Correspondence.Outcomes.span {K : Correspondence} {f : Fault}
    (h : K.Outcomes (.error (.fault f)) (.error (.fault f))) : K.Spans f.span f.span := by
  cases h with
  | stopped hstops =>
    cases hstops with
    | fault hc hs => exact hs

namespace Program

theorem ofSource_eq_parser_error {source message : String} {span : Span}
    (h : Program.ofSource source = .error (.source .parser message span)) :
    ∃ ts e, tokenize source = .ok ts ∧ Program.ofTokens source.utf8ByteSize ts = .error e ∧
      message = e.message ∧ span = e.span := by
  cases hts : tokenize source with
  | error e =>
    obtain ⟨e', -, rfl⟩ := scan_of_tokenize_eq_error hts
    rw [Program.ofSource, hts] at h
    cases h
  | ok ts =>
    rw [ofSource_of_tokenize hts] at h
    cases he : Program.ofTokens source.utf8ByteSize ts with
    | ok p =>
      rw [he] at h
      cases h
    | error e =>
      rw [he] at h
      cases h
      exact ⟨ts, e, rfl, he, rfl, rfl⟩

theorem ofSource_eq_ok_derives {source : String} {p : Program}
    (h : Program.ofSource source = .ok p) :
    ∃ ts, tokenize source = .ok ts ∧ Derives .statements ts p.body := by
  obtain ⟨ts, hts, hp⟩ := ofSource_eq_ok.mp h
  exact ⟨ts, tokenize_eq_ok.mpr hts.splits, hp⟩

/-- A program that is read from a source has its places there. -/
theorem ofSource_alike {source : String} {p : Program} (h : Program.ofSource source = .ok p) :
    ∃ (ts : List (Located Token)) (horder : InOrder ts), tokenize source = .ok ts ∧
      Block.Alike horder.likeness .top p.body p.body := by
  obtain ⟨ts, hts, hderives⟩ := ofSource_eq_ok_derives h
  have horder := (tokenize_eq_ok.mp hts).tiled.inOrder
  exact ⟨ts, horder, hts, hderives.alike_stretches horder List.infix_rfl .top⟩

/-- **Every diagnostic of a source points into it.** An error of the parser, unless it is about the
end of the source and at that end; the error and the warnings of the check; and a fault of a run by a
new interpreter, checked or not, with any limit and any console. -/
theorem diagnostics_pointInto (source : String) :
    (∀ message span, Program.ofSource source = .error (.source .parser message span) →
      PointsInto source span ∨
        span = ⟨source.utf8ByteSize, source.utf8ByteSize⟩ ∧
          ∃ what, message = ParseError.message ⟨.expected what none, span⟩) ∧
    ∀ p, Program.ofSource source = .ok p →
      (∀ message span, p.check.error? = some (.source .analysis message span) →
        PointsInto source span) ∧
      (∀ w ∈ p.check.warnings, PointsInto source w.span) ∧
      ∀ limit console fuel f,
        ((Interpreter.new limit console).run fuel p).1 = .error (.fault f) →
          PointsInto source f.span := by
  constructor
  · intro message span h
    obtain ⟨ts, e, hts, he, rfl, rfl⟩ := ofSource_eq_parser_error h
    have horder := (tokenize_eq_ok.mp hts).tiled.inOrder
    rcases (ofTokens_eq_error he).isStretch horder with hstretch | ⟨hspan, what, hcause⟩
    · exact .inl (hstretch.pointsInto hts)
    · refine .inr ⟨hspan, what, ?_⟩
      rw [← hcause]
  · intro p hp
    obtain ⟨ts, horder, hts, halike⟩ := ofSource_alike hp
    obtain ⟨hviolation, hwarnings⟩ := (check_alike id halike).spans
    refine ⟨?_, fun w hw => (hwarnings w hw).pointsInto hts, ?_⟩
    · intro message span h
      obtain ⟨⟨v, span'⟩, hv, heq⟩ := Option.map_eq_some_iff.mp h
      cases heq
      exact (hviolation v span hv).pointsInto hts
    · intro limit console fuel f h
      have hworlds := Interpreter.new_corresponds horder.likeness.correspondence limit console
      obtain ⟨houtcomes, -⟩ := Interpreter.run_alike hworlds rfl rfl halike fuel
      rw [h] at houtcomes
      exact houtcomes.span.pointsInto hts

/-- Whether a source is refused with an error of some sort is found out by reading it. -/
instance decidableOfSourceError (source : String) (P : CompileError → Prop) [DecidablePred P] :
    Decidable (∃ e, Program.ofSource source = .error e ∧ P e) :=
  match Program.ofSource source with
  | .ok _ => isFalse nofun
  | .error e =>
    if h : P e then isTrue ⟨e, rfl, h⟩
    else isFalse fun ⟨_, he, hq⟩ => h (Except.error.inj he ▸ hq)

/-- The place of the fault that the run of a program ends with, if it does. -/
def faultSpan? (p : Program) (fuel : Nat) (i : Interpreter) : Option Span :=
  match (i.run fuel p).1 with
  | .error (.fault f) => some f.span
  | _ => none

theorem faultSpan?_eq_some {p : Program} {fuel : Nat} {i : Interpreter} {span : Span}
    (h : p.faultSpan? fuel i = some span) :
    ∃ f, (i.run fuel p).1 = .error (.fault f) ∧ f.span = span := by
  unfold faultSpan? at h
  split at h
  · rename_i f hf
    exact ⟨f, hf, Option.some.inj h⟩
  · cases h

/-- An assignment to a group, a `break` outside a loop, and a call that lacks an argument of a function
with a statement that is never reached. -/
theorem diagnostics_pointInto_call :
    (∃ message, Program.ofSource "(x) = 1;" = .error (.source .parser message ⟨0, 3⟩) ∧
      PointsInto "(x) = 1;" ⟨0, 3⟩) ∧
    (∃ p message, Program.ofSource "1; break;" = .ok p ∧
      p.check.error? = some (.source .analysis message ⟨3, 9⟩) ∧ PointsInto "1; break;" ⟨3, 9⟩) ∧
    ∃ p f, Program.ofSource "f = fn(x) \x7b return x; x; \x7d; f();" = .ok p ∧
      p.check.warnings.map (·.span) = [⟨22, 24⟩] ∧ f.span = ⟨28, 31⟩ ∧
      ((Interpreter.new 10 (.ofInput [])).run 20 p).1 = .error (.fault f) ∧
      PointsInto "f = fn(x) \x7b return x; x; \x7d; f();" f.span := by
  refine ⟨?_, ?_, ?_⟩
  · obtain ⟨e, he, rfl⟩ : ∃ e, Program.ofSource "(x) = 1;" = .error e ∧
        e = .source .parser "invalid assignment target" ⟨0, 3⟩ := by
      decide +kernel
    refine ⟨_, he, ((diagnostics_pointInto _).1 _ _ he).resolve_right ?_⟩
    rintro ⟨h, -⟩
    exact absurd h (by decide)
  · obtain ⟨p, hp, hcheck⟩ : ∃ p, Program.ofSource "1; break;" = .ok p ∧
        p.check.error? = some (.source .analysis "`break` outside of a loop" ⟨3, 9⟩) := by
      decide +kernel
    exact ⟨p, _, hp, hcheck, ((diagnostics_pointInto _).2 p hp).1 _ _ hcheck⟩
  · obtain ⟨p, hp, hwarnings, hspan⟩ :
        ∃ p, Program.ofSource "f = fn(x) \x7b return x; x; \x7d; f();" = .ok p ∧
          p.check.warnings.map (·.span) = [⟨22, 24⟩] ∧
          p.faultSpan? 20 (Interpreter.new 10 (.ofInput [])) = some ⟨28, 31⟩ := by
      decide +kernel
    obtain ⟨f, hrun, hspan⟩ := faultSpan?_eq_some hspan
    exact ⟨p, f, hp, hwarnings, hspan, hrun,
      ((diagnostics_pointInto _).2 p hp).2.2 10 (.ofInput []) 20 f hrun⟩

end Program
end Scriptlet
