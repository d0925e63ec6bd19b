import Mathlib.Data.List.Basic
import Scriptlet.Proofs.Grammar.Basic

/-!
Merged spans are exact.

The span of a node is a merge: of its first token and its last, or of the parts at its two ends. What
lies between these is not looked at, so a merge could hold less than the tokens of the node, or more, if
tokens stood in any order. Where they stand one behind the other (`InOrder`), the merge of a part at the
front of some tokens and a part at their back is the span over all of them (`InOrder.merge_ends`). By
induction over the rules, every statement and every expression then spans the tokens that it is derived
from, from the start of the first to the stop of the last (`Derives.spans`).
-/
namespace Scriptlet

/-- The span from the start of the first token to the stop of the last. -/
def Span.over (ts : List (Located Token)) : Span :=
  ⟨(ts.head?.map (·.span.start)).getD 0, (ts.getLast?.map (·.span.stop)).getD 0⟩

/-- The second span lies in the first. -/
def Span.Encloses (a b : Span) : Prop :=
  a.start ≤ b.start ∧ b.stop ≤ a.stop

/-! ### Tokens in a row -/

/-- These tokens stand in a row among all. -/
def Stretch (all ts : List (Located Token)) : Prop :=
  ts <:+: all

namespace Stretch

variable {all ts us : List (Located Token)} {t : Located Token}

theorem left (h : Stretch all (ts ++ us)) : Stretch all ts :=
  (List.prefix_append ts us).isInfix.trans h

theorem right (h : Stretch all (ts ++ us)) : Stretch all us :=
  (List.suffix_append ts us).isInfix.trans h

theorem head (h : Stretch all (t :: ts)) : Stretch all [t] :=
  (List.prefix_append [t] ts).isInfix.trans h

theorem tail (h : Stretch all (t :: ts)) : Stretch all ts :=
  (List.suffix_cons t ts).isInfix.trans h

end Stretch

theorem OpensPrimary.ne_nil {ts : List (Located Token)} (h : OpensPrimary ts) : ts ≠ [] := by
  cases h <;> exact List.cons_ne_nil _ _

theorem OpensExpr.ne_nil {ts : List (Located Token)} (h : OpensExpr ts) : ts ≠ [] := by
  cases h with
  | primary h => exact h.ne_nil
  | operator h => exact List.cons_ne_nil _ _

/-- However an expression is read, it begins as an expression does. -/
theorem Form.Opens.opensExpr {form : Form} {us : List (Located Token)} (h : form.Opens us) :
    OpensExpr us := by
  cases form with
  | suffixed | primary => exact .primary h
  | _ => exact h

theorem Derives.expr_ne_nil {form : Form} {ts : List (Located Token)} {e : Expr Unit}
    (h : Derives (.expr form) ts e) : ts ≠ [] :=
  (Form.Opens.opensExpr h.opens).ne_nil

/-! ### Tokens in order -/

/-- Tokens that are not empty, and stand one behind the other. -/
structure InOrder (ts : List (Located Token)) : Prop where
  nonempty : ∀ t ∈ ts, t.span.start < t.span.stop
  pairwise : ts.Pairwise fun a b => a.span.stop ≤ b.span.start

namespace Span

variable {ts us : List (Located Token)}

theorem over_eq (hne : us ≠ []) :
    Span.over us = ⟨(us.head hne).span.start, (us.getLast hne).span.stop⟩ := by
  simp [Span.over, List.head?_eq_some_head hne, List.getLast?_eq_some_getLast hne]

theorem across_eq (hne : us ≠ []) :
    across us = (us.head hne).span.merge (us.getLast hne).span := by
  cases us with
  | nil => exact absurd rfl hne
  | cons t us => simp [across, List.getLast_eq_getLastD, List.getLastD_eq_getLast?]

/-- The first token of a part at the front is the first of all. -/
theorem start_over (h : us <+: ts) (hne : us ≠ []) :
    (Span.over us).start = (Span.over ts).start := by
  obtain ⟨after, rfl⟩ := h
  rw [Span.over, Span.over, List.head?_append_of_ne_nil us hne]

/-- The last token of a part at the back is the last of all. -/
theorem stop_over (h : us <:+ ts) (hne : us ≠ []) :
    (Span.over us).stop = (Span.over ts).stop := by
  obtain ⟨before, rfl⟩ := h
  rw [Span.over, Span.over, List.getLast?_append_of_ne_nil before hne]

end Span

namespace InOrder

variable {ts us vs ws : List (Located Token)}

theorem of_stretch (h : InOrder ts) (hus : Stretch ts us) : InOrder us :=
  ⟨fun t ht => h.nonempty t (hus.subset ht), h.pairwise.sublist hus.sublist⟩

/-- All tokens lie in their span. -/
theorem encloses_mem (h : InOrder ts) {t : Located Token} (ht : t ∈ ts) :
    (Span.over ts).Encloses t.span := by
  have hne := List.ne_nil_of_mem ht
  rw [Span.over_eq hne]
  constructor
  · show (ts.head hne).span.start ≤ t.span.start
    cases ts with
    | nil => cases ht
    | cons u us =>
      rcases List.mem_cons.mp ht with rfl | ht
      · exact Nat.le_refl _
      · have hu := h.nonempty u List.mem_cons_self
        have hut := (List.pairwise_cons.mp h.pairwise).1 t ht
        rw [List.head_cons]
        omega
  · show t.span.stop ≤ (ts.getLast hne).span.stop
    rw [← List.dropLast_append_getLast hne] at ht
    rcases List.mem_append.mp ht with hinit | hlast
    · -- the last token stands behind all that are before it
      have hlast := h.nonempty _ (List.getLast_mem hne)
      have hpairs := h.pairwise
      rw [← List.dropLast_append_getLast hne] at hpairs
      have hbefore := (List.pairwise_append.mp hpairs).2.2 t hinit _ (List.mem_singleton_self _)
      omega
    · exact Nat.le_of_eq (congrArg (·.span.stop) (List.mem_singleton.mp hlast))

theorem over_nonempty (h : InOrder us) (hne : us ≠ []) :
    (Span.over us).start < (Span.over us).stop := by
  have hhead := h.nonempty _ (List.head_mem hne)
  obtain ⟨hstart, hstop⟩ := h.encloses_mem (List.head_mem hne)
  omega

/-- A stretch of tokens lies in the span of all of them. -/
theorem encloses (h : InOrder ts) (hus : Stretch ts us) (hne : us ≠ []) :
    (Span.over ts).Encloses (.over us) := by
  rw [Span.over_eq hne]
  exact ⟨(h.encloses_mem (hus.subset (List.head_mem hne))).1,
    (h.encloses_mem (hus.subset (List.getLast_mem hne))).2⟩

/-- What is merged from a part at the front and a part at the back is the span over all. -/
theorem merge_ends (h : InOrder ws) (hts : ts <+: ws) (hus : us <:+ ws) (hne : ts ≠ [])
    (hne' : us ≠ []) {a b : Span} (ha : InOrder ts → a = .over ts) (hb : InOrder us → b = .over us) :
    a.merge b = .over ws := by
  have hfront := h.encloses hts.isInfix hne
  have hback := h.encloses hus.isInfix hne'
  rw [ha (h.of_stretch hts.isInfix), hb (h.of_stretch hus.isInfix), Span.merge,
    Span.start_over hts hne, Span.stop_over hus hne', Nat.min_eq_left hback.1,
    Nat.max_eq_right hfront.2]

theorem across_eq (h : InOrder ts) (hne : ts ≠ []) : Span.across ts = .over ts := by
  rw [Span.across_eq hne]
  have hfront : [ts.head hne] <+: ts := ⟨ts.tail, List.cons_head_tail hne⟩
  have hback : [ts.getLast hne] <:+ ts := ⟨ts.dropLast, List.dropLast_append_getLast hne⟩
  exact h.merge_ends hfront hback (List.cons_ne_nil _ _) (List.cons_ne_nil _ _) (fun _ => rfl)
    fun _ => rfl

/-- A part at the front, merged with the last token. -/
theorem merge_last {t : Located Token} (h : InOrder (ts ++ us)) (hlast : [t] <:+ us) (hne : ts ≠ [])
    {a : Span} (ha : InOrder ts → a = .over ts) : a.merge t.span = .over (ts ++ us) :=
  h.merge_ends (List.prefix_append ts us) (hlast.trans (List.suffix_append ts us)) hne
    (List.cons_ne_nil t []) ha fun _ => rfl

end InOrder

/-! ### Nodes -/

/-- A statement or an expression spans its tokens. -/
def Phrase.Spans (ts : List (Located Token)) : (n : Phrase) → n.Tree → Prop
  | .statement, s | .condStatement, s => s.span = .over ts
  | .expr _, e => e.span = .over ts
  | _, _ => True

/-- What follows a token is at the back. -/
theorem suffix_behind {α : Type} (xs : List α) (x : α) (ys : List α) : ys <:+ xs ++ x :: ys :=
  (List.suffix_cons x ys).trans (List.suffix_append xs (x :: ys))

/-- **A node spans the tokens that it is derived from.** -/
theorem Derives.spans {n : Phrase} {ts : List (Located Token)} {t : n.Tree} (h : Derives n ts t)
    (horder : InOrder ts) : n.Spans ts t := by
  induction h with
  | cond _ ih | plain _ ih | unconditional _ ih | operand _ ih | suffixed _ ih | primary _ ih =>
    exact ih horder
  | condOnly _ _ split | condElse _ _ _ split | condElseIf _ _ _ split | «while» _ _ split
  | range _ _ _ _ split | define _ _ split | «break» split | «continue» split | «return» _ split
  | expr _ split | group _ split | array _ split | function _ _ split =>
    exact horder.across_eq (by simp [split])
  | nested body =>
    obtain ⟨p, us, rfl⟩ := body.opens
    exact horder.across_eq (List.cons_ne_nil _ _)
  | reference name => exact horder.across_eq (OpensPrimary.ne_nil name.opens)
  | number | text | trueWord | falseWord | nilWord => rfl
  | assign target _ value split _ ih =>
    subst split
    have htarget := OpensPrimary.ne_nil target.opens
    exact horder.merge_ends (List.prefix_append _ _) (suffix_behind _ _ _) htarget value.expr_ne_nil
      (fun h => h.across_eq htarget) ih
  | @assignIndex ws ts us vs t _ _ _ _ _ p q target _ _ value split _ _ ih =>
    have htarget := OpensPrimary.ne_nil target.opens
    -- the target ends with the bracket, and the assignment begins with the target
    have hsplit : ws = (ts ++ ⟨.symbol .openBracket, p⟩ :: (us ++ [⟨.symbol .closeBracket, q⟩])) ++
      t :: vs := by simp [split]
    subst hsplit
    refine horder.merge_ends (List.prefix_append _ _) (suffix_behind _ _ _) (by simp)
      value.expr_ne_nil (fun h => ?_) ih
    exact h.merge_last ((List.suffix_append _ _).trans (List.suffix_cons _ _)) htarget
      fun h => h.across_eq htarget
  | conditional test _ no split ih _ ih' =>
    subst split
    exact horder.merge_ends (List.prefix_append _ _)
      ((suffix_behind _ _ _).trans (suffix_behind _ _ _)) test.expr_ne_nil no.expr_ne_nil ih ih'
  | binary left _ right split ih ih' =>
    subst split
    exact horder.merge_ends (List.prefix_append _ _) (suffix_behind _ _ _) left.expr_ne_nil
      right.expr_ne_nil ih ih'
  | @unary ws ts t _ _ _ operand split ih =>
    subst split
    exact horder.merge_ends (List.prefix_append [t] ts) (List.suffix_cons t ts)
      (List.cons_ne_nil t []) operand.expr_ne_nil (fun _ => rfl) ih
  | call callee _ split ih =>
    subst split
    exact horder.merge_last ((List.suffix_append _ _).trans (List.suffix_cons _ _))
      callee.expr_ne_nil ih
  | index target _ split ih =>
    subst split
    exact horder.merge_last ((List.suffix_append _ _).trans (List.suffix_cons _ _))
      target.expr_ne_nil ih
  | @slice ws ts us vs _ _ _ _ _ r target _ _ split ih =>
    subst split
    refine horder.merge_last (t := ⟨.symbol .closeBracket, r⟩) ?_ target.expr_ne_nil ih
    exact ((List.suffix_append _ _).trans (suffix_behind _ _ _)).trans (List.suffix_cons _ _)
  | _ => trivial

end Scriptlet
