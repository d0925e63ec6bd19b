import Scriptlet.Proofs.Alike

/-!
What is found in a program, and what it depends on.

* `Block.findings_alike`: the findings depend on the code but not on where it stands. In alike code
  the same is found at corresponding places, dead statements included, and so the reports on alike
  programs correspond (`Program.check_alike`).
* `Block.alike_self`: code is alike to itself, under a likeness that asks for everything to be placed
  if it has no violation.
* `Program.check_append`: at the top level nothing that is accepted ends a block, so no statement
  behind an accepted program is dead, and what is found there is what is found there alone.
-/
namespace Scriptlet

/-! ### Findings without a violation -/

/-- There is no violation among these findings. -/
def Accepted (fs : List Finding) : Prop :=
  (Report.ofFindings fs).violation? = none

theorem Report.violation?_append (fs gs : List Finding) :
    (ofFindings (fs ++ gs)).violation? = (ofFindings fs).violation?.or (ofFindings gs).violation? := by
  induction fs with
  | nil => rfl
  | cons f fs ih =>
    cases f with
    | violation v span => rfl
    | warning w => exact ih

@[simp] theorem accepted_append {fs gs : List Finding} :
    Accepted (fs ++ gs) ↔ Accepted fs ∧ Accepted gs := by
  rw [Accepted, Report.violation?_append, Option.or_eq_none_iff]
  rfl

@[simp] theorem not_accepted_violation {v : Violation} {span : Span} {fs : List Finding} :
    ¬ Accepted (.violation v span :: fs) :=
  nofun

theorem Program.check_accepted {p : Program} :
    p.check.error? = none ↔ Accepted (Block.findings .top p.body) :=
  Option.map_eq_none_iff

/-! ### Findings in alike code -/

namespace Likeness

variable (L : Likeness)

/-- The same finding at places that may stand for each other. -/
inductive Findings : Finding → Finding → Prop
  | violation (v : Violation) {a b : Span} (hs : L.Spans a b) :
    Findings (.violation v a) (.violation v b)
  | warning (s : Suspicion) {a b : Span} (hs : L.Spans a b) :
    Findings (.warning ⟨s, a⟩) (.warning ⟨s, b⟩)

/-- The same warning at places that may stand for each other. -/
structure Warnings (v w : Warning) : Prop where
  suspicion : v.suspicion = w.suspicion
  span : L.Spans v.span w.span

/-- Reports of the same warnings, and of the same violation if there is one. -/
structure Reports (r s : Report) : Prop where
  warnings : List.Forall₂ L.Warnings r.warnings s.warnings
  violation? : Option.Rel (fun a b => a.1 = b.1 ∧ L.Spans a.2 b.2) r.violation? s.violation?

variable {L}

theorem reports_of_findings {fs gs : List Finding} (h : List.Forall₂ L.Findings fs gs) :
    L.Reports (.ofFindings fs) (.ofFindings gs) := by
  induction h with
  | nil => exact ⟨.nil, .none⟩
  | cons hf _ ih =>
    cases hf with
    | violation v hs => exact ⟨.nil, .some ⟨rfl, hs⟩⟩
    | warning s hs => exact ⟨.cons ⟨rfl, hs⟩ ih.warnings, ih.violation?⟩

theorem Reports.error?_eq_none {r s : Report} (h : L.Reports r s) :
    r.error? = none ↔ s.error? = none := by
  have hv := h.violation?
  rw [Report.error?, Report.error?, Option.map_eq_none_iff, Option.map_eq_none_iff]
  generalize r.violation? = a at hv
  generalize s.violation? = b at hv
  cases hv with
  | none => exact Iff.rfl
  | some _ => exact ⟨nofun, nofun⟩

end Likeness

section

variable {L : Likeness} {φ : Type}

theorem Stmt.Alike.span {p : Surroundings} {s t : Stmt φ} (h : s.Alike L p t) :
    L.Spans s.span t.span := by
  cases h <;> assumption

theorem Stmt.Alike.endsBlock_eq {p : Surroundings} {s t : Stmt φ} (h : s.Alike L p t) :
    s.endsBlock = t.endsBlock := by
  cases h <;> rfl

/-- The dead part of a block starts at its first statement and stops at its last. -/
theorem Block.Alike.spanThrough (hl : ¬ L.loose) {p : Surroundings} {s t : Stmt φ}
    {ss ts : List (Stmt φ)} (hs : s.Alike L p t) (h : Block.Alike L p ss ts) :
    L.Spans (s.spanThrough ss) (t.spanThrough ts) := by
  refine L.merge hs.span ?_
  induction ss generalizing s t ts with
  | nil =>
    cases h
    exact hs.span
  | cons s' ss ih =>
    cases h with
    | cons hs' hss =>
      rw [List.getLast_cons (List.cons_ne_nil _ _), List.getLast_cons (List.cons_ne_nil _ _)]
      exact ih hs' hss
    | ends loose => exact absurd loose hl

theorem repeatedParameters_alike {xs ys : List (Located String)}
    (h : List.Forall₂ L.Located xs ys) (seen : List String) :
    List.Forall₂ L.Findings (repeatedParameters seen xs) (repeatedParameters seen ys) := by
  induction h generalizing seen with
  | nil => exact .nil
  | cons hx _ ih =>
    rw [repeatedParameters, repeatedParameters, hx.val]
    split
    · exact .cons (.violation _ hx.span) (ih seen)
    · exact ih _

theorem globalFindings_alike (p : Surroundings) (global : Bool) (x : String) {a b : Span}
    (hs : L.Spans a b) :
    List.Forall₂ L.Findings (globalFindings p global x a) (globalFindings p global x b) := by
  rw [globalFindings, globalFindings]
  split
  · exact .cons (.violation _ hs) .nil
  · exact .nil

mutual

theorem Expr.findings_alike (hl : ¬ L.loose) {p : Surroundings} : (e : Expr φ) → {d : Expr φ} →
    e.Alike L p d → List.Forall₂ L.Findings (e.findings p) (d.findings p)
  | .number .., _, .number _ => .nil
  | .text .., _, .text _ => .nil
  | .bool .., _, .bool _ => .nil
  | .nil .., _, .nil _ => .nil
  | .array _ es, _, .array _ he => Expr.listFindings_alike hl es he
  | .group _ e, _, .group _ he => by
    rw [Expr.findings, Expr.findings]
    exact e.findings_alike hl he
  | .name .., _, .name hs _ => globalFindings_alike p _ _ hs
  | .binary _ _ e₁ e₂, _, .binary _ h₁ h₂ =>
    List.rel_append (e₁.findings_alike hl h₁) (e₂.findings_alike hl h₂)
  | .unary _ _ e, _, .unary _ he => by
    rw [Expr.findings, Expr.findings]
    exact e.findings_alike hl he
  | .conditional _ e₁ e₂ e₃, _, .conditional _ h₁ h₂ h₃ =>
    List.rel_append (List.rel_append (e₁.findings_alike hl h₁) (e₂.findings_alike hl h₂))
      (e₃.findings_alike hl h₃)
  | .call _ e es, _, .call _ he ha =>
    List.rel_append (e.findings_alike hl he) (Expr.listFindings_alike hl es ha)
  | .index _ e₁ e₂, _, .index _ h₁ h₂ =>
    List.rel_append (e₁.findings_alike hl h₁) (e₂.findings_alike hl h₂)
  | .slice _ e start stop, _, .slice _ he h₁ h₂ =>
    List.rel_append (List.rel_append (e.findings_alike hl he)
      (Expr.optionFindings_alike hl start h₁)) (Expr.optionFindings_alike hl stop h₂)
  | .assign _ _ _ _ e, _, .assign hs _ he =>
    List.rel_append (globalFindings_alike p _ _ hs) (e.findings_alike hl he)
  | .assignIndex _ _ constant x e₁ e₂, _, .assignIndex hs _ h₁ h₂ => by
    refine List.rel_append (List.rel_append (List.rel_append (globalFindings_alike p _ _ hs) ?_)
      (e₁.findings_alike hl h₁)) (e₂.findings_alike hl h₂)
    split
    · exact .cons (.warning _ hs) .nil
    · exact .nil
  | .function _ _ _ body, _, .function _ hx hb =>
    List.rel_append (repeatedParameters_alike hx []) (Block.findings_alike hl body hb)
termination_by structural x => x

theorem Expr.listFindings_alike (hl : ¬ L.loose) {p : Surroundings} : (es : List (Expr φ)) →
    {ds : List (Expr φ)} → Expr.AllAlike L p es ds →
    List.Forall₂ L.Findings (Expr.listFindings p es) (Expr.listFindings p ds)
  | [], _, .nil => .nil
  | e :: es, _, .cons he hes =>
    List.rel_append (e.findings_alike hl he) (Expr.listFindings_alike hl es hes)
termination_by structural x => x

theorem Expr.optionFindings_alike (hl : ¬ L.loose) {p : Surroundings} : (e : Option (Expr φ)) →
    {d : Option (Expr φ)} → Expr.OptionAlike L p e d →
    List.Forall₂ L.Findings (Expr.optionFindings p e) (Expr.optionFindings p d)
  | none, _, .none => .nil
  | some e, _, .some he => e.findings_alike hl he
termination_by structural x => x

theorem Stmt.findings_alike (hl : ¬ L.loose) {p : Surroundings} : (s : Stmt φ) → {t : Stmt φ} →
    s.Alike L p t → List.Forall₂ L.Findings (s.findings p) (t.findings p)
  | .expr _ e, _, .expr _ he => e.findings_alike hl he
  | .block _ body, _, .block _ hb => Block.findings_alike hl body hb
  | .cond _ e yes no, _, .cond _ he hy hn =>
    List.rel_append (List.rel_append (e.findings_alike hl he) (Block.findings_alike hl yes hy))
      (Block.optionFindings_alike hl no hn)
  | .while _ e body, _, .while _ he hb =>
    List.rel_append (e.findings_alike hl he) (Block.findings_alike hl body hb)
  | .range _ _ _ e₁ e₂ body, _, .range _ _ _ h₁ h₂ hb =>
    List.rel_append (List.rel_append (e₁.findings_alike hl h₁) (e₂.findings_alike hl h₂))
      (Block.findings_alike hl body hb)
  | .break _, _, .break hs _ => by
    rw [Stmt.findings, Stmt.findings]
    split
    · exact .nil
    · exact .cons (.violation _ hs) .nil
  | .continue _, _, .continue hs _ => by
    rw [Stmt.findings, Stmt.findings]
    split
    · exact .nil
    · exact .cons (.violation _ hs) .nil
  | .return _ e, _, .return hs _ he => by
    rw [Stmt.findings, Stmt.findings]
    split
    · exact Expr.optionFindings_alike hl e he
    · exact .cons (.violation _ hs) .nil
termination_by structural x => x

theorem Block.findings_alike (hl : ¬ L.loose) {p : Surroundings} : (ss : List (Stmt φ)) →
    {ts : List (Stmt φ)} → Block.Alike L p ss ts →
    List.Forall₂ L.Findings (Block.findings p ss) (Block.findings p ts)
  | [], _, .nil => .nil
  | [s], _, .cons hs .nil => s.findings_alike hl hs
  | s :: t :: ss, _, .cons hs (.cons ht hss) => by
    rw [Block.findings, Block.findings, hs.endsBlock_eq]
    refine List.rel_append (s.findings_alike hl hs) ?_
    split
    · exact .cons (.warning _ (Block.Alike.spanThrough hl ht hss))
        (Block.deadFindings_alike hl (t :: ss) (.cons ht hss))
    · exact Block.findings_alike hl (t :: ss) (.cons ht hss)
  | _ :: _, _, .ends loose .. => absurd loose hl
  | _ :: _ :: _, _, .cons _ (.ends loose ..) => absurd loose hl
termination_by structural x => x

theorem Block.deadFindings_alike (hl : ¬ L.loose) {p : Surroundings} : (ss : List (Stmt φ)) →
    {ts : List (Stmt φ)} → Block.Alike L p ss ts →
    List.Forall₂ L.Findings (Block.deadFindings p ss) (Block.deadFindings p ts)
  | [], _, .nil => .nil
  | s :: ss, _, .cons hs hss =>
    List.rel_append (s.findings_alike hl hs) (Block.deadFindings_alike hl ss hss)
  | _ :: _, _, .ends loose .. => absurd loose hl
termination_by structural x => x

theorem Block.optionFindings_alike (hl : ¬ L.loose) {p : Surroundings} :
    (ss : Option (List (Stmt φ))) → {ts : Option (List (Stmt φ))} → Block.OptionAlike L p ss ts →
    List.Forall₂ L.Findings (Block.optionFindings p ss) (Block.optionFindings p ts)
  | none, _, .none => .nil
  | some body, _, .some hb => Block.findings_alike hl body hb
termination_by structural x => x

end

/-- Alike programs are reported on alike. -/
theorem Program.check_alike (hl : ¬ L.loose) {p q : Program}
    (h : Block.Alike L .top p.body q.body) : L.Reports p.check q.check :=
  Likeness.reports_of_findings (Block.findings_alike hl p.body h)

end

/-! ### Accepted code is alike to itself -/

/-- Nothing is misplaced, if that is asked for. -/
def Likeness.Admits (L : Likeness) (fs : List Finding) : Prop :=
  L.placed → Accepted fs

section

variable {L : Likeness} {φ : Type}

theorem admits_append {fs gs : List Finding} (h : L.Admits (fs ++ gs)) :
    L.Admits fs ∧ L.Admits gs :=
  ⟨fun hp => (accepted_append.mp (h hp)).1, fun hp => (accepted_append.mp (h hp)).2⟩

/-- What needs something around it is inside it. -/
theorem admits_ite {around : Bool} {fs : List Finding} {v : Violation} {span : Span}
    (h : L.Admits (if around then fs else [.violation v span])) :
    (L.placed → around = true) ∧ L.Admits fs := by
  cases around with
  | true => exact ⟨fun _ => rfl, h⟩
  | false => exact ⟨fun hp => absurd (h hp) not_accepted_violation,
      fun hp => absurd (h hp) not_accepted_violation⟩

theorem global_of_admits {p : Surroundings} {global : Bool} {x : String} {span : Span}
    (h : L.Admits (globalFindings p global x span)) : L.Global p global := by
  rintro hp rfl
  have h := h hp
  cases hf : p.inFunction with
  | true => rfl
  | false => simp [globalFindings, hf] at h

theorem located_self (hr : ∀ s, L.Spans s s) {α : Type} (xs : List (Located α)) :
    List.Forall₂ L.Located xs xs := by
  induction xs with
  | nil => exact .nil
  | cons x xs ih => exact .cons ⟨rfl, hr x.span⟩ ih

mutual

theorem Expr.alike_self (hr : ∀ s, L.Spans s s) {p : Surroundings} : (e : Expr φ) →
    L.Admits (e.findings p) → e.Alike L p e
  | .number .., _ => .number (hr _)
  | .text .., _ => .text (hr _)
  | .bool .., _ => .bool (hr _)
  | .nil _, _ => .nil (hr _)
  | .name .., h => .name (hr _) (global_of_admits h)
  | .array _ es, h => .array (hr _) (Expr.allAlike_self hr es h)
  | .group _ e, h => .group (hr _) (e.alike_self hr h)
  | .binary _ _ e₁ e₂, h =>
    have h := admits_append h
    .binary (hr _) (e₁.alike_self hr h.1) (e₂.alike_self hr h.2)
  | .unary _ _ e, h => .unary (hr _) (e.alike_self hr h)
  | .conditional _ e₁ e₂ e₃, h =>
    have h := admits_append h
    have h₁ := admits_append h.1
    .conditional (hr _) (e₁.alike_self hr h₁.1) (e₂.alike_self hr h₁.2)
      (e₃.alike_self hr h.2)
  | .call _ e es, h =>
    have h := admits_append h
    .call (hr _) (e.alike_self hr h.1) (Expr.allAlike_self hr es h.2)
  | .index _ e₁ e₂, h =>
    have h := admits_append h
    .index (hr _) (e₁.alike_self hr h.1) (e₂.alike_self hr h.2)
  | .slice _ e start stop, h =>
    have h := admits_append h
    have h₁ := admits_append h.1
    .slice (hr _) (e.alike_self hr h₁.1) (Expr.optionAlike_self hr start h₁.2)
      (Expr.optionAlike_self hr stop h.2)
  | .assign _ _ _ _ e, h =>
    have h := admits_append h
    .assign (hr _) (global_of_admits h.1) (e.alike_self hr h.2)
  | .assignIndex _ _ _ _ e₁ e₂, h =>
    have h := admits_append h
    have h₁ := admits_append h.1
    have h₂ := admits_append h₁.1
    .assignIndex (hr _) (global_of_admits h₂.1) (e₁.alike_self hr h₁.2)
      (e₂.alike_self hr h.2)
  | .function _ _ params body, h =>
    .function (hr _) (located_self hr params)
      (Block.alike_self hr body (admits_append h).2)
termination_by structural x => x

theorem Expr.allAlike_self (hr : ∀ s, L.Spans s s) {p : Surroundings} : (es : List (Expr φ)) →
    L.Admits (Expr.listFindings p es) → Expr.AllAlike L p es es
  | [], _ => .nil
  | e :: es, h =>
    have h := admits_append h
    .cons (e.alike_self hr h.1) (Expr.allAlike_self hr es h.2)
termination_by structural x => x

theorem Expr.optionAlike_self (hr : ∀ s, L.Spans s s) {p : Surroundings} : (e : Option (Expr φ)) →
    L.Admits (Expr.optionFindings p e) → Expr.OptionAlike L p e e
  | none, _ => .none
  | some e, h => .some (e.alike_self hr h)
termination_by structural x => x

theorem Stmt.alike_self (hr : ∀ s, L.Spans s s) {p : Surroundings} : (s : Stmt φ) →
    L.Admits (s.findings p) → s.Alike L p s
  | .expr _ e, h => .expr (hr _) (e.alike_self hr h)
  | .block _ body, h => .block (hr _) (Block.alike_self hr body h)
  | .cond _ e yes no, h =>
    have h := admits_append h
    have h₁ := admits_append h.1
    .cond (hr _) (e.alike_self hr h₁.1) (Block.alike_self hr yes h₁.2)
      (Block.optionAlike_self hr no h.2)
  | .while _ e body, h =>
    have h := admits_append h
    .while (hr _) (e.alike_self hr h.1) (Block.alike_self hr body h.2)
  | .range _ _ _ e₁ e₂ body, h =>
    have h := admits_append h
    have h₁ := admits_append h.1
    .range (hr _) ⟨rfl, hr _⟩ ⟨rfl, hr _⟩ (e₁.alike_self hr h₁.1) (e₂.alike_self hr h₁.2)
      (Block.alike_self hr body h.2)
  | .break _, h => .break (hr _) (admits_ite h).1
  | .continue _, h => .continue (hr _) (admits_ite h).1
  | .return _ e, h =>
    have h := admits_ite h
    .return (hr _) h.1 (Expr.optionAlike_self hr e h.2)
termination_by structural x => x

/-- Dead statements are checked too, so these may be asked to be placed as well. -/
theorem Block.alike_self (hr : ∀ s, L.Spans s s) {p : Surroundings} : (ss : List (Stmt φ)) →
    L.Admits (Block.findings p ss) → Block.Alike L p ss ss
  | [], _ => .nil
  | [s], h => .cons (s.alike_self hr h) .nil
  | s :: t :: ss, h => by
    rw [Block.findings] at h
    obtain ⟨h, hrest⟩ := admits_append h
    refine .cons (s.alike_self hr h) ?_
    split at hrest
    · exact Block.alike_self_of_dead hr (t :: ss) hrest
    · exact Block.alike_self hr (t :: ss) hrest
termination_by structural x => x

theorem Block.alike_self_of_dead (hr : ∀ s, L.Spans s s) {p : Surroundings} : (ss : List (Stmt φ)) →
    L.Admits (Block.deadFindings p ss) → Block.Alike L p ss ss
  | [], _ => .nil
  | s :: ss, h =>
    have h := admits_append h
    .cons (s.alike_self hr h.1) (Block.alike_self_of_dead hr ss h.2)
termination_by structural x => x

theorem Block.optionAlike_self (hr : ∀ s, L.Spans s s) {p : Surroundings} :
    (ss : Option (List (Stmt φ))) → L.Admits (Block.optionFindings p ss) → Block.OptionAlike L p ss ss
  | none, _ => .none
  | some body, h => .some (Block.alike_self hr body h)
termination_by structural x => x

end

end

/-! ### Findings in what follows an accepted program -/

theorem Stmt.endsBlock_of_accepted {φ : Type} {s : Stmt φ} (h : Accepted (s.findings .top)) :
    s.endsBlock = false := by
  cases s with
  | «break» span => exact absurd h not_accepted_violation
  | «continue» span => exact absurd h not_accepted_violation
  | «return» span value => exact absurd h not_accepted_violation
  | _ => rfl

theorem Block.findings_append {φ : Type} {ss ts : List (Stmt φ)}
    (h : Accepted (Block.findings .top ss)) :
    Block.findings .top (ss ++ ts) = Block.findings .top ss ++ Block.findings .top ts := by
  induction ss with
  | nil => rfl
  | cons s ss ih =>
    cases ss with
    | nil =>
      cases ts with
      | nil => exact (List.append_nil _).symm
      | cons t ts =>
        rw [Block.findings] at h
        rw [List.singleton_append, Block.findings, Block.findings, Stmt.endsBlock_of_accepted h]
        rfl
    | cons t ss =>
      rw [Block.findings, accepted_append] at h
      -- nothing that is accepted at the top ends the block, so the rest is not dead
      have hs := Stmt.endsBlock_of_accepted h.1
      rw [hs] at h
      have hrest := ih h.2
      rw [List.cons_append, List.cons_append, Block.findings, Block.findings, hs,
        List.append_assoc]
      exact congrArg _ hrest

theorem Report.warnings_append {fs : List Finding} (h : Accepted fs) (gs : List Finding) :
    (ofFindings (fs ++ gs)).warnings = (ofFindings fs).warnings ++ (ofFindings gs).warnings := by
  induction fs with
  | nil => rfl
  | cons f fs ih =>
    cases f with
    | violation v span => exact absurd h not_accepted_violation
    | warning w => exact congrArg (w :: ·) (ih h)

/-- A program behind an accepted one is checked as if it were alone. -/
theorem Program.check_append {p q : Program} (h : p.check.error? = none) :
    (check ⟨p.body ++ q.body⟩).warnings = p.check.warnings ++ q.check.warnings ∧
      (check ⟨p.body ++ q.body⟩).error? = q.check.error? := by
  have hp := check_accepted.mp h
  have hfindings : check ⟨p.body ++ q.body⟩ =
      .ofFindings (Block.findings .top p.body ++ Block.findings .top q.body) :=
    congrArg _ (Block.findings_append hp)
  rw [hfindings]
  refine ⟨Report.warnings_append hp _, ?_⟩
  rw [Report.error?, Report.violation?_append, show (Report.ofFindings _).violation? = none from hp]
  rfl

end Scriptlet
