import Scriptlet.Proofs.Findings
import Scriptlet.Proofs.Occurrence

/-!
The rules that a program is checked for.

They are about single nodes: `Node.Violates` says which nodes are violations, given the bodies that
are around them, and `Node.Warns` says which are worth a warning. `Node.ownFindings` computes what
they say of a node (`Node.mem_ownFindings`), which is one violation and one warning at most
(`Node.ownFindings_pairwise`).
-/
namespace Scriptlet

/-! ### What is around a node -/

/-- A loop body is around a node inside the innermost function, or at the top level. -/
def InLoop (trail : List Enclosure) : Prop :=
  ∃ inner outer, trail = inner ++ .loopBody :: outer ∧ .functionBody ∉ inner

def Surroundings.ofTrail : List Enclosure → Surroundings
  | [] => .top
  | .part :: trail => ofTrail trail
  | .loopBody :: trail => (ofTrail trail).loop
  | .functionBody :: _ => .body

theorem Surroundings.inLoop_ofTrail {trail : List Enclosure} :
    (ofTrail trail).inLoop = true ↔ InLoop trail := by
  induction trail with
  | nil =>
    constructor
    · exact nofun
    · rintro ⟨inner, outer, h, -⟩
      cases inner <;> cases h
  | cons enclosure trail ih =>
    -- Unless it is a loop, the innermost body only matters by being that of a function.
    have hcons : enclosure ≠ .loopBody →
        (InLoop (enclosure :: trail) ↔ enclosure ≠ .functionBody ∧ InLoop trail) := by
      intro hne
      constructor
      · rintro ⟨inner, outer, h, hinner⟩
        cases inner with
        | nil =>
          cases h
          exact absurd rfl hne
        | cons e inner =>
          cases h
          rw [List.mem_cons, not_or] at hinner
          exact ⟨Ne.symm hinner.1, inner, outer, rfl, hinner.2⟩
      · rintro ⟨hfunction, inner, outer, rfl, hinner⟩
        refine ⟨enclosure :: inner, outer, rfl, ?_⟩
        rw [List.mem_cons, not_or]
        exact ⟨Ne.symm hfunction, hinner⟩
    cases enclosure with
    | part => simpa [hcons, ofTrail] using ih
    | loopBody => exact ⟨fun _ => ⟨[], trail, rfl, List.not_mem_nil⟩, fun _ => rfl⟩
    | functionBody => simp [hcons, ofTrail, body]

theorem Surroundings.inFunction_ofTrail {trail : List Enclosure} :
    (ofTrail trail).inFunction = true ↔ .functionBody ∈ trail := by
  induction trail with
  | nil => exact ⟨nofun, nofun⟩
  | cons enclosure trail ih =>
    cases enclosure with
    | part => simpa [ofTrail] using ih
    | loopBody => simpa [ofTrail, loop] using ih
    | functionBody => simp [ofTrail, body]

/-! ### What is wrong with a node -/

/-- What makes a node a violation, with what is around it. -/
inductive Node.Violates {φ : Type} (trail : List Enclosure) : Node φ → Violation → Span → Prop
  | break {before span after} (outside : ¬ InLoop trail) :
      Violates trail (.stmt before (.break span) after) .breakOutsideLoop span
  | continue {before span after} (outside : ¬ InLoop trail) :
      Violates trail (.stmt before (.continue span) after) .continueOutsideLoop span
  | return {before span value after} (outside : .functionBody ∉ trail) :
      Violates trail (.stmt before (.return span value) after) .returnOutsideFunction span
  | name {span x} (outside : .functionBody ∉ trail) :
      Violates trail (.expr (.name span true x)) (.globalOutsideFunction x) span
  | assign {span constant x value} (outside : .functionBody ∉ trail) :
      Violates trail (.expr (.assign span true constant x value)) (.globalOutsideFunction x) span
  | assignIndex {span constant x i value} (outside : .functionBody ∉ trail) :
      Violates trail (.expr (.assignIndex span true constant x i value)) (.globalOutsideFunction x)
        span
  | param {before x} (repeats : x.val ∈ before.map (·.val)) :
      Violates trail (.param before x) (.repeatedParameter x.val) x.span

/-- What makes a node worth a warning. The statements behind the first that ends a block count as
one, from the next statement on. -/
inductive Node.Warns {φ : Type} : Node φ → Warning → Prop
  | constantElement {span global x i value} :
      Warns (.expr (.assignIndex span global true x i value)) ⟨.constantElement x, span⟩
  | unreachable {live s t after} (ends : s.endsBlock = true)
      (first : ∀ u ∈ live, u.endsBlock = false) :
      Warns (.stmt (live ++ [s]) t after) ⟨.unreachable, t.spanThrough after⟩

/-- Whether the part of a block that is never reached starts behind these statements. -/
def Block.startsDead {φ : Type} : Block φ → Bool
  | [] => false
  | [s] => s.endsBlock
  | s :: t :: rest => !s.endsBlock && startsDead (t :: rest)

/-- What is found in a statement itself. -/
def Stmt.ownFindings {φ : Type} (place : Surroundings) : Stmt φ → List Finding
  | .break span => if place.inLoop then [] else [.violation .breakOutsideLoop span]
  | .continue span => if place.inLoop then [] else [.violation .continueOutsideLoop span]
  | .return span _ => if place.inFunction then [] else [.violation .returnOutsideFunction span]
  | _ => []

/-- What is found in an expression itself. -/
def Expr.ownFindings {φ : Type} (place : Surroundings) : Expr φ → List Finding
  | .name span global x | .assign span global _ x _ => globalFindings place global x span
  | .assignIndex span global constant x _ _ =>
    globalFindings place global x span
      ++ if constant then [.warning ⟨.constantElement x, span⟩] else []
  | _ => []

/-- The warning about statements that are never reached, if they start here. -/
def Stmt.deadFindings {φ : Type} (s : Stmt φ) (before after : Block φ) : List Finding :=
  if Block.startsDead before then [.warning ⟨.unreachable, s.spanThrough after⟩] else []

/-- The violation of a parameter that is named like one before it. -/
def paramFindings (before : List (Located String)) (x : Located String) : List Finding :=
  if x.val ∈ before.map (·.val) then [.violation (.repeatedParameter x.val) x.span] else []

namespace Node

variable {φ : Type}

/-- What is found in a node itself, and not in its children. -/
def ownFindings (place : Surroundings) : Node φ → List Finding
  | .block _ => []
  | .stmt before s after => s.deadFindings before after ++ s.ownFindings place
  | .expr e => e.ownFindings place
  | .param before x => paramFindings before x

end Node

/-! ### Where the dead part of a block starts -/

namespace Block

variable {φ : Type}

theorem startsDead_concat {before : Block φ} (s : Stmt φ)
    (h : ∀ t ∈ before, t.endsBlock = false) : startsDead (before ++ [s]) = s.endsBlock := by
  induction before with
  | nil => rfl
  | cons t before ih =>
    obtain ⟨ht, hbefore⟩ := List.forall_mem_cons.mp h
    cases before with
    | nil => simp [startsDead, ht]
    | cons u before => simpa [startsDead, ht] using ih hbefore

theorem startsDead_concat_of_ends {before : Block φ} {s : Stmt φ}
    (h : ∃ t ∈ before, t.endsBlock = true) : startsDead (before ++ [s]) = false := by
  induction before with
  | nil =>
    obtain ⟨t, ht, -⟩ := h
    cases ht
  | cons t before ih =>
    cases before with
    | nil =>
      obtain ⟨u, hu, hends⟩ := h
      cases List.mem_singleton.mp hu
      simp [startsDead, hends]
    | cons u before =>
      cases ht : t.endsBlock with
      | true => simp [startsDead, ht]
      | false =>
        obtain ⟨v, hv, hends⟩ := h
        rcases List.mem_cons.mp hv with rfl | hv
        · cases ht.symm.trans hends
        · simpa [startsDead, ht] using ih ⟨v, hv, hends⟩

theorem startsDead_iff {before : Block φ} :
    startsDead before = true ↔
      ∃ live s, before = live ++ [s] ∧ s.endsBlock = true ∧ ∀ t ∈ live, t.endsBlock = false := by
  constructor
  · intro h
    rcases List.eq_nil_or_concat before with rfl | ⟨live, s, rfl⟩
    · cases h
    · rw [List.concat_eq_append] at h ⊢
      have hlive : ∀ t ∈ live, t.endsBlock = false := by
        intro t ht
        by_contra hends
        rw [startsDead_concat_of_ends ⟨t, ht, eq_true_of_ne_false hends⟩] at h
        cases h
      rw [startsDead_concat s hlive] at h
      exact ⟨live, s, rfl, h, hlive⟩
  · rintro ⟨live, s, rfl, hs, hlive⟩
    rw [startsDead_concat s hlive, hs]

theorem startsDead_of_live {before : Block φ} (h : ∀ t ∈ before, t.endsBlock = false) :
    startsDead before = false := by
  rw [← Bool.not_eq_true, startsDead_iff]
  rintro ⟨live, s, rfl, hs, -⟩
  have hs' := h s (List.mem_append_right live (List.mem_singleton_self s))
  cases hs.symm.trans hs'

end Block

/-! ### Findings are violations and warnings -/

def Finding.isViolation : Finding → Bool
  | .violation .. => true
  | .warning _ => false

namespace Node

variable {φ : Type}

theorem ownFindings_pairwise (place : Surroundings) (p : Node φ) :
    (p.ownFindings place).Pairwise fun f g => f.isViolation ≠ g.isViolation := by
  cases p with
  | block body => exact .nil
  | stmt before s after =>
    rw [ownFindings, Stmt.deadFindings]
    cases s with
    | «break» span | «continue» span | «return» span value =>
      simp only [Stmt.ownFindings]
      split <;> split <;> simp [Finding.isViolation]
    | _ =>
      simp only [Stmt.ownFindings]
      split <;> simp
  | expr e =>
    rw [ownFindings]
    cases e with
    | name span global x | assign span global constant x value =>
      simp only [Expr.ownFindings, globalFindings]
      split <;> simp
    | assignIndex span global constant x i value =>
      simp only [Expr.ownFindings, globalFindings]
      split <;> split <;> simp [Finding.isViolation]
    | _ => exact .nil
  | param before x =>
    rw [ownFindings, paramFindings]
    split <;> simp

section

variable {trail : List Enclosure} {f : Finding}

theorem mem_globalFindings {global : Bool} {x : String} {span : Span} :
    f ∈ globalFindings (.ofTrail trail) global x span ↔
      global = true ∧ .functionBody ∉ trail ∧ f = .violation (.globalOutsideFunction x) span := by
  rw [← Surroundings.inFunction_ofTrail, globalFindings]
  cases global <;> cases (Surroundings.ofTrail trail).inFunction <;> simp

theorem mem_ownFindings_stmt {before after : Block φ} {s : Stmt φ} :
    f ∈ s.ownFindings (.ofTrail trail) ↔
      ∃ v span, f = .violation v span ∧ (Node.stmt before s after).Violates trail v span := by
  constructor
  · intro h
    cases s with
    | «break» span =>
      simp only [Stmt.ownFindings] at h
      split at h
      · cases h
      · rename_i hloop
        cases List.mem_singleton.mp h
        exact ⟨_, _, rfl, .break fun hin => hloop (Surroundings.inLoop_ofTrail.mpr hin)⟩
    | «continue» span =>
      simp only [Stmt.ownFindings] at h
      split at h
      · cases h
      · rename_i hloop
        cases List.mem_singleton.mp h
        exact ⟨_, _, rfl, .continue fun hin => hloop (Surroundings.inLoop_ofTrail.mpr hin)⟩
    | «return» span value =>
      simp only [Stmt.ownFindings] at h
      split at h
      · cases h
      · rename_i hcall
        cases List.mem_singleton.mp h
        exact ⟨_, _, rfl, .return fun hin => hcall (Surroundings.inFunction_ofTrail.mpr hin)⟩
    | _ => cases h
  · rintro ⟨v, span, rfl, h⟩
    cases h with
    | «break» outside | «continue» outside =>
      rw [← Surroundings.inLoop_ofTrail] at outside
      simp [Stmt.ownFindings, outside]
    | «return» outside =>
      rw [← Surroundings.inFunction_ofTrail] at outside
      simp [Stmt.ownFindings, outside]

theorem mem_deadFindings {before after : Block φ} {s : Stmt φ} :
    f ∈ s.deadFindings before after ↔
      ∃ w, f = .warning w ∧ (Node.stmt before s after).Warns w := by
  rw [Stmt.deadFindings]
  constructor
  · intro h
    split at h
    · rename_i hdead
      obtain ⟨live, t, rfl, ht, hlive⟩ := Block.startsDead_iff.mp hdead
      cases List.mem_singleton.mp h
      exact ⟨_, rfl, .unreachable ht hlive⟩
    · cases h
  · rintro ⟨w, rfl, h⟩
    cases h with
    | unreachable ends first =>
      rw [if_pos (Block.startsDead_iff.mpr ⟨_, _, rfl, ends, first⟩)]
      exact List.mem_singleton_self _

theorem mem_ownFindings_expr {e : Expr φ} :
    f ∈ e.ownFindings (.ofTrail trail) ↔
      (∃ v span, f = .violation v span ∧ (Node.expr e).Violates trail v span) ∨
        ∃ w, f = .warning w ∧ (Node.expr e).Warns w := by
  constructor
  · intro h
    cases e with
    | name span global x =>
      obtain ⟨rfl, outside, rfl⟩ := mem_globalFindings.mp h
      exact .inl ⟨_, _, rfl, .name outside⟩
    | assign span global constant x value =>
      obtain ⟨rfl, outside, rfl⟩ := mem_globalFindings.mp h
      exact .inl ⟨_, _, rfl, .assign outside⟩
    | assignIndex span global constant x i value =>
      rcases List.mem_append.mp h with h | h
      · obtain ⟨rfl, outside, rfl⟩ := mem_globalFindings.mp h
        exact .inl ⟨_, _, rfl, .assignIndex outside⟩
      · cases constant with
        | true =>
          cases List.mem_singleton.mp h
          exact .inr ⟨_, rfl, .constantElement⟩
        | false => cases h
    | _ => cases h
  · rintro (⟨v, span, rfl, h⟩ | ⟨w, rfl, h⟩)
    · cases h with
      | name outside | assign outside => exact mem_globalFindings.mpr ⟨rfl, outside, rfl⟩
      | assignIndex outside =>
        exact List.mem_append_left _ (mem_globalFindings.mpr ⟨rfl, outside, rfl⟩)
    · cases h with
      | constantElement => exact List.mem_append_right _ (List.mem_singleton_self _)

/-- What is found in a node itself is what violates the rules and what is worth a warning. -/
theorem mem_ownFindings {p : Node φ} :
    f ∈ p.ownFindings (.ofTrail trail) ↔
      (∃ v span, f = .violation v span ∧ p.Violates trail v span) ∨
        ∃ w, f = .warning w ∧ p.Warns w := by
  cases p with
  | block body =>
    constructor
    · exact nofun
    · rintro (⟨v, span, rfl, h⟩ | ⟨w, rfl, h⟩) <;> cases h
  | stmt before s after =>
    rw [ownFindings, List.mem_append, mem_deadFindings, mem_ownFindings_stmt, or_comm]
  | expr e => exact mem_ownFindings_expr
  | param before x =>
    rw [ownFindings, paramFindings]
    constructor
    · intro h
      split at h
      · cases List.mem_singleton.mp h
        exact .inl ⟨_, _, rfl, .param ‹_›⟩
      · cases h
    · rintro (⟨v, span, rfl, h⟩ | ⟨w, rfl, h⟩)
      · cases h with
        | param repeats =>
          rw [if_pos repeats]
          exact List.mem_singleton_self _
      · cases h

end

end Node
end Scriptlet
