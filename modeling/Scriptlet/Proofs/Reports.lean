import Scriptlet.Proofs.Rules

/-!
What a check reports.

Each rule is about single nodes. That something is reported wherever it occurs, once and in the
order of the source, is then a matter of all nodes of a program and their paths
(`Program.check_exact`).

The check goes through the tree and passes down whether it is inside a loop or a function. What it
finds in a node is what is wrong with the node itself and then what it finds in the children
(`Node.report_eq`), so by induction its findings are those of all nodes, in the order of their paths
(`Node.reported`). It reports them up to the first violation.
-/
namespace Scriptlet

/-! ### Paths -/

abbrev Path := List Nat

/-- The order of the source; a node comes before what lies in it. -/
def Path.Before : Path → Path → Prop := List.Lex (· < ·)

namespace Path.Before

theorem asymm {a b : Path} (h : a.Before b) : ¬ b.Before a := by
  induction h with
  | nil => exact nofun
  | cons _ ih =>
    intro h
    cases h with
    | cons h => exact ih h
    | rel h => exact Nat.lt_irrefl _ h
  | rel h =>
    intro h'
    cases h' with
    | cons _ => exact Nat.lt_irrefl _ h
    | rel h' => exact Nat.lt_asymm h h'

theorem irrefl (a : Path) : ¬ a.Before a :=
  fun h => h.asymm h

end Path.Before

/-! ### What is found in a node is found in it or in its children -/

namespace Node

variable {φ : Type}

/-- What is found in a node. -/
def findings (place : Surroundings) : Node φ → List Finding
  | .block body => Block.findings place body
  | .stmt before s after => s.deadFindings before after ++ s.findings place
  | .expr e => e.findings place
  | .param before x => paramFindings before x

/-- What is found in nodes that lie in a node. -/
def findingsOfAll (trail : List Enclosure) (nodes : List (Enclosure × Node φ)) : List Finding :=
  nodes.flatMap fun node => node.2.findings (.ofTrail (node.1 :: trail))

end Node

section

variable {φ : Type} {trail : List Enclosure}

open Node (findingsOfAll)

@[simp] theorem findingsOfAll_nil : findingsOfAll trail ([] : List (Enclosure × Node φ)) = [] := rfl

@[simp] theorem findingsOfAll_cons {enclosure : Enclosure} {q : Node φ}
    {nodes : List (Enclosure × Node φ)} :
    findingsOfAll trail ((enclosure, q) :: nodes) =
      q.findings (.ofTrail (enclosure :: trail)) ++ findingsOfAll trail nodes := rfl

@[simp] theorem findingsOfAll_append {nodes nodes' : List (Enclosure × Node φ)} :
    findingsOfAll trail (nodes ++ nodes') =
      findingsOfAll trail nodes ++ findingsOfAll trail nodes' :=
  List.flatMap_append

@[simp] theorem findingsOfAll_expressions {es : List (Expr φ)} :
    findingsOfAll trail (Node.expressions es) = Expr.listFindings (.ofTrail trail) es := by
  induction es with
  | nil => rfl
  | cons e es ih => exact congrArg (e.findings (.ofTrail trail) ++ ·) ih

theorem listFindings_append {place : Surroundings} {es ds : List (Expr φ)} :
    Expr.listFindings place (es ++ ds) =
      Expr.listFindings place es ++ Expr.listFindings place ds := by
  induction es with
  | nil => rfl
  | cons e es ih =>
    rw [List.cons_append, Expr.listFindings, Expr.listFindings, ih, List.append_assoc]

theorem listFindings_toList {place : Surroundings} {e : Option (Expr φ)} :
    Expr.listFindings place e.toList = Expr.optionFindings place e := by
  cases e with
  | none => rfl
  | some e => exact List.append_nil _

/-- A parameter is repeated if it is among those that were seen, which are those before it. -/
theorem findingsOfAll_parameters {seen : List String} {before after : List (Located String)}
    (hseen : ∀ x, x ∈ seen ↔ x ∈ before.map (·.val)) :
    findingsOfAll trail (Node.parameters before after : List (Enclosure × Node φ)) =
      repeatedParameters seen after := by
  induction after generalizing seen before with
  | nil => rfl
  | cons x after ih =>
    rw [Node.parameters, findingsOfAll_cons, repeatedParameters, Node.findings, paramFindings]
    by_cases hx : x.val ∈ seen
    · have hsame : ∀ y, y ∈ seen ↔ y ∈ (before ++ [x]).map (·.val) := by
        intro y
        rw [List.map_append, List.mem_append, ← hseen y]
        constructor
        · exact .inl
        · rintro (hy | hy)
          · exact hy
          · rw [List.mem_singleton.mp hy]
            exact hx
      rw [if_pos hx, if_pos ((hseen x.val).mp hx), ih hsame]
      rfl
    · have hmore : ∀ y, y ∈ x.val :: seen ↔ y ∈ (before ++ [x]).map (·.val) := by
        intro y
        rw [List.map_append, List.mem_append, ← hseen y, List.mem_cons, or_comm]
        exact Iff.or Iff.rfl List.mem_singleton.symm
      rw [if_neg hx, if_neg fun h => hx ((hseen x.val).mpr h), ih hmore]
      rfl

/-- Nothing more is said of statements behind one that is never reached. -/
theorem findingsOfAll_dead {before after : Block φ} (hends : ∃ t ∈ before, t.endsBlock = true)
    (hdead : Block.startsDead before = false) :
    findingsOfAll trail (Node.statements before after) =
      Block.deadFindings (.ofTrail trail) after := by
  induction after generalizing before with
  | nil => rfl
  | cons s after ih =>
    obtain ⟨t, ht, htends⟩ := hends
    rw [Node.statements, findingsOfAll_cons, ih ⟨t, List.mem_append_left _ ht, htends⟩
      (Block.startsDead_concat_of_ends ⟨t, ht, htends⟩), Block.deadFindings, Node.findings,
      Stmt.deadFindings, hdead]
    rfl

theorem findingsOfAll_statements {before after : Block φ}
    (hlive : ∀ t ∈ before, t.endsBlock = false) :
    findingsOfAll trail (Node.statements before after) = Block.findings (.ofTrail trail) after := by
  induction after generalizing before with
  | nil => rfl
  | cons s after ih =>
    rw [Node.statements, findingsOfAll_cons, Node.findings, Stmt.deadFindings,
      Block.startsDead_of_live hlive]
    cases after with
    | nil => exact List.append_nil _
    | cons t after =>
      rw [Block.findings]
      cases hs : s.endsBlock with
      | true =>
        have hstarts : Block.startsDead (before ++ [s]) = true := by
          rw [Block.startsDead_concat s hlive, hs]
        have hends : ∃ u ∈ before ++ [s], u.endsBlock = true :=
          ⟨s, List.mem_append_right before (List.mem_singleton_self s), hs⟩
        rw [Node.statements, findingsOfAll_cons, Node.findings, Stmt.deadFindings, hstarts,
          findingsOfAll_dead (by
            obtain ⟨u, hu, huends⟩ := hends
            exact ⟨u, List.mem_append_left _ hu, huends⟩) (Block.startsDead_concat_of_ends hends)]
        rfl
      | false =>
        rw [ih]
        · rfl
        · intro u hu
          rcases List.mem_append.mp hu with hu | hu
          · exact hlive u hu
          · rw [List.mem_singleton.mp hu, hs]

theorem Expr.findings_eq (e : Expr φ) :
    e.findings (.ofTrail trail) =
      e.ownFindings (.ofTrail trail) ++ findingsOfAll trail (Node.expr e).children := by
  cases e with
  | function span mark params body =>
    have hparams : findingsOfAll trail (Node.parameters [] params : List (Enclosure × Node φ)) =
        repeatedParameters [] params :=
      findingsOfAll_parameters fun x => Iff.rfl
    simp [Expr.findings, Expr.ownFindings, Node.children, Node.findings, Surroundings.ofTrail,
      hparams]
  | _ =>
    simp [Expr.findings, Expr.ownFindings, Node.children, Expr.listFindings, listFindings_append,
      listFindings_toList]

/-- A report with what is reported of findings that follow. -/
def Report.followedBy (r s : Report) : Report :=
  if r.violation?.isSome then r else ⟨r.warnings ++ s.warnings, s.violation?⟩

theorem Report.ofFindings_append (fs gs : List Finding) :
    ofFindings (fs ++ gs) = (ofFindings fs).followedBy (ofFindings gs) := by
  induction fs with
  | nil => rfl
  | cons f fs ih =>
    cases f with
    | violation v span => rfl
    | warning w =>
      rw [List.cons_append, ofFindings, ofFindings, ih]
      unfold followedBy
      split <;> simp_all

/-- What follows a violation is not reported, so it makes no difference that nothing is found in the
value of a `return` that is misplaced. -/
theorem Stmt.report_eq (s : Stmt φ) (before after : Block φ) :
    Report.ofFindings (s.findings (.ofTrail trail)) =
      .ofFindings (s.ownFindings (.ofTrail trail)
        ++ findingsOfAll trail (Node.stmt before s after).children) := by
  cases s with
  | «return» span value =>
    simp only [Stmt.findings, Stmt.ownFindings, Node.children, findingsOfAll_expressions,
      listFindings_toList]
    split <;> rfl
  | cond span test yes no =>
    cases no <;>
      simp [Stmt.findings, Stmt.ownFindings, Node.children, Node.findings, Surroundings.ofTrail,
        Expr.listFindings, Block.optionFindings]
  | _ =>
    simp [Stmt.findings, Stmt.ownFindings, Node.children, Node.findings, Surroundings.ofTrail,
      Expr.listFindings]

/-- What is reported of a node is what is found in it and then in its children. -/
theorem Node.report_eq (p : Node φ) :
    Report.ofFindings (p.findings (.ofTrail trail)) =
      .ofFindings (p.ownFindings (.ofTrail trail) ++ findingsOfAll trail p.children) := by
  cases p with
  | block body =>
    exact congrArg _ (findingsOfAll_statements fun t ht => absurd ht List.not_mem_nil).symm
  | stmt before s after =>
    rw [Node.findings, Node.ownFindings, List.append_assoc, Report.ofFindings_append,
      Report.ofFindings_append, s.report_eq before after]
  | expr e => exact congrArg _ e.findings_eq
  | param before x => exact congrArg _ (List.append_nil _).symm

end

/-! ### Findings in order -/

/-- A finding comes before another: its node does, or one of them is the violation and the other the
warning of a node. -/
def Finding.Before (a b : Path × Finding) : Prop :=
  a.1.Before b.1 ∨ a.1 = b.1 ∧ a.2.isViolation ≠ b.2.isViolation

/-- Findings in order with their paths: those that satisfy `F`, each once. -/
structure Finding.Lists (fs : List (Path × Finding)) (F : Path → Finding → Prop) : Prop where
  ordered : fs.Pairwise Finding.Before
  mem_iff : ∀ path f, (path, f) ∈ fs ↔ F path f

namespace Finding.Lists

variable {fs gs : List (Path × Finding)} {F G : Path → Finding → Prop}

theorem append (hf : Lists fs F) (hg : Lists gs G)
    (h : ∀ path f path' g, F path f → G path' g → Finding.Before (path, f) (path', g)) :
    Lists (fs ++ gs) fun path f => F path f ∨ G path f where
  ordered := by
    refine List.pairwise_append.mpr ⟨hf.ordered, hg.ordered, fun a ha b hb => ?_⟩
    exact h a.1 a.2 b.1 b.2 ((hf.mem_iff _ _).mp ha) ((hg.mem_iff _ _).mp hb)
  mem_iff path f := by rw [List.mem_append, hf.mem_iff, hg.mem_iff]

theorem congr (hf : Lists fs F) (h : ∀ path f, F path f ↔ G path f) : Lists fs G where
  ordered := hf.ordered
  mem_iff path f := (hf.mem_iff path f).trans (h path f)

/-- What is found in a node, of which there is one violation and one warning at most. -/
theorem here {fs : List Finding} (h : fs.Pairwise fun f g => f.isViolation ≠ g.isViolation) :
    Lists (fs.map fun f => ([], f)) fun path f => path = [] ∧ f ∈ fs where
  ordered := List.pairwise_map.mpr (h.imp fun hfg => .inr ⟨rfl, hfg⟩)
  mem_iff path f := by simp [eq_comm, and_comm]

/-- What is found in a child. -/
theorem inside (hf : Lists fs F) (i : Nat) :
    Lists (fs.map fun a => (i :: a.1, a.2)) fun path f => ∃ rest, path = i :: rest ∧ F rest f where
  ordered := by
    refine List.pairwise_map.mpr (hf.ordered.imp ?_)
    rintro a b (h | ⟨h, hkind⟩)
    · exact .inl (.cons h)
    · exact .inr ⟨congrArg (i :: ·) h, hkind⟩
  mem_iff path f := by
    constructor
    · intro h
      obtain ⟨⟨rest, g⟩, ha, heq⟩ := List.mem_map.mp h
      cases heq
      exact ⟨rest, rfl, (hf.mem_iff _ _).mp ha⟩
    · rintro ⟨rest, rfl, h⟩
      exact List.mem_map.mpr ⟨(rest, f), (hf.mem_iff _ _).mpr h, rfl⟩

end Finding.Lists

namespace Node

variable {φ : Type}

/-- In the node `p`, which is inside `outer`, something is found at the end of a path. -/
def Found (outer : List Enclosure) (p : Node φ) (path : Path) (f : Finding) : Prop :=
  ∃ trail q, Occurs outer p path trail q ∧ f ∈ q.ownFindings (.ofTrail trail)

theorem found_iff {outer : List Enclosure} {p : Node φ} {path : Path} {f : Finding} :
    p.Found outer path f ↔ path = [] ∧ f ∈ p.ownFindings (.ofTrail outer) ∨
      ∃ i enclosure q rest, p.children[i]? = some (enclosure, q) ∧ path = i :: rest ∧
        q.Found (enclosure :: outer) rest f := by
  constructor
  · rintro ⟨trail, q, hq, hf⟩
    cases hq with
    | here => exact .inl ⟨rfl, hf⟩
    | inside lies occurs => exact .inr ⟨_, _, _, _, lies, rfl, trail, q, occurs, hf⟩
  · rintro (⟨rfl, hf⟩ | ⟨i, enclosure, q, rest, lies, rfl, trail, r, occurs, hf⟩)
    · exact ⟨outer, p, .here, hf⟩
    · exact ⟨trail, r, .inside lies occurs, hf⟩

/-- What is reported of a node are its findings in order. -/
def Reported (outer : List Enclosure) (p : Node φ) : Prop :=
  ∃ fs, Finding.Lists fs (p.Found outer) ∧
    Report.ofFindings (p.findings (.ofTrail outer)) = .ofFindings (fs.map (·.2))

theorem reported_all {outer : List Enclosure} {nodes : List (Enclosure × Node φ)}
    (h : ∀ enclosure q, (enclosure, q) ∈ nodes → q.Reported (enclosure :: outer)) (i : Nat) :
    ∃ fs, Finding.Lists fs (fun path f => ∃ j enclosure q rest, nodes[j]? = some (enclosure, q) ∧
        path = (i + j) :: rest ∧ q.Found (enclosure :: outer) rest f) ∧
      Report.ofFindings (findingsOfAll outer nodes) = .ofFindings (fs.map (·.2)) := by
  induction nodes generalizing i with
  | nil =>
    refine ⟨[], ⟨.nil, fun path f => ⟨nofun, ?_⟩⟩, rfl⟩
    rintro ⟨j, enclosure, q, rest, hj, -⟩
    cases hj
  | cons node nodes ih =>
    obtain ⟨enclosure, q⟩ := node
    obtain ⟨fs, hfs, hreport⟩ := h enclosure q List.mem_cons_self
    obtain ⟨gs, hgs, hreports⟩ := ih (fun e r hr => h e r (List.mem_cons_of_mem _ hr)) (i + 1)
    -- Paths into this node start with `i` and those into the rest with something greater.
    refine ⟨_, ((hfs.inside i).append hgs ?_).congr ?_, ?_⟩
    · rintro _ f _ g ⟨rest, rfl, -⟩ ⟨j, _, _, rest', -, rfl, -⟩
      exact .inl (.rel (by omega))
    · intro path f
      constructor
      · rintro (⟨rest, rfl, hf⟩ | ⟨j, e, r, rest, hj, rfl, hf⟩)
        · exact ⟨0, enclosure, q, rest, rfl, rfl, hf⟩
        · exact ⟨j + 1, e, r, rest, hj, by rw [Nat.add_right_comm, Nat.add_assoc], hf⟩
      · rintro ⟨j, e, r, rest, hj, rfl, hf⟩
        cases j with
        | zero =>
          cases hj
          exact .inl ⟨rest, rfl, hf⟩
        | succ j =>
          exact .inr ⟨j, e, r, rest, hj, by rw [Nat.add_right_comm, Nat.add_assoc], hf⟩
    · rw [findingsOfAll_cons, Report.ofFindings_append, hreport, hreports, List.map_append,
        Report.ofFindings_append, List.map_map]
      rfl

theorem reported (p : Node φ) : ∀ outer, p.Reported outer := by
  induction p using Node.induction with
  | step p ih =>
    intro outer
    have hchildren : ∀ enclosure q, (enclosure, q) ∈ p.children → q.Reported (enclosure :: outer) :=
      fun enclosure q hq => ih enclosure q hq (enclosure :: outer)
    obtain ⟨fs, hfs, hreport⟩ := reported_all hchildren 0
    have hown := Finding.Lists.here (p.ownFindings_pairwise (.ofTrail outer))
    -- The path of the node itself is empty, so what is found in it comes first.
    refine ⟨_, (hown.append hfs ?_).congr ?_, ?_⟩
    · rintro _ f _ g ⟨rfl, -⟩ ⟨j, _, _, rest, -, rfl, -⟩
      exact .inl .nil
    · intro path f
      rw [found_iff]
      simp only [Nat.zero_add]
    · rw [p.report_eq, Report.ofFindings_append, hreport, List.map_append,
        Report.ofFindings_append, List.map_map]
      simp [Function.comp_def]

end Node

/-! ### Reports -/

def Finding.warning? : Finding → Option Warning
  | .warning w => some w
  | .violation .. => none

theorem Finding.warning?_eq_some {f : Finding} {w : Warning} :
    f.warning? = some w ↔ f = .warning w := by
  cases f with
  | violation v span => exact ⟨nofun, nofun⟩
  | warning w' => simp [warning?]

namespace Report

variable {fs : List Finding}

theorem violation?_eq_none :
    (ofFindings fs).violation? = none ↔ ∀ v span, Finding.violation v span ∉ fs := by
  induction fs with
  | nil => exact ⟨fun _ _ _ => List.not_mem_nil, fun _ => rfl⟩
  | cons f fs ih =>
    cases f with
    | violation v span => exact ⟨nofun, fun h => absurd List.mem_cons_self (h v span)⟩
    | warning w => simpa [ofFindings] using ih

/-- The violation that is reported is the first. -/
theorem exists_violation {v : Violation} {span : Span}
    (h : (ofFindings fs).violation? = some (v, span)) :
    ∃ ws gs, fs = ws ++ .violation v span :: gs ∧ ∀ v span, Finding.violation v span ∉ ws := by
  induction fs with
  | nil => cases h
  | cons f fs ih =>
    cases f with
    | violation v' span' =>
      cases h
      exact ⟨[], fs, rfl, fun _ _ => List.not_mem_nil⟩
    | warning w =>
      obtain ⟨ws, gs, rfl, hws⟩ := ih h
      refine ⟨.warning w :: ws, gs, rfl, fun v' span' hmem => ?_⟩
      rcases List.mem_cons.mp hmem with hmem | hmem
      · cases hmem
      · exact hws v' span' hmem

/-- Without a violation, all warnings that are found are reported. -/
theorem warnings_eq (h : (ofFindings fs).violation? = none) :
    (ofFindings fs).warnings = fs.filterMap Finding.warning? := by
  induction fs with
  | nil => rfl
  | cons f fs ih =>
    cases f with
    | violation v span => cases h
    | warning w => exact congrArg (w :: ·) (ih h)

end Report

namespace Finding.Lists

variable {fs : List (Path × Finding)} {F : Path → Finding → Prop}

/-- The violation that is reported of findings in order is the first of them. -/
theorem exists_first (h : Lists fs F) {v : Violation} {span : Span}
    (hv : (Report.ofFindings (fs.map (·.2))).violation? = some (v, span)) :
    ∃ path, F path (.violation v span) ∧ ∀ path' v' span', F path' (.violation v' span') →
      path' = path ∧ v' = v ∧ span' = span ∨ path.Before path' := by
  obtain ⟨ws, gs, hsplit, hws⟩ := Report.exists_violation hv
  obtain ⟨before, rest, rfl, rfl, hrest⟩ := List.map_eq_append_iff.mp hsplit
  obtain ⟨⟨path, f⟩, after, rfl, rfl, -⟩ := List.map_eq_cons_iff.mp hrest
  have hordered := (List.pairwise_cons.mp (List.pairwise_append.mp h.ordered).2.1).1
  refine ⟨path, (h.mem_iff _ _).mp (by simp), fun path' v' span' hF => ?_⟩
  rcases List.mem_append.mp ((h.mem_iff _ _).mpr hF) with hmem | hmem
  · exact absurd (List.mem_map_of_mem hmem) (hws v' span')
  · rcases List.mem_cons.mp hmem with hmem | hmem
    · cases hmem
      exact .inl ⟨rfl, rfl, rfl⟩
    · rcases hordered _ hmem with hbefore | ⟨-, hkinds⟩
      · exact .inr hbefore
      · exact absurd rfl hkinds

/-- The warnings among findings in order are in order too. -/
theorem warnings (h : Lists fs F) :
    ∃ ws : List (Path × Warning), ws.Pairwise (fun a b => a.1.Before b.1) ∧
      (∀ path w, (path, w) ∈ ws ↔ F path (.warning w)) ∧
      ws.map (·.2) = (fs.map (·.2)).filterMap warning? := by
  refine ⟨fs.filterMap fun a => a.2.warning?.map fun w => (a.1, w), ?_, ?_, ?_⟩
  · refine List.pairwise_filterMap.mpr (h.ordered.imp ?_)
    rintro ⟨path, f⟩ ⟨path', g⟩ hbefore a ha b hb
    obtain ⟨w, hw, rfl⟩ := Option.map_eq_some_iff.mp ha
    obtain ⟨w', hw', rfl⟩ := Option.map_eq_some_iff.mp hb
    cases warning?_eq_some.mp hw
    cases warning?_eq_some.mp hw'
    rcases hbefore with hbefore | ⟨-, hkinds⟩
    · exact hbefore
    · exact absurd rfl hkinds
  · intro path w
    rw [List.mem_filterMap, ← h.mem_iff]
    constructor
    · rintro ⟨⟨path', f⟩, hmem, heq⟩
      obtain ⟨w', hw', heq⟩ := Option.map_eq_some_iff.mp heq
      cases warning?_eq_some.mp hw'
      cases heq
      exact hmem
    · exact fun hmem => ⟨_, hmem, rfl⟩
  · rw [List.map_filterMap, List.filterMap_map]
    congr 1
    funext a
    simp [Function.comp_def]

end Finding.Lists

namespace Program

/-- At the end of a path there is a violation. -/
def ViolatesAt (p : Program) (path : Path) (v : Violation) (span : Span) : Prop :=
  ∃ trail q, Node.Occurs [] (.block p.body) path trail q ∧ q.Violates trail v span

/-- At the end of a path there is something worth a warning. -/
def WarnsAt (p : Program) (path : Path) (w : Warning) : Prop :=
  ∃ trail q, Node.Occurs [] (.block p.body) path trail q ∧ q.Warns w

theorem found_violation {p : Program} {path : Path} {v : Violation} {span : Span} :
    (Node.block p.body).Found [] path (.violation v span) ↔ p.ViolatesAt path v span := by
  simp [Node.Found, ViolatesAt, Node.mem_ownFindings]

theorem found_warning {p : Program} {path : Path} {w : Warning} :
    (Node.block p.body).Found [] path (.warning w) ↔ p.WarnsAt path w := by
  simp [Node.Found, WarnsAt, Node.mem_ownFindings]

theorem exists_findings (p : Program) :
    ∃ fs, Finding.Lists fs ((Node.block p.body).Found []) ∧
      p.check = .ofFindings (fs.map (·.2)) :=
  (Node.block p.body).reported []

theorem violation?_eq_none {p : Program} :
    p.check.violation? = none ↔ ∀ path v span, ¬ p.ViolatesAt path v span := by
  obtain ⟨fs, hfs, hcheck⟩ := p.exists_findings
  rw [hcheck, Report.violation?_eq_none]
  simp only [← found_violation, ← hfs.mem_iff, List.mem_map, Prod.exists, exists_eq_right,
    not_exists]
  exact ⟨fun h path v span => h v span path, fun h v span path => h path v span⟩

theorem violation?_eq_some {p : Program} {v : Violation} {span : Span} :
    p.check.violation? = some (v, span) ↔ ∃ path, p.ViolatesAt path v span ∧
      ∀ path' v' span', p.ViolatesAt path' v' span' → path' = path ∨ path.Before path' := by
  -- At one path there is one violation at most, which the converse needs.
  have first : ∀ {v span}, p.check.violation? = some (v, span) →
      ∃ path, p.ViolatesAt path v span ∧ ∀ path' v' span', p.ViolatesAt path' v' span' →
        path' = path ∧ v' = v ∧ span' = span ∨ path.Before path' := by
    intro v span h
    obtain ⟨fs, hfs, hcheck⟩ := p.exists_findings
    rw [hcheck] at h
    simpa only [found_violation] using hfs.exists_first h
  constructor
  · intro h
    obtain ⟨path, hpath, hfirst⟩ := first h
    exact ⟨path, hpath, fun path' v' span' h' => (hfirst path' v' span' h').imp_left (·.1)⟩
  · rintro ⟨path, hpath, hleast⟩
    cases hv : p.check.violation? with
    | none => exact absurd hpath (violation?_eq_none.mp hv path v span)
    | some reported =>
      obtain ⟨path', hpath', hfirst⟩ := first hv
      rcases hfirst path v span hpath with ⟨-, rfl, rfl⟩ | hbefore
      · rfl
      · rcases hleast path' _ _ hpath' with rfl | hbefore'
        · exact absurd hbefore (Path.Before.irrefl _)
        · exact absurd hbefore hbefore'.asymm

/-- **A check reports exactly what there is to report.** It fails if and only if somewhere in the
program, in dead code and nested functions too, a node violates the rules, and the error is about
the first such node in the order of the source. If it succeeds, the warnings are those that the
nodes of the program are worth, one for each in the order of the source: the warning about
statements that are never reached has the place of the first of these statements. -/
theorem check_exact (p : Program) :
    ((∃ e, p.check.error? = some e) ↔ ∃ path v span, p.ViolatesAt path v span) ∧
    (∀ e, p.check.error? = some e ↔ ∃ path v span, p.ViolatesAt path v span ∧
      (∀ path' v' span', p.ViolatesAt path' v' span' → path' = path ∨ path.Before path') ∧
      e = .source .analysis v.message span) ∧
    (p.check.error? = none → ∃ ws : List (Path × Warning),
      ws.Pairwise (fun a b => a.1.Before b.1) ∧ (∀ path w, (path, w) ∈ ws ↔ p.WarnsAt path w) ∧
      p.check.warnings = ws.map (·.2)) := by
  refine ⟨?_, fun e => ?_, fun h => ?_⟩
  · rw [← Option.isSome_iff_exists, ← Option.ne_none_iff_isSome, Ne, Report.error?,
      Option.map_eq_none_iff, violation?_eq_none]
    simp
  · rw [Report.error?, Option.map_eq_some_iff]
    constructor
    · rintro ⟨⟨v, span⟩, hv, rfl⟩
      obtain ⟨path, hpath, hleast⟩ := violation?_eq_some.mp hv
      exact ⟨path, v, span, hpath, hleast, rfl⟩
    · rintro ⟨path, v, span, hpath, hleast, rfl⟩
      exact ⟨(v, span), violation?_eq_some.mpr ⟨path, hpath, hleast⟩, rfl⟩
  · obtain ⟨fs, hfs, hcheck⟩ := p.exists_findings
    obtain ⟨ws, hordered, hmem, hws⟩ := hfs.warnings
    have hnone := Option.map_eq_none_iff.mp h
    rw [hcheck] at hnone
    refine ⟨ws, hordered, fun path w => (hmem path w).trans found_warning, ?_⟩
    rw [hcheck, hws, Report.warnings_eq hnone]

/-- A function in which a constant assignment to an element is never reached. -/
theorem check_exact_dead :
    let s (n : Nat) : Span := ⟨n, n + 1⟩
    let p : Program := ⟨[.expr (s 0) (.function (s 1) () [] [.return (s 2) none,
      .expr (s 3) (.assignIndex (s 4) false true "a" (.nil (s 5)) (.nil (s 6)))])]⟩
    p.check.error? = none ∧
      p.check.warnings = [⟨.unreachable, s 3⟩, ⟨.constantElement "a", s 4⟩] ∧
      ∃ ws : List (Path × Warning), ws.Pairwise (fun a b => a.1.Before b.1) ∧
        (∀ path w, (path, w) ∈ ws ↔ p.WarnsAt path w) ∧ p.check.warnings = ws.map (·.2) := by
  intro s p
  exact ⟨rfl, rfl, (check_exact p).2.2 rfl⟩

end Program
end Scriptlet
