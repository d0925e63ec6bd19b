import Scriptlet.Program.Basic

/-!
The nodes of a program and where they are.

A node is a block, a statement of a block, an expression or a parameter of a function.
`Node.children` lists the nodes that lie directly in a node, in the order of the source, each with
what it is to the node around it. A node of a program is reached by a path, which has at each step
the position of the child that comes next, and on the way there it is inside the bodies that the
path leads into (`Node.Occurs`). Paths are compared as lists of numbers: this is the order of the
source, and a node comes before all that lies in it.

Every child is smaller than the node that it lies in, so what holds of a node if it holds of its
children holds of all nodes (`Node.induction`).
-/
namespace Scriptlet

/-- What a node is to the node around it. -/
inductive Enclosure where
  | part
  | loopBody
  | functionBody
  deriving DecidableEq, Repr

inductive Node (φ : Type) where
  | block (body : Block φ)
  /-- A statement, with those before it and those behind it in its block. -/
  | stmt (before : Block φ) (s : Stmt φ) (after : Block φ)
  | expr (e : Expr φ)
  /-- A parameter, with those before it. -/
  | param (before : List (Located String)) (x : Located String)

namespace Node

variable {φ : Type}

/-- The statements that follow some others in a block. -/
def statements : (before after : Block φ) → List (Enclosure × Node φ)
  | _, [] => []
  | before, s :: after => (.part, .stmt before s after) :: statements (before ++ [s]) after

/-- The parameters that follow some others. -/
def parameters : (before after : List (Located String)) → List (Enclosure × Node φ)
  | _, [] => []
  | before, x :: after => (.part, .param before x) :: parameters (before ++ [x]) after

/-- Expressions that lie in a node. -/
def expressions (es : List (Expr φ)) : List (Enclosure × Node φ) :=
  es.map fun e => (.part, .expr e)

/-- The nodes that lie directly in a node. -/
def children : Node φ → List (Enclosure × Node φ)
  | .block body => statements [] body
  | .stmt _ s _ =>
    match s with
    | .expr _ e => expressions [e]
    | .block _ body => [(.part, .block body)]
    | .cond _ test yes no =>
      expressions [test] ++ (yes :: no.toList).map fun body => (.part, .block body)
    | .while _ test body => expressions [test] ++ [(.loopBody, .block body)]
    | .range _ _ _ first last body => expressions [first, last] ++ [(.loopBody, .block body)]
    | .break _ | .continue _ => []
    | .return _ value => expressions value.toList
  | .expr e =>
    match e with
    | .number _ _ | .text _ _ | .bool _ _ | .nil _ | .name _ _ _ => []
    | .array _ items => expressions items
    | .group _ inner => expressions [inner]
    | .binary _ _ left right => expressions [left, right]
    | .unary _ _ operand => expressions [operand]
    | .conditional _ test yes no => expressions [test, yes, no]
    | .call _ callee args => expressions (callee :: args)
    | .index _ target i => expressions [target, i]
    | .slice _ target start stop => expressions (target :: (start.toList ++ stop.toList))
    | .assign _ _ _ _ value => expressions [value]
    | .assignIndex _ _ _ _ i value => expressions [i, value]
    | .function _ _ params body => parameters [] params ++ [(.functionBody, .block body)]
  | .param _ _ => []

/-- In the node `p`, which is inside `outer`, a path leads to the node `q`, which is inside `trail`.
What is around a node is listed from the inside out. -/
inductive Occurs : (outer : List Enclosure) → (p : Node φ) → (path : List Nat) →
    (trail : List Enclosure) → (q : Node φ) → Prop
  | here {outer p} : Occurs outer p [] outer p
  | inside {outer p i enclosure child path trail q}
      (lies : p.children[i]? = some (enclosure, child))
      (occurs : Occurs (enclosure :: outer) child path trail q) :
      Occurs outer p (i :: path) trail q

/-! ### Induction -/

theorem mem_statements {enclosure : Enclosure} {q : Node φ} {before after : Block φ}
    (h : (enclosure, q) ∈ statements before after) :
    enclosure = .part ∧ ∃ before' after', ∃ s ∈ after, q = .stmt before' s after' := by
  induction after generalizing before with
  | nil => cases h
  | cons s after ih =>
    rcases List.mem_cons.mp h with h | h
    · cases h
      exact ⟨rfl, before, after, s, List.mem_cons_self, rfl⟩
    · obtain ⟨henclosure, before', after', t, ht, hq⟩ := ih h
      exact ⟨henclosure, before', after', t, List.mem_cons_of_mem s ht, hq⟩

theorem mem_parameters {enclosure : Enclosure} {q : Node φ} {before after : List (Located String)}
    (h : (enclosure, q) ∈ parameters before after) :
    enclosure = .part ∧ ∃ before', ∃ x ∈ after, q = .param before' x := by
  induction after generalizing before with
  | nil => cases h
  | cons x after ih =>
    rcases List.mem_cons.mp h with h | h
    · cases h
      exact ⟨rfl, before, x, List.mem_cons_self, rfl⟩
    · obtain ⟨henclosure, before', y, hy, hq⟩ := ih h
      exact ⟨henclosure, before', y, List.mem_cons_of_mem x hy, hq⟩

theorem mem_expressions {enclosure : Enclosure} {q : Node φ} {es : List (Expr φ)}
    (h : (enclosure, q) ∈ expressions es) : enclosure = .part ∧ ∃ e ∈ es, q = .expr e := by
  obtain ⟨e, he, heq⟩ := List.mem_map.mp h
  cases heq
  exact ⟨rfl, e, he, rfl⟩

/-- A measure that drops from a node to its children. -/
noncomputable def size : Node φ → Nat
  | .block body => sizeOf body
  | .stmt _ s _ => sizeOf s
  | .expr e => sizeOf e
  | .param _ _ => 0

theorem size_lt_of_expressions {es : List (Expr φ)} {q : Node φ} {enclosure : Enclosure} {n : Nat}
    (h : (enclosure, q) ∈ expressions es) (hes : ∀ e ∈ es, sizeOf e < n) : q.size < n := by
  obtain ⟨-, e, he, rfl⟩ := mem_expressions h
  exact hes e he

theorem size_lt_of_stmt {before after : Block φ} {s : Stmt φ} {q : Node φ} {enclosure : Enclosure}
    (h : (enclosure, q) ∈ (Node.stmt before s after).children) : q.size < sizeOf s := by
  cases s with
  | expr span e =>
    refine size_lt_of_expressions h (List.forall_mem_singleton.mpr ?_)
    simp only [Stmt.expr.sizeOf_spec]
    omega
  | block span body =>
    cases List.mem_singleton.mp h
    simp only [size, Stmt.block.sizeOf_spec]
    omega
  | cond span test yes no =>
    rcases List.mem_append.mp h with h | h
    · refine size_lt_of_expressions h (List.forall_mem_singleton.mpr ?_)
      simp only [Stmt.cond.sizeOf_spec]
      omega
    · obtain ⟨body, hbody, heq⟩ := List.mem_map.mp h
      cases heq
      rcases List.mem_cons.mp hbody with rfl | hbody
      · simp only [size, Stmt.cond.sizeOf_spec]
        omega
      · cases Option.mem_toList.mp hbody
        simp only [size, Stmt.cond.sizeOf_spec, Option.some.sizeOf_spec]
        omega
  | «while» span test body =>
    rcases List.mem_append.mp h with h | h
    · refine size_lt_of_expressions h (List.forall_mem_singleton.mpr ?_)
      simp only [Stmt.while.sizeOf_spec]
      omega
    · cases List.mem_singleton.mp h
      simp only [size, Stmt.while.sizeOf_spec]
      omega
  | range span x cmp first last body =>
    rcases List.mem_append.mp h with h | h
    · refine size_lt_of_expressions h ?_
      simp only [List.mem_cons, List.not_mem_nil, or_false, forall_eq_or_imp, forall_eq,
        Stmt.range.sizeOf_spec]
      omega
    · cases List.mem_singleton.mp h
      simp only [size, Stmt.range.sizeOf_spec]
      omega
  | «break» span => cases h
  | «continue» span => cases h
  | «return» span value =>
    cases value with
    | none => cases h
    | some value =>
      refine size_lt_of_expressions h (List.forall_mem_singleton.mpr ?_)
      simp only [Stmt.return.sizeOf_spec, Option.some.sizeOf_spec]
      omega

theorem size_lt_of_expr {e : Expr φ} {q : Node φ} {enclosure : Enclosure}
    (h : (enclosure, q) ∈ (Node.expr e).children) : q.size < sizeOf e := by
  cases e with
  | number | text | bool | nil | name => cases h
  | group | unary | assign =>
    refine size_lt_of_expressions h (List.forall_mem_singleton.mpr ?_)
    simp only [Expr.group.sizeOf_spec, Expr.unary.sizeOf_spec, Expr.assign.sizeOf_spec]
    omega
  | binary | conditional | index | assignIndex =>
    refine size_lt_of_expressions h ?_
    simp only [List.mem_cons, List.not_mem_nil, or_false, forall_eq_or_imp, forall_eq,
      Expr.binary.sizeOf_spec, Expr.conditional.sizeOf_spec, Expr.index.sizeOf_spec,
      Expr.assignIndex.sizeOf_spec]
    omega
  | array span items =>
    refine size_lt_of_expressions h fun d hd => ?_
    have hlt := List.sizeOf_lt_of_mem hd
    simp only [Expr.array.sizeOf_spec]
    omega
  | call span callee args =>
    refine size_lt_of_expressions h fun d hd => ?_
    simp only [Expr.call.sizeOf_spec]
    rcases List.mem_cons.mp hd with rfl | hd
    · omega
    · have hlt := List.sizeOf_lt_of_mem hd
      omega
  | slice span target start stop =>
    refine size_lt_of_expressions h (List.forall_mem_cons.mpr ⟨?_, fun d hd => ?_⟩)
    · simp only [Expr.slice.sizeOf_spec]
      omega
    · simp only [Expr.slice.sizeOf_spec]
      rcases List.mem_append.mp hd with hd | hd
      · cases Option.mem_toList.mp hd
        simp only [Option.some.sizeOf_spec]
        omega
      · cases Option.mem_toList.mp hd
        simp only [Option.some.sizeOf_spec]
        omega
  | function span mark params body =>
    rcases List.mem_append.mp h with h | h
    · obtain ⟨-, before, x, -, rfl⟩ := mem_parameters h
      simp only [size, Expr.function.sizeOf_spec]
      omega
    · cases List.mem_singleton.mp h
      simp only [size, Expr.function.sizeOf_spec]
      omega

theorem size_lt {p q : Node φ} {enclosure : Enclosure} (h : (enclosure, q) ∈ p.children) :
    q.size < p.size := by
  cases p with
  | block body =>
    obtain ⟨-, before, after, s, hs, rfl⟩ := mem_statements h
    exact List.sizeOf_lt_of_mem hs
  | stmt before s after => exact size_lt_of_stmt h
  | expr e => exact size_lt_of_expr h
  | param before x => cases h

/-- What holds of a node if it holds of its children holds of every node. -/
theorem induction {motive : Node φ → Prop}
    (step : ∀ p : Node φ, (∀ enclosure q, (enclosure, q) ∈ p.children → motive q) → motive p)
    (p : Node φ) : motive p :=
  step p fun _ q _ => induction step q
termination_by p.size
decreasing_by
  rename_i h
  exact size_lt h

end Node
end Scriptlet
