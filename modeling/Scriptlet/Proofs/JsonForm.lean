import Scriptlet.Program.Listing
import Scriptlet.Proofs.Occurrence

/-!
A program is read back from its JSON form, spans and all, exactly if all its numbers are finite
(`Program.ofJson?_toJson`). A number that is not finite is null in the form, and then nothing is
read.

This is about every program and not only about those that the parser builds. What is read of a node
is what is read of its children, put together again (`Node.reads_of_children`). The reader counts
how deeply it may still go, and two calls are enough for each level of nesting, since the form of a
child is nested in that of its node (`Node.depth_lt`).
-/
namespace Scriptlet

/-! ### Results that depend on a condition -/

section Yields

variable {α β : Type} {r : Option α} {a : α} {P Q : Prop}

/-- The result is `a` if `P` holds, and otherwise there is none. -/
def Yields (r : Option α) (a : α) (P : Prop) : Prop :=
  (P → r = some a) ∧ (¬ P → r = none)

namespace Yields

theorem pure : Yields (some a) a True :=
  ⟨fun _ => rfl, fun h => absurd trivial h⟩

theorem of_eq (h : r = some a) (hP : P) : Yields r a P :=
  ⟨fun _ => h, fun hnot => absurd hP hnot⟩

theorem congr (h : Yields r a P) (hPQ : P ↔ Q) : Yields r a Q :=
  ⟨fun hQ => h.1 (hPQ.mpr hQ), fun hQ => h.2 fun hP => hQ (hPQ.mp hP)⟩

theorem bind {f : α → Option β} {b : β} (h : Yields r a P) (hf : Yields (f a) b Q) :
    Yields (r >>= f) b (P ∧ Q) := by
  constructor
  · rintro ⟨hP, hQ⟩
    rw [h.1 hP]
    exact hf.1 hQ
  · intro hnot
    by_cases hP : P
    · rw [h.1 hP]
      exact hf.2 fun hQ => hnot ⟨hP, hQ⟩
    · rw [h.2 hP]
      rfl

theorem map {f : α → β} (h : Yields r a P) : Yields (r.map f) (f a) P := by
  refine ⟨fun hP => ?_, fun hP => ?_⟩
  · rw [h.1 hP, Option.map_some]
  · rw [h.2 hP, Option.map_none]

theorem mapM_cons {decode : Json → Option α} {j : Json} {js : List Json} {as : List α}
    (h : Yields (decode j) a P) (hs : Yields (js.mapM decode) as Q) :
    Yields ((j :: js).mapM decode) (a :: as) (P ∧ Q) := by
  rw [List.mapM_cons]
  exact Yields.congr (h.bind (hs.bind .pure)) (by rw [and_true])

theorem eq_some_iff (h : Yields r a P) : r = some a ↔ P := by
  refine ⟨fun hr => ?_, h.1⟩
  by_cases hP : P
  · exact hP
  · cases hr.symm.trans (h.2 hP)

/-- A part that may be null. -/
theorem optional {decode : Json → Option α} {name : String} {j value : Json} {part : Option α}
    (hfield : j.field? name = some value) (habsent : part = none → value = .null ∧ P)
    (hpresent : ∀ a, part = some a → value ≠ .null ∧ Yields (decode value) a P) :
    Yields (j.optional? decode name) part P := by
  rw [Json.optional?, hfield]
  cases part with
  | none =>
    obtain ⟨rfl, hP⟩ := habsent rfl
    exact of_eq rfl hP
  | some a =>
    obtain ⟨hvalue, h⟩ := hpresent a rfl
    split
    · contradiction
    · rename_i heq
      cases heq
      contradiction
    · rename_i heq
      cases heq
      exact h.map

end Yields
end Yields

/-! ### Numbers that are not finite -/

namespace Node

variable {φ : Type}

/-- The node `q` is the node `p` or lies in it. -/
def Contains (p q : Node φ) : Prop :=
  ∃ path trail, Occurs [] p path trail q

/-- All numbers that are written in a node are finite. -/
def AllFinite (p : Node φ) : Prop :=
  ∀ span x, p.Contains (.expr (.number span x)) → Number.isFinite x = true

/-- What is around a node does not matter for what lies in it. -/
theorem Occurs.exists_trail {outer trail : List Enclosure} {p q : Node φ} {path : List Nat}
    (h : Occurs outer p path trail q) (outer' : List Enclosure) :
    ∃ trail', Occurs outer' p path trail' q := by
  induction h generalizing outer' with
  | here => exact ⟨outer', .here⟩
  | @inside _ _ _ enclosure _ _ _ _ lies occurs ih =>
    obtain ⟨trail', h⟩ := ih (enclosure :: outer')
    exact ⟨trail', .inside lies h⟩

theorem contains_iff {p q : Node φ} :
    p.Contains q ↔ q = p ∨ ∃ child ∈ p.children, child.2.Contains q := by
  constructor
  · rintro ⟨path, trail, h⟩
    cases h with
    | here => exact .inl rfl
    | inside lies occurs =>
      obtain ⟨trail', h⟩ := occurs.exists_trail []
      exact .inr ⟨_, List.mem_of_getElem? lies, _, trail', h⟩
  · rintro (rfl | ⟨child, hchild, path, trail, h⟩)
    · exact ⟨[], [], .here⟩
    · obtain ⟨i, hi⟩ := List.getElem?_of_mem hchild
      obtain ⟨trail', h⟩ := h.exists_trail [child.1]
      exact ⟨i :: path, trail', .inside hi h⟩

theorem allFinite_iff {p : Node φ} :
    p.AllFinite ↔ (∀ span x, p = .expr (.number span x) → Number.isFinite x = true) ∧
      ∀ child ∈ p.children, child.2.AllFinite := by
  constructor
  · intro h
    refine ⟨fun span x hp => ?_, fun child hchild span x hx => ?_⟩
    · exact h span x (contains_iff.mpr (.inl hp.symm))
    · exact h span x (contains_iff.mpr (.inr ⟨child, hchild, hx⟩))
  · rintro ⟨hself, hchildren⟩ span x hx
    rcases contains_iff.mp hx with hp | ⟨child, hchild, hx⟩
    · exact hself span x hp.symm
    · exact hchildren child hchild span x hx

/-! ### Nesting -/

/-- The JSON form of a node. -/
def toJson : Node Unit → Json
  | .block body => .array (Stmt.listToJson .ofNumber body)
  | .stmt _ s _ => s.toJson .ofNumber
  | .expr e => e.toJson .ofNumber
  | .param _ x => x.toJson .string

end Node

namespace Json

theorem depth_lt_object {j : Json} {fields : List (String × Json)} (h : j ∈ fields.map Prod.snd) :
    j.depth < (object fields).depth := by
  have hle : j.depth ≤ depth.fieldsDepth fields := by
    induction fields with
    | nil => cases h
    | cons field fields ih =>
      rw [depth.fieldsDepth]
      rcases List.mem_cons.mp h with rfl | h
      · exact Nat.le_max_left ..
      · exact Nat.le_trans (ih h) (Nat.le_max_right ..)
  rw [depth]
  omega

theorem depth_lt_array {α : Type} (encode : α → Json) {a : α} {as : List α} (h : a ∈ as) :
    (encode a).depth < (array (as.map encode)).depth := by
  have hle : (encode a).depth ≤ depth.listDepth (as.map encode) := by
    induction h with
    | head => exact Nat.le_max_left ..
    | tail _ _ ih => exact Nat.le_trans ih (Nat.le_max_right ..)
  rw [depth]
  omega

/-- The parts of a node are nested in it. -/
theorem depth_lt_spanned (name : String) (parts : Json) (span : Span) :
    parts.depth < (spanned (variant name parts) span).depth :=
  calc parts.depth
    _ < (variant name parts).depth := depth_lt_object List.mem_cons_self
    _ < (spanned (variant name parts) span).depth := depth_lt_object List.mem_cons_self

theorem depth_lt_field {j : Json} {fields : List (String × Json)} {name : String} {span : Span}
    (h : j ∈ fields.map Prod.snd) : j.depth < (spanned (variant name (object fields)) span).depth :=
  Nat.lt_trans (depth_lt_object h) (depth_lt_spanned ..)

theorem depth_pos (j : Json) : 1 ≤ j.depth := by
  unfold depth
  split <;> omega

end Json

theorem Expr.listToJson_eq (number : Float → Json) (es : List (Expr Unit)) :
    Expr.listToJson number es = es.map (Expr.toJson number) := by
  induction es with
  | nil => rfl
  | cons e es ih => rw [Expr.listToJson, ih, List.map_cons]

theorem Stmt.listToJson_eq (number : Float → Json) (ss : Block Unit) :
    Stmt.listToJson number ss = ss.map (Stmt.toJson number) := by
  induction ss with
  | nil => rfl
  | cons s ss ih => rw [Stmt.listToJson, ih, List.map_cons]

namespace Node

/-- The expressions that are fields of a node are nested in it. -/
theorem depth_lt_of_expressions {es : List (Expr Unit)} {enclosure : Enclosure} {q : Node Unit}
    {fields : List (String × Json)} {name : String} {span : Span}
    (h : (enclosure, q) ∈ expressions es)
    (hes : es.map (Expr.toJson .ofNumber) ⊆ fields.map Prod.snd) :
    q.toJson.depth < (Json.spanned (.variant name (.object fields)) span).depth := by
  obtain ⟨-, e, he, rfl⟩ := mem_expressions h
  exact Json.depth_lt_field (hes (List.mem_map_of_mem he))

theorem depth_lt_of_expr {e : Expr Unit} {enclosure : Enclosure} {q : Node Unit}
    (h : (enclosure, q) ∈ (Node.expr e).children) :
    q.toJson.depth < (e.toJson .ofNumber).depth := by
  cases e with
  | number | text | bool | nil | name => cases h
  | group span inner =>
    cases List.mem_singleton.mp h
    exact Json.depth_lt_spanned ..
  | binary | unary | conditional | index | assign | assignIndex =>
    rw [Expr.toJson]
    exact depth_lt_of_expressions h (by simp)
  | array span items =>
    rw [Expr.toJson, Expr.listToJson_eq]
    obtain ⟨-, d, hd, rfl⟩ := mem_expressions h
    exact Nat.lt_trans (Json.depth_lt_array (Expr.toJson .ofNumber) hd) (Json.depth_lt_spanned ..)
  | call span callee args =>
    rw [Expr.toJson, Expr.listToJson_eq]
    obtain ⟨-, d, hd, rfl⟩ := mem_expressions h
    rcases List.mem_cons.mp hd with rfl | hd
    · exact Json.depth_lt_field (by simp [toJson])
    · exact Nat.lt_trans (Json.depth_lt_array (Expr.toJson .ofNumber) hd)
        (Json.depth_lt_field (by simp))
  | slice span target start stop =>
    rw [Expr.toJson]
    refine depth_lt_of_expressions h ?_
    cases start <;> cases stop <;> simp [Expr.optionToJson]
  | function span mark params body =>
    rw [Expr.toJson]
    rcases List.mem_append.mp h with h | h
    · obtain ⟨-, before, x, hx, rfl⟩ := mem_parameters h
      exact Nat.lt_trans (Json.depth_lt_array (Located.toJson .string) hx)
        (Json.depth_lt_field (by simp))
    · cases List.mem_singleton.mp h
      exact Json.depth_lt_field (by simp [toJson])

theorem depth_lt_of_stmt {before after : Block Unit} {s : Stmt Unit} {enclosure : Enclosure}
    {q : Node Unit} (h : (enclosure, q) ∈ (Node.stmt before s after).children) :
    q.toJson.depth < (s.toJson .ofNumber).depth := by
  cases s with
  | expr span e =>
    cases List.mem_singleton.mp h
    exact Json.depth_lt_spanned ..
  | block span body =>
    cases List.mem_singleton.mp h
    exact Json.depth_lt_spanned ..
  | cond span test yes no =>
    rw [Stmt.toJson]
    rcases List.mem_append.mp h with h | h
    · exact depth_lt_of_expressions h (by simp)
    · obtain ⟨body, hbody, heq⟩ := List.mem_map.mp h
      cases heq
      rcases List.mem_cons.mp hbody with rfl | hbody
      · exact Json.depth_lt_field (by simp [toJson])
      · cases Option.mem_toList.mp hbody
        exact Json.depth_lt_field (by simp [Stmt.optionToJson, toJson])
  | «while» span test body =>
    rw [Stmt.toJson]
    rcases List.mem_append.mp h with h | h
    · exact depth_lt_of_expressions h (by simp)
    · cases List.mem_singleton.mp h
      exact Json.depth_lt_field (by simp [toJson])
  | range span x cmp first last body =>
    rw [Stmt.toJson]
    rcases List.mem_append.mp h with h | h
    · exact depth_lt_of_expressions h (by simp)
    · cases List.mem_singleton.mp h
      exact Json.depth_lt_field (by simp [toJson])
  | «break» span => cases h
  | «continue» span => cases h
  | «return» span value =>
    cases value with
    | none => cases h
    | some value =>
      cases List.mem_singleton.mp h
      exact Json.depth_lt_spanned ..

/-- The form of a child is nested in that of its node. -/
theorem depth_lt {p q : Node Unit} {enclosure : Enclosure} (h : (enclosure, q) ∈ p.children) :
    q.toJson.depth < p.toJson.depth := by
  cases p with
  | block body =>
    obtain ⟨-, before, after, s, hs, rfl⟩ := mem_statements h
    rw [toJson, toJson, Stmt.listToJson_eq]
    exact Json.depth_lt_array (Stmt.toJson .ofNumber) hs
  | stmt before s after => exact depth_lt_of_stmt h
  | expr e => exact depth_lt_of_expr h
  | param before x => cases h

end Node

/-! ### Reading -/

theorem Json.number?_ofNumber (x : Float) :
    Yields (Json.ofNumber x).number? x (Number.isFinite x = true) := by
  constructor
  · intro hx
    rw [Json.ofNumber, if_pos hx, Json.number?]
  · intro hx
    rw [Json.ofNumber, if_neg hx, Json.number?]
    all_goals rintro _ ⟨⟩

theorem BinaryOp.ofJson?_listing (op : BinaryOp) :
    BinaryOp.ofJson? (.string op.listing) = some op := by
  cases op <;> rfl

theorem UnaryOp.ofJson?_listing (op : UnaryOp) :
    UnaryOp.ofJson? (.string op.listing) = some op := by
  cases op <;> rfl

theorem Located.ofJson?_eq_some {α : Type} (encode : α → Json) (decode : Json → Option α)
    (x : Located α) (h : decode (encode x.val) = some x.val) :
    Located.ofJson? decode (x.toJson encode) = some x := by
  change (decode (encode x.val) >>= fun val => some ⟨val, x.span⟩) = some x
  rw [h]
  rfl

theorem Expr.toJson_eq_object (number : Float → Json) (e : Expr Unit) :
    ∃ fields, e.toJson number = .object fields := by
  cases e <;> rw [Expr.toJson, Json.spanned] <;> exact ⟨_, rfl⟩

namespace Node

/-- The form of a node is read back exactly if all numbers in it are finite. -/
def Reads (fuel : Nat) : Node Unit → Prop
  | .block body =>
    Yields ((Stmt.listToJson .ofNumber body).mapM (Stmt.ofJson? fuel)) body (block body).AllFinite
  | .stmt before s after =>
    Yields (Stmt.ofJson? fuel (s.toJson .ofNumber)) s (stmt before s after).AllFinite
  | .expr e => Yields (Expr.ofJson? fuel (e.toJson .ofNumber)) e (expr e).AllFinite
  | .param before x =>
    Yields (Located.ofJson? Json.string? (x.toJson .string)) x
      (param before x : Node Unit).AllFinite

variable {fuel : Nat}

theorem reads_statements {before after : Block Unit}
    (h : ∀ child ∈ statements before after, child.2.Reads fuel) :
    Yields ((Stmt.listToJson .ofNumber after).mapM (Stmt.ofJson? fuel)) after
      (∀ child ∈ statements before after, child.2.AllFinite) := by
  induction after generalizing before with
  | nil => exact .of_eq rfl nofun
  | cons s after ih =>
    have ⟨hs, hafter⟩ := List.forall_mem_cons.mp h
    exact Yields.congr (.mapM_cons hs (ih hafter)) (by simp [statements])

theorem reads_expressions {es : List (Expr Unit)}
    (h : ∀ child ∈ expressions es, child.2.Reads fuel) :
    Yields ((Expr.listToJson .ofNumber es).mapM (Expr.ofJson? fuel)) es
      (∀ child ∈ expressions es, child.2.AllFinite) := by
  induction es with
  | nil => exact .of_eq rfl nofun
  | cons e es ih =>
    have ⟨he, hes⟩ := List.forall_mem_cons.mp h
    exact Yields.congr (.mapM_cons he (ih hes)) (by simp [expressions])

theorem reads_parameters {before after : List (Located String)}
    (h : ∀ child ∈ parameters before after, child.2.Reads fuel) :
    Yields ((after.map (Located.toJson .string)).mapM (Located.ofJson? Json.string?)) after
      (∀ child ∈ (parameters before after : List (Enclosure × Node Unit)), child.2.AllFinite) := by
  induction after generalizing before with
  | nil => exact .of_eq rfl nofun
  | cons x after ih =>
    have ⟨hx, hafter⟩ := List.forall_mem_cons.mp h
    exact Yields.congr (.mapM_cons hx (ih hafter)) (by simp [parameters])

/-- A part of an expression that may be absent. -/
theorem reads_optional {part : Option (Expr Unit)} {j : Json} {name : String}
    (hfield : j.field? name = some (Expr.optionToJson .ofNumber part))
    (h : ∀ child ∈ expressions part.toList, child.2.Reads fuel) :
    Yields (j.optional? (Expr.ofJson? fuel) name) part
      (∀ child ∈ expressions part.toList, child.2.AllFinite) := by
  refine .optional hfield ?_ ?_
  · rintro rfl
    exact ⟨rfl, nofun⟩
  · rintro e rfl
    obtain ⟨fields, hfields⟩ := Expr.toJson_eq_object .ofNumber e
    have he : Yields _ e _ := h _ (List.mem_singleton.mpr rfl)
    refine ⟨?_, he.congr (by simp [expressions])⟩
    rw [Expr.optionToJson, hfields]
    nofun

/-- The block that is run if a condition does not hold, which may be absent. -/
theorem reads_else {no : Option (Block Unit)} {j : Json} {name : String}
    (hfield : j.field? name = some (Stmt.optionToJson .ofNumber no))
    (h : ∀ body ∈ no, (block body).Reads fuel) :
    Yields (j.optional? (fun j => do (← j.array?).mapM (Stmt.ofJson? fuel)) name) no
      (∀ body ∈ no, (block body).AllFinite) := by
  refine .optional hfield ?_ ?_
  · rintro rfl
    exact ⟨rfl, nofun⟩
  · rintro body rfl
    have hbody : Yields _ body _ := h body rfl
    exact ⟨nofun, hbody.congr (by simp)⟩

theorem reads_expr {e : Expr Unit}
    (h : ∀ child ∈ (expr e).children, ∀ m, fuel ≤ m → child.2.Reads m) :
    (expr e).Reads (fuel + 2) := by
  -- An only part is read after one call, and named parts after another.
  have honly : ∀ child ∈ (expr e).children, child.2.Reads (fuel + 1) :=
    fun child hchild => h child hchild (fuel + 1) (by omega)
  have hnamed : ∀ child ∈ (expr e).children, child.2.Reads fuel :=
    fun child hchild => h child hchild fuel (by omega)
  refine Yields.congr ?_ allFinite_iff.symm
  cases e with
  | number span x =>
    exact Yields.congr ((Json.number?_ofNumber x).bind .pure) (by simp [children])
  | text span s => exact .of_eq rfl ⟨nofun, nofun⟩
  | bool span b => exact .of_eq rfl ⟨nofun, nofun⟩
  | nil span => exact .of_eq rfl ⟨nofun, nofun⟩
  | name span global x => exact .of_eq rfl ⟨nofun, nofun⟩
  | array span items =>
    exact Yields.congr ((reads_expressions honly).bind .pure) (by simp [children])
  | group span inner =>
    have hinner : (expr inner).Reads (fuel + 1) := by
      simpa [children, expressions] using honly
    exact Yields.congr (hinner.bind .pure) (by simp [children, expressions])
  | binary span op left right =>
    obtain ⟨hleft, hright⟩ : (expr left).Reads fuel ∧ (expr right).Reads fuel := by
      simpa [children, expressions] using hnamed
    have hop := Yields.of_eq op.ofJson?_listing trivial
    exact Yields.congr (hop.bind (hleft.bind (hright.bind .pure)))
      (by simp [children, expressions])
  | unary span op operand =>
    have hoperand : (expr operand).Reads fuel := by
      simpa [children, expressions] using hnamed
    have hop := Yields.of_eq op.ofJson?_listing trivial
    exact Yields.congr (hop.bind (hoperand.bind .pure)) (by simp [children, expressions])
  | conditional span test yes no =>
    obtain ⟨htest, hyes, hno⟩ :
        (expr test).Reads fuel ∧ (expr yes).Reads fuel ∧ (expr no).Reads fuel := by
      simpa [children, expressions] using hnamed
    exact Yields.congr (htest.bind (hyes.bind (hno.bind .pure)))
      (by simp [children, expressions])
  | call span callee args =>
    obtain ⟨hcallee, hargs⟩ := List.forall_mem_cons.mp hnamed
    exact Yields.congr (hcallee.bind ((reads_expressions hargs).bind .pure))
      (by simp [children, expressions])
  | index span target i =>
    obtain ⟨htarget, hi⟩ : (expr target).Reads fuel ∧ (expr i).Reads fuel := by
      simpa [children, expressions] using hnamed
    exact Yields.congr (htarget.bind (hi.bind .pure)) (by simp [children, expressions])
  | slice span target start stop =>
    obtain ⟨htarget, hstart, hstop⟩ : (expr target).Reads fuel ∧
        (∀ child ∈ expressions start.toList, child.2.Reads fuel) ∧
        ∀ child ∈ expressions stop.toList, child.2.Reads fuel := by
      simpa [children, expressions, or_imp, forall_and] using hnamed
    exact Yields.congr
      (htarget.bind ((reads_optional rfl hstart).bind ((reads_optional rfl hstop).bind .pure)))
      (by simp [children, expressions, or_imp, forall_and])
  | assign span global constant x value =>
    have hvalue : (expr value).Reads fuel := by
      simpa [children, expressions] using hnamed
    exact Yields.congr (hvalue.bind .pure) (by simp [children, expressions])
  | assignIndex span global constant x i value =>
    obtain ⟨hi, hvalue⟩ : (expr i).Reads fuel ∧ (expr value).Reads fuel := by
      simpa [children, expressions] using hnamed
    exact Yields.congr (hi.bind (hvalue.bind .pure)) (by simp [children, expressions])
  | function span mark params body =>
    obtain ⟨hparams, hbody⟩ := List.forall_mem_append.mp honly
    have hbody : (block body).Reads (fuel + 1) := hbody _ (List.mem_singleton.mpr rfl)
    exact Yields.congr ((reads_parameters hparams).bind (hbody.bind .pure))
      (by simp [children, or_imp, forall_and])

theorem reads_stmt {before after : Block Unit} {s : Stmt Unit}
    (h : ∀ child ∈ (stmt before s after).children, ∀ m, fuel ≤ m → child.2.Reads m) :
    (stmt before s after).Reads (fuel + 2) := by
  have honly : ∀ child ∈ (stmt before s after).children, child.2.Reads (fuel + 1) :=
    fun child hchild => h child hchild (fuel + 1) (by omega)
  have hnamed : ∀ child ∈ (stmt before s after).children, child.2.Reads fuel :=
    fun child hchild => h child hchild fuel (by omega)
  refine Yields.congr ?_ allFinite_iff.symm
  cases s with
  | expr span e =>
    have he : (expr e).Reads (fuel + 1) := by
      simpa [children, expressions] using honly
    exact Yields.congr (he.bind .pure) (by simp [children, expressions])
  | block span body =>
    have hbody : (block body).Reads (fuel + 1) := by
      simpa [children] using honly
    exact Yields.congr (hbody.bind .pure) (by simp [children])
  | cond span test yes no =>
    obtain ⟨htest, hyes, hno⟩ : (expr test).Reads fuel ∧ (block yes).Reads fuel ∧
        ∀ body ∈ no, (block body).Reads fuel := by
      simpa [children, expressions] using hnamed
    exact Yields.congr (htest.bind (hyes.bind ((reads_else rfl hno).bind .pure)))
      (by simp [children, expressions])
  | «while» span test body =>
    obtain ⟨htest, hbody⟩ : (expr test).Reads fuel ∧ (block body).Reads fuel := by
      simpa [children, expressions] using hnamed
    exact Yields.congr (htest.bind (hbody.bind .pure)) (by simp [children, expressions])
  | range span x cmp first last body =>
    obtain ⟨hfirst, hlast, hbody⟩ :
        (expr first).Reads fuel ∧ (expr last).Reads fuel ∧ (block body).Reads fuel := by
      simpa [children, expressions] using hnamed
    have hread := Located.ofJson?_eq_some (.string ·.listing) _ cmp cmp.val.ofJson?_listing
    have hcmp := Yields.of_eq hread trivial
    exact Yields.congr (hcmp.bind (hfirst.bind (hlast.bind (hbody.bind .pure))))
      (by simp [children, expressions])
  | «break» span => exact .of_eq rfl ⟨nofun, nofun⟩
  | «continue» span => exact .of_eq rfl ⟨nofun, nofun⟩
  | «return» span value =>
    cases value with
    | none => exact .of_eq rfl ⟨nofun, nofun⟩
    | some e =>
      have he : (expr e).Reads (fuel + 1) := by
        simpa [children, expressions] using honly
      -- A value that is null would be absent, so the reader has to see that this one is not.
      obtain ⟨fields, hfields⟩ := Expr.toJson_eq_object .ofNumber e
      rw [Reads, hfields] at he
      rw [Stmt.toJson, Expr.optionToJson, hfields]
      exact Yields.congr (he.bind .pure) (by simp [children, expressions])

/-- If its children can be read with some fuel, a node can be read with two calls more. -/
theorem reads_of_children {p : Node Unit}
    (h : ∀ child ∈ p.children, ∀ m, fuel ≤ m → child.2.Reads m) : p.Reads (fuel + 2) := by
  cases p with
  | block body =>
    have hbody := reads_statements fun child hchild => h child hchild (fuel + 2) (by omega)
    exact Yields.congr hbody (by simp [allFinite_iff (p := .block body), children])
  | stmt before s after => exact reads_stmt h
  | expr e => exact reads_expr h
  | param before x =>
    exact .of_eq (Located.ofJson?_eq_some _ _ x rfl) (allFinite_iff.mpr ⟨nofun, nofun⟩)

/-- Two calls for each level of nesting are enough to read a node. -/
theorem reads (p : Node Unit) : ∀ fuel, 2 * p.toJson.depth ≤ fuel → p.Reads fuel := by
  induction p using Node.induction with
  | step p ih =>
    intro fuel hfuel
    -- The form of anything has a depth, so there are two calls left for the node itself.
    have hpos : 1 ≤ p.toJson.depth := p.toJson.depth_pos
    obtain ⟨fuel, rfl⟩ : ∃ n, fuel = n + 2 := ⟨fuel - 2, by omega⟩
    refine reads_of_children fun child hchild m hm => ih child.1 child.2 hchild m ?_
    have hlt := depth_lt hchild
    omega

end Node

/-! ### Programs -/

namespace Program

/-- All numbers that are written in a program are finite. -/
def AllFinite (p : Program) : Prop :=
  (Node.block p.body).AllFinite

theorem yields_toJson (p : Program) : Yields (Program.ofJson? p.toJson) p p.AllFinite := by
  have hdepth : (Node.block p.body).toJson.depth < p.toJson.depth :=
    Json.depth_lt_object List.mem_cons_self
  have hbody := (Node.block p.body).reads (2 * p.toJson.depth) (by omega)
  exact Yields.congr (hbody.bind .pure) (by rw [and_true, AllFinite])

/-- A program is read back from its JSON form exactly if all its numbers are finite. A number that
is not is written as null, and then there is no program that is read. -/
theorem ofJson?_toJson (p : Program) :
    (Program.ofJson? p.toJson = some p ↔ p.AllFinite) ∧
      (¬ p.AllFinite → Program.ofJson? p.toJson = none) ∧
      ∀ span x, Number.isFinite x = false →
        Expr.toJson .ofNumber (.number span x) = .spanned (.variant "Number" .null) span := by
  refine ⟨p.yields_toJson.eq_some_iff, p.yields_toJson.2, fun span x hx => ?_⟩
  rw [Expr.toJson, Json.ofNumber, hx]
  rfl

/-- A half is read back and an infinite number is not. -/
theorem ofJson?_toJson_number :
    let half : Program := ⟨[.expr ⟨0, 4⟩ (.number ⟨0, 3⟩ 0.5)]⟩
    let infinite : Program := ⟨[.expr ⟨0, 6⟩ (.number ⟨0, 5⟩ Number.infinity)]⟩
    half.AllFinite ∧ Program.ofJson? half.toJson = some half ∧
      ¬ infinite.AllFinite ∧ Program.ofJson? infinite.toJson = none := by
  intro half infinite
  have hhalf : half.AllFinite := by
    refine Node.allFinite_iff.mpr ⟨nofun, List.forall_mem_singleton.mpr ?_⟩
    refine Node.allFinite_iff.mpr ⟨nofun, List.forall_mem_singleton.mpr ?_⟩
    refine Node.allFinite_iff.mpr ⟨?_, nofun⟩
    rintro _ _ ⟨⟩
    decide +kernel
  have hinfinite : ¬ infinite.AllFinite := by
    intro h
    have hfinite := h ⟨0, 5⟩ Number.infinity ⟨[0, 0], _, .inside rfl (.inside rfl .here)⟩
    exact absurd hfinite (by decide +kernel)
  exact ⟨hhalf, half.ofJson?_toJson.1.mpr hhalf, hinfinite,
    infinite.ofJson?_toJson.2.1 hinfinite⟩

end Program
end Scriptlet
