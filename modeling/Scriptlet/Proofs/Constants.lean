import Scriptlet.Program.Source
import Scriptlet.Proofs.Confinement
import Scriptlet.Proofs.Simulation

/-!
Constants stay constant.

Assignment refuses a name that is a constant in its frame, a call binds its parameters in a frame of
its own, and no construct but a range loop binds or forgets a name otherwise. A range loop does so
without asking whether its variable is a constant. So a constant is safe as long as no loop counts
with its name, in the code that runs and in the functions that it can get hold of
(`World.Spares`): `constants_kept`. For the natives of a new interpreter no function is there yet, and
the programs themselves are all there is to look at.

What `World.Fixes` says of a world is kept by each evaluation (`World.Fixes.eval`,
`World.Fixes.exec`), hence by each program (`World.Fixes.run`) and by any number of them
(`World.Fixes.runAll`).
-/
namespace Scriptlet

/-! ### The hazards of a program -/

mutual

theorem Expr.hazards_mark : (e : Expr Unit) → (path : FunctionId) →
    (e.mark path).hazards = e.hazards
  | .number .., _ | .text .., _ | .bool .., _ | .nil _, _ | .name .., _ => rfl
  | .array _ items, path => by
    rw [Expr.mark, Expr.hazards, Expr.hazards, Expr.hazardsOfAll_mark items]
  | .group _ inner, path => by rw [Expr.mark, Expr.hazards, Expr.hazards, inner.hazards_mark]
  | .binary _ _ left right, path => by
    rw [Expr.mark, Expr.hazards, Expr.hazards, left.hazards_mark, right.hazards_mark]
  | .unary _ _ operand, path => by rw [Expr.mark, Expr.hazards, Expr.hazards, operand.hazards_mark]
  | .conditional _ test yes no, path => by
    rw [Expr.mark, Expr.hazards, Expr.hazards, test.hazards_mark, yes.hazards_mark,
      no.hazards_mark]
  | .call _ callee args, path => by
    rw [Expr.mark, Expr.hazards, Expr.hazards, callee.hazards_mark, Expr.hazardsOfAll_mark args]
  | .index _ target i, path => by
    rw [Expr.mark, Expr.hazards, Expr.hazards, target.hazards_mark, i.hazards_mark]
  | .slice _ target start stop, path => by
    rw [Expr.mark, Expr.hazards, Expr.hazards, target.hazards_mark, Expr.hazardsOfOption_mark start,
      Expr.hazardsOfOption_mark stop]
  | .assign _ _ _ _ value, path => by rw [Expr.mark, Expr.hazards, Expr.hazards, value.hazards_mark]
  | .assignIndex _ _ _ _ i value, path => by
    rw [Expr.mark, Expr.hazards, Expr.hazards, i.hazards_mark, value.hazards_mark]
  | .function _ _ _ body, path => by
    rw [Expr.mark, Expr.hazards, Expr.hazards, Block.hazards_mark body]
termination_by structural x => x

theorem Expr.hazardsOfAll_mark : (es : List (Expr Unit)) → (path : FunctionId) → (i : Nat) →
    Expr.hazardsOfAll (Expr.markList path i es) = Expr.hazardsOfAll es
  | [], _, _ => rfl
  | e :: es, path, i => by
    rw [Expr.markList, Expr.hazardsOfAll, Expr.hazardsOfAll, e.hazards_mark,
      Expr.hazardsOfAll_mark es]
termination_by structural x => x

theorem Expr.hazardsOfOption_mark : (e : Option (Expr Unit)) → (path : FunctionId) →
    Expr.hazardsOfOption (Expr.markOption path e) = Expr.hazardsOfOption e
  | none, _ => rfl
  | some e, path => e.hazards_mark path
termination_by structural x => x

theorem Stmt.hazards_mark : (s : Stmt Unit) → (path : FunctionId) →
    (s.mark path).hazards = s.hazards
  | .expr _ e, path => by rw [Stmt.mark, Stmt.hazards, Stmt.hazards, e.hazards_mark]
  | .block _ body, path => by rw [Stmt.mark, Stmt.hazards, Stmt.hazards, Block.hazards_mark body]
  | .cond _ test yes no, path => by
    rw [Stmt.mark, Stmt.hazards, Stmt.hazards, test.hazards_mark, Block.hazards_mark yes,
      Block.hazardsOfOption_mark no]
  | .while _ test body, path => by
    rw [Stmt.mark, Stmt.hazards, Stmt.hazards, test.hazards_mark, Block.hazards_mark body]
  | .range _ _ _ first last body, path => by
    rw [Stmt.mark, Stmt.hazards, Stmt.hazards, first.hazards_mark, last.hazards_mark,
      Block.hazards_mark body]
  | .break _, _ | .continue _, _ => rfl
  | .return _ value, path => by
    rw [Stmt.mark, Stmt.hazards, Stmt.hazards, Expr.hazardsOfOption_mark value]
termination_by structural x => x

theorem Block.hazards_mark : (ss : List (Stmt Unit)) → (path : FunctionId) → (i : Nat) →
    Block.hazards (Block.mark path i ss) = Block.hazards ss
  | [], _, _ => rfl
  | s :: ss, path, i => by
    rw [Block.mark, Block.hazards, Block.hazards, s.hazards_mark, Block.hazards_mark ss]
termination_by structural x => x

theorem Block.hazardsOfOption_mark : (ss : Option (List (Stmt Unit))) → (path : FunctionId) →
    Block.hazardsOfOption (Block.markOption path ss) = Block.hazardsOfOption ss
  | none, _ => rfl
  | some body, path => Block.hazards_mark body path 0
termination_by structural x => x

end

/-! ### Worlds that spare a name -/

/-- Run programs one after the other, each with fuel of its own. -/
def Interpreter.runAll (i : Interpreter) (runs : List (Nat × Program)) : Interpreter :=
  runs.foldl (fun i r => (i.run r.1 r.2).2) i

/-- The world in which an action ends, also if it stops early. -/
def Run.worldAfter {α : Type} (act : Run α) (w : World) : World :=
  match act w with
  | .ok _ v => v
  | .error _ v => v

theorem Interpreter.world_perform {α : Type} (i : Interpreter) (act : Run α) (count : Nat) :
    (i.perform act count).2.world = act.worldAfter i.world := by
  obtain ⟨world, limit, statements⟩ := i
  rw [perform, Run.worldAfter]
  cases act world <;> rfl

/-- An action that keeps a territory leaves a world in which it is kept. -/
theorem Territory.RunKeeps.worldAfter {T : Territory} {shape : List (List FrameId)} {α : Type}
    {Q : α → Prop} {act : Run α} (hact : T.RunKeeps shape Q act) {w : World} (hw : T.Kept shape w) :
    T.Kept shape (act.worldAfter w) := by
  have hends := hact w hw
  unfold Run.worldAfter
  generalize act w = r at hends ⊢
  cases hends with
  | ok _ hw => exact hw
  | error hw => exact hw

/-- The names that a new interpreter binds are bound to natives. -/
theorem Interpreter.native_of_lookup {x : String} {b : Binding}
    (h : nativeBindings.lookup x = some b) : ∃ n, b.value = .native n := by
  obtain ⟨before, after, heq, -⟩ := List.lookup_eq_some_iff.mp h
  have hmem : (x, b) ∈ nativeBindings := by
    rw [heq]
    exact List.mem_append_right before List.mem_cons_self
  obtain ⟨n, -, hn⟩ := List.mem_map.mp hmem
  exact ⟨n, by rw [← (Prod.mk.inj hn).2]⟩

namespace World

/-- The values that can be got hold of: what names are bound to, and the items of such arrays. -/
inductive Reaches (w : World) : Value → Prop
  | binding {f : FrameId} {x : String} {b : Binding} (h : w.scopes.find? f x = some b) :
    Reaches w b.value
  | item {r : ArrayRef} {v : Value} (hr : Reaches w (.array r))
    (hv : v ∈ (w.host.heap.items r).toList) : Reaches w v

/-- No function that can be got hold of counts with this name. -/
def Spares (w : World) (x : String) : Prop :=
  ∀ f : Function, w.Reaches (.function f) → .counter x ∉ Block.hazards f.body

/-- A name is a constant of this value, and no function that can be got hold of counts with it. -/
structure Fixes (w : World) (f : FrameId) (x : String) (v : Value) : Prop where
  constant : w.scopes.find? f x = some ⟨v, false⟩
  spares : w.Spares x

/-- All that is there, for code that does not count with `x`. -/
def sparing (w : World) (x : String) : Territory where
  start := w
  Reads _ := True
  Writes _ := True
  Texts _ := True
  Arrays r := w.Reaches (.array r) ∨ w.host.heap.arrays.size ≤ r.index
  Permits h := h ≠ .counter x
  reads_new _ _ := trivial
  writes_new _ _ := trivial
  texts_new _ _ := trivial
  arrays_new _ h := .inr h

variable {w : World} {f : FrameId} {x : String} {v : Value}

theorem permitsAll_iff {hs : List Hazard} : (w.sparing x).PermitsAll hs ↔ .counter x ∉ hs := by
  constructor
  · intro h hmem
    exact h _ hmem rfl
  · rintro h k hk rfl
    exact h hk

theorem Spares.holds (h : w.Spares x) (hv : w.Reaches v) : (w.sparing x).Holds v := by
  cases v with
  | array r => exact .inl hv
  | function f => exact permitsAll_iff.mpr (h f hv)
  | _ => trivial

theorem Spares.kept (h : w.Spares x) : (w.sparing x).Kept w.scopes.shape w := by
  refine ⟨⟨rfl, ?_, fun _ _ => rfl, fun _ _ _ hv _ => hv⟩,
    ⟨Nat.le_refl _, Nat.le_refl _, ?_, fun _ _ => rfl, fun _ _ => rfl⟩⟩
  · intro f _ x b hb
    exact h.holds (.binding hb)
  · rintro r (hr | hr) v hv
    · exact h.holds (.item hr hv)
    · rw [Heap.items_of_le w.host.heap hr] at hv
      cases hv

theorem sparing_homes (w : World) (x : String) (env : FrameId) :
    (w.sparing x).Homes w.scopes.shape env where
  sees := ⟨Nat.le_of_eq (Scopes.length_shape _).symm, fun _ _ _ _ => trivial, trivial,
    fun _ _ => trivial⟩
  writes := trivial

/-- What can be got hold of in a world that is kept belongs to the territory. -/
theorem Reaches.holds {u : World} {shape : List (List FrameId)} (hu : (w.sparing x).Kept shape u)
    (hv : u.Reaches v) : (w.sparing x).Holds v := by
  induction hv with
  | binding hb => exact hu.scopes.find? _ trivial _ _ hb
  | item _ hv ih => exact hu.heap.items _ ih _ hv

/-- An action that keeps the territory keeps the constant, and gives out no function that counts
with its name. -/
theorem Fixes.worldAfter {α : Type} {Q : α → Prop} {act : Run α} (h : w.Fixes f x v)
    (hact : (w.sparing x).RunKeeps w.scopes.shape Q act) : (act.worldAfter w).Fixes f x v := by
  have hkept := hact.worldAfter h.spares.kept
  have hpermits : ¬ (w.sparing x).Permits (.counter x) := fun hp => hp rfl
  refine ⟨hkept.scopes.constant f x v h.constant hpermits, fun g hg => ?_⟩
  exact permitsAll_iff.mp (Reaches.holds hkept hg)

theorem Fixes.eval (h : w.Fixes f x v) {e : Expr FunctionId} (he : .counter x ∉ e.hazards)
    (limit fuel : Nat) (env : FrameId) (depth : Depth) :
    ((Scriptlet.eval limit fuel env depth e).worldAfter w).Fixes f x v :=
  h.worldAfter ((evaluation_confined _ limit fuel).eval depth (sparing_homes w x env)
    (permitsAll_iff.mpr he))

theorem Fixes.exec (h : w.Fixes f x v) {s : Stmt FunctionId} (hs : .counter x ∉ s.hazards)
    (limit fuel : Nat) (env : FrameId) (depth : Depth) :
    ((Scriptlet.exec limit fuel env depth s).worldAfter w).Fixes f x v :=
  h.worldAfter ((evaluation_confined _ limit fuel).exec depth (sparing_homes w x env)
    (permitsAll_iff.mpr hs))

/-! ### Programs -/

theorem Fixes.run {i : Interpreter} (h : i.world.Fixes f x v) {p : Program}
    (hp : .counter x ∉ Block.hazards p.body) (fuel : Nat) :
    (i.run fuel p).2.world.Fixes f x v := by
  have hmark : .counter x ∉ Block.hazards (p.mark i.statements) := by
    rwa [Program.mark, Block.hazards_mark]
  rw [Interpreter.run, Interpreter.world_perform]
  exact h.worldAfter ((evaluation_confined _ i.limit fuel).execBlock .top
    (sparing_homes i.world x 0) (permitsAll_iff.mpr hmark))

theorem Fixes.runAll {runs : List (Nat × Program)}
    (hruns : ∀ r ∈ runs, .counter x ∉ Block.hazards r.2.body) {i : Interpreter}
    (h : i.world.Fixes f x v) :
    (i.runAll runs).world.Fixes f x v := by
  induction runs generalizing i with
  | nil => exact h
  | cons r runs ih =>
    have hfirst := h.run (hruns r List.mem_cons_self) r.1
    exact ih (fun s hs => hruns s (List.mem_cons_of_mem r hs)) hfirst

/-- In a new interpreter natives are all that can be got hold of. -/
theorem Reaches.native_of_new {limit : Nat} {console : Console}
    (h : (Interpreter.new limit console).world.Reaches v) : ∃ n, v = .native n := by
  induction h with
  | @binding f x b hb =>
    have hlt := Scopes.lt_of_find? hb
    obtain rfl : f = 0 := Nat.lt_one_iff.mp hlt
    exact Interpreter.native_of_lookup hb
  | item _ _ ih =>
    obtain ⟨n, hn⟩ := ih
    cases hn

theorem fixes_new (n : Native) (limit : Nat) (console : Console) :
    (Interpreter.new limit console).world.Fixes 0 n.name (.native n) where
  constant := by cases n <;> rfl
  spares g hg := by
    obtain ⟨n, hn⟩ := hg.native_of_new
    cases hn

end World

/-- **Constants stay constant.** Where no range loop counts with a name, neither in the code nor in a
function that can be got hold of, a constant of that name stays bound in its frame to the very same
value, however the evaluation ends. In particular programs that do not count with the name of a
native leave it as it is in a new interpreter, one after the other. -/
theorem constants_kept :
    (∀ (w : World) (f : FrameId) (x : String) (v : Value),
      w.scopes.find? f x = some ⟨v, false⟩ → w.Spares x →
      ∀ (limit fuel : Nat) (env : FrameId) (depth : Depth),
        (∀ e : Expr FunctionId, .counter x ∉ e.hazards →
          ((eval limit fuel env depth e).worldAfter w).scopes.find? f x = some ⟨v, false⟩) ∧
        ∀ s : Stmt FunctionId, .counter x ∉ s.hazards →
          ((exec limit fuel env depth s).worldAfter w).scopes.find? f x = some ⟨v, false⟩) ∧
    ∀ (n : Native) (runs : List (Nat × Program)),
      (∀ r ∈ runs, .counter n.name ∉ Block.hazards r.2.body) →
      ∀ (limit : Nat) (console : Console),
        ((Interpreter.new limit console).runAll runs).world.scopes.find? 0 n.name =
          some ⟨.native n, false⟩ := by
  refine ⟨?_, ?_⟩
  · intro w f x v hx hw limit fuel env depth
    have hfixes : w.Fixes f x v := ⟨hx, hw⟩
    refine ⟨fun e he => ?_, fun s hs => ?_⟩
    · exact (hfixes.eval he limit fuel env depth).constant
    · exact (hfixes.exec hs limit fuel env depth).constant
  · intro n runs hruns limit console
    exact (World.Fixes.runAll hruns (World.fixes_new n limit console)).constant

/-- A call that assigns `len` in its own frame, where it is a parameter, and in the global one. -/
theorem constants_kept_len :
    let new := Interpreter.new 10 (.ofInput [])
    let e : Expr FunctionId := .assign ⟨0, 9⟩ false false "len" (.nil ⟨6, 9⟩)
    let source :=
      "grab := fn(len) \x7b len = 1; global len = print; \x7d; for i < 0 .. 2 \x7b grab(i); \x7d"
    (new.world.scopes.find? 0 "len" = some ⟨.native .len, false⟩ ∧ new.world.Spares "len" ∧
      .counter "len" ∉ e.hazards ∧
      ((eval 10 5 0 .top e).worldAfter new.world).scopes.find? 0 "len" =
        some ⟨.native .len, false⟩) ∧
    ∃ p, Program.ofSource source = .ok p ∧
      .counter "len" ∉ Block.hazards p.body ∧
      (new.runAll [(20, p), (30, p)]).world.scopes.find? 0 "len" = some ⟨.native .len, false⟩ := by
  intro new e source
  have hnew := World.fixes_new .len 10 (.ofInput [])
  have he : .counter "len" ∉ e.hazards := by decide
  have hkept := (constants_kept.1 new.world 0 "len" _ hnew.constant hnew.spares 10 5 0 .top).1 e he
  refine ⟨⟨hnew.constant, hnew.spares, he, hkept⟩, ?_⟩
  obtain ⟨p, hp, hcounter⟩ : ∃ p, Program.ofSource source = .ok p ∧
      .counter "len" ∉ Block.hazards p.body := by
    decide +kernel
  refine ⟨p, hp, hcounter, constants_kept.2 .len [(20, p), (30, p)] ?_ 10 (.ofInput [])⟩
  intro r hr
  simp only [List.mem_cons, List.not_mem_nil, or_false] at hr
  rcases hr with rfl | rfl
  · exact hcounter
  · exact hcounter

end Scriptlet
