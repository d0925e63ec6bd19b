import Scriptlet.Proofs.Reachability

/-!
Which frames evaluation writes.

Names are read through the whole chain of a frame, but written in two of its frames only: in the
frame itself, and in the global one by a `global` assignment. A call writes in a frame of its own,
which is gone when it ends, so of its caller's frames it can change only the global one, and that only
if the callee, or a function that it can get hold of, assigns a `global` (`frames_isolated`).

The territory is the same as for the heap, but now it is the frames that may be written that count.
-/
namespace Scriptlet

/-- A piece of code assigns no name in the global frame, and neither do the functions inside it. -/
def AssignsNoGlobal (hs : List Hazard) : Prop :=
  ∀ x, .global x ∉ hs

theorem AssignsNoGlobal.ne_global {hs : List Hazard} (hno : AssignsNoGlobal hs) :
    ∀ h ∈ hs, ∀ x, h ≠ .global x := by
  rintro _ hmem x rfl
  exact hno x hmem

namespace Territory

variable {T : Territory} {w : World}

/-- A frame that was there and may not be written is as it was. -/
theorem Kept.frame_eq (hw : T.Kept T.start.scopes.shape w) {f : FrameId} (hf : ¬ T.Writes f) :
    w.scopes.frame f = T.start.scopes.frame f := by
  have hparent : w.scopes.parent? f = T.start.scopes.parent? f := by
    rw [Scopes.parent?_eq_head?, Scopes.parent?_eq_head?, Scopes.outer_eq, Scopes.outer_eq,
      hw.scopes.shape_eq]
  have hbindings : (w.scopes.frame f).bindings = (T.start.scopes.frame f).bindings :=
    hw.scopes.bindings_eq f hf
  calc w.scopes.frame f
      = ⟨w.scopes.parent? f, (w.scopes.frame f).bindings⟩ := rfl
    _ = T.start.scopes.frame f := by rw [hparent, hbindings, Scopes.parent?]

end Territory

namespace World

variable (w : World)

/-- All that is there may be read, and all code may run. -/
def writing (writes : FrameId → Prop) : Territory :=
  w.territory (fun _ => True) writes (fun _ => True) fun _ => True

variable {w} {writes : FrameId → Prop} {env f : FrameId}

theorem writing_sees (hglobal : writes (w.scopes.global env)) :
    (w.writing writes).Sees w.scopes.shape env :=
  territory_sees trivial (fun _ _ _ _ => trivial) fun _ _ => hglobal

/-- An action that may write some frames only leaves the others as they were. -/
theorem frame_eq_of_keeps {reads : FrameId → Prop} {roots : Value → Prop} {permits : Hazard → Prop}
    {α : Type} {Q : α → Prop} {act : Run α}
    (hact : (w.territory reads writes roots permits).RunKeeps w.scopes.shape Q act)
    (hcode : ∀ f, w.host.heap.LeadsTo roots (.function f) → ∀ h ∈ Block.hazards f.body, permits h)
    (hroots : ∀ f, reads f → ∀ x b, w.scopes.find? f x = some b → roots b.value)
    (hf : f < w.scopes.frames.size) (hwrites : ¬ writes f) :
    (act.worldAfter w).scopes.frame f = w.scopes.frame f := by
  have hkept := hact.worldAfter (territory_kept hcode hroots)
  exact hkept.frame_eq fun h => h.elim hwrites fun hle => absurd hf (Nat.not_lt.mpr hle)

end World

namespace Task

/-- A task leaves the frames that are there, however it ends. -/
theorem shape_worldAfter (limit fuel : Nat) (t : Task) (w : World) :
    ((t.run limit fuel).worldAfter w).scopes.shape = w.scopes.shape := by
  -- a territory in which everything is permitted: only the shape is of interest
  let T := w.writing fun _ => True
  have hhomes : ∀ env, T.Homes w.scopes.shape env :=
    fun env => ⟨World.writing_sees trivial, .inl trivial⟩
  have hholds : ∀ v, T.Holds v :=
    fun v => World.territory_holds (fun _ _ _ _ => trivial) (.root trivial)
  have hpermits : ∀ hs, T.PermitsAll hs := fun _ _ _ => trivial
  have hconfined := evaluation_confined T limit fuel
  have hkept : ∀ {Q : t.Result → Prop}, T.RunKeeps w.scopes.shape Q (t.run limit fuel) →
      ((t.run limit fuel).worldAfter w).scopes.shape = w.scopes.shape := by
    intro Q hkeeps
    have hkept := hkeeps.worldAfter
      (World.territory_kept (fun _ _ _ _ => trivial) fun _ _ _ _ _ => trivial)
    exact hkept.scopes.shape_eq
  cases t with
  | eval env depth e => exact hkept (hconfined.eval depth (hhomes env) (hpermits _))
  | evalAll env depth es => exact hkept (hconfined.evalAll depth (hhomes env) (hpermits _))
  | evalOr env depth v e =>
    exact hkept (hconfined.evalOr depth (hhomes env) (hholds v) (hpermits _))
  | call env depth f vs span =>
    exact hkept (hconfined.call depth span (hhomes env).sees (hpermits _) fun v _ => hholds v)
  | exec env depth s => exact hkept (hconfined.exec depth (hhomes env) (hpermits _))
  | execBlock env depth ss => exact hkept (hconfined.execBlock depth (hhomes env) (hpermits _))
  | execWhile env depth test body =>
    exact hkept (hconfined.execWhile depth (hhomes env) (hpermits _) (hpermits _))
  | execRange env depth x cmp last step body =>
    exact hkept (hconfined.execRange depth cmp last step (hhomes env) trivial (hpermits _))

theorem shape_run {limit fuel : Nat} {t : Task} {w w' : World} {x : t.Result}
    (h : t.run limit fuel w = .ok x w') : w'.scopes.shape = w.scopes.shape := by
  have hshape := shape_worldAfter limit fuel t w
  rwa [Run.worldAfter, h] at hshape

end Task

/-- **Evaluation writes in its own frame and in the global one.** Of the frames that are there, an
expression or a statement changes none but the frame that it is evaluated in and the global frame
around that. A call changes none but the global frame, and not even that one if no name is assigned
there by the callee or by a function that bindings or arguments lead to. -/
theorem frames_isolated (w : World) (env : FrameId) (limit fuel : Nat) (depth : Depth)
    (f : FrameId) (hf : f < w.scopes.frames.size) :
    (f ≠ env → f ≠ w.scopes.global env →
      (∀ e : Expr FunctionId,
        ((eval limit fuel env depth e).worldAfter w).scopes.frame f = w.scopes.frame f) ∧
      ∀ s : Stmt FunctionId,
        ((exec limit fuel env depth s).worldAfter w).scopes.frame f = w.scopes.frame f) ∧
    ∀ (g : Function) (args : List Value) (span : Span),
      (f ≠ w.scopes.global env →
        ((call limit fuel env depth g args span).worldAfter w).scopes.frame f =
          w.scopes.frame f) ∧
      (AssignsNoGlobal (Block.hazards g.body) →
        (∀ g' : Function,
          w.host.heap.LeadsTo (fun v => w.Binds v ∨ v ∈ args) (.function g') →
            AssignsNoGlobal (Block.hazards g'.body)) →
        ((call limit fuel env depth g args span).worldAfter w).scopes.frame f =
          w.scopes.frame f) := by
  refine ⟨fun henv hglobal => ?_, fun g args span => ⟨fun hglobal => ?_, fun hg hcode => ?_⟩⟩
  · -- what may be written is the frame itself and the global one
    let T := w.writing fun h => h = env ∨ h = w.scopes.global env
    have hhomes : T.Homes w.scopes.shape env := ⟨World.writing_sees (.inr rfl), .inl (.inl rfl)⟩
    have hconfined := evaluation_confined T limit fuel
    have hwrites : ¬ (f = env ∨ f = w.scopes.global env) := fun h => h.elim henv hglobal
    refine ⟨fun e => ?_, fun s => ?_⟩
    · exact World.frame_eq_of_keeps (hconfined.eval (e := e) depth hhomes fun _ _ => trivial)
        (fun _ _ _ _ => trivial) (fun _ _ _ _ _ => trivial) hf hwrites
    · exact World.frame_eq_of_keeps (hconfined.exec (s := s) depth hhomes fun _ _ => trivial)
        (fun _ _ _ _ => trivial) (fun _ _ _ _ _ => trivial) hf hwrites
  · -- a call has a frame of its own, so the frame of its caller is not among them
    let T := w.writing fun h => h = w.scopes.global env
    have hargs : T.HoldsAll args :=
      fun v _ => World.territory_holds (fun _ _ _ _ => trivial) (.root trivial)
    have hcall := (evaluation_confined T limit fuel).call (f := g) depth span
      (World.writing_sees rfl) (fun _ _ => trivial) hargs
    exact World.frame_eq_of_keeps hcall (fun _ _ _ _ => trivial) (fun _ _ _ _ _ => trivial) hf
      hglobal
  · -- without `global` no frame that is there may be written
    let T := w.territory (fun _ => True) (fun _ => False) (fun v => w.Binds v ∨ v ∈ args)
      fun h => ∀ x, h ≠ .global x
    have hsees : T.Sees w.scopes.shape env :=
      World.territory_sees trivial (fun _ _ _ _ => trivial) fun x hx => absurd rfl (hx x)
    have hfunctions : ∀ g', w.host.heap.LeadsTo (fun v => w.Binds v ∨ v ∈ args) (.function g') →
        ∀ h ∈ Block.hazards g'.body, ∀ x, h ≠ .global x :=
      fun g' hg' => (hcode g' hg').ne_global
    have hargs : T.HoldsAll args :=
      fun v hv => World.territory_holds hfunctions (.root (.inr hv))
    have hcall := (evaluation_confined T limit fuel).call (f := g) depth span hsees
      hg.ne_global hargs
    exact World.frame_eq_of_keeps hcall hfunctions (fun h _ x b hb => .inl ⟨h, x, b, hb, rfl⟩) hf id

/-- In a call inside a call, a loop counts with the name of a local of the outer call and assigns a
global; a function called from there assigns the same name, which is its parameter. -/
theorem frames_isolated_shadowed :
    let s : Span := ⟨0, 0⟩
    let w : World :=
      ⟨((((Scopes.start Interpreter.nativeBindings).child 0).2.add 1 "y" ⟨.nil, true⟩).child 1).2,
      ⟨.empty, .ofInput []⟩⟩
    let loop : Stmt FunctionId := .range s ⟨"y", s⟩ ⟨.lt, s⟩ (.number s 0) (.number s 2)
      [.expr s (.assign s true false "z" (.name s false "y"))]
    let g : Function := ⟨[], [⟨"y", s⟩], [.expr s (.assign s false false "y" (.bool s true))]⟩
    let after := (exec 10 20 2 .top loop).worldAfter w
    (1 < w.scopes.frames.size ∧ 1 ≠ 2 ∧ 1 ≠ w.scopes.global 2 ∧
      after.scopes.frame 1 = w.scopes.frame 1 ∧ (after.scopes.find? 0 "z").isSome) ∧
    (AssignsNoGlobal (Block.hazards g.body) ∧
      (∀ g' : Function, w.host.heap.LeadsTo (fun v => w.Binds v ∨ v ∈ [.nil]) (.function g') →
        AssignsNoGlobal (Block.hazards g'.body)) ∧
      ((call 10 20 2 .top g [.nil] s).worldAfter w).scopes.frame 0 = w.scopes.frame 0) := by
  intro s w loop g after
  have hglobal : 1 ≠ w.scopes.global 2 := by
    rw [Scopes.global_of_some (p := 1) rfl, Scopes.global_of_some (p := 0) rfl,
      Scopes.global_of_none rfl]
    decide
  have hvalues : ∀ v, w.host.heap.LeadsTo (fun v => w.Binds v ∨ v ∈ [.nil]) v →
      v = .nil ∨ ∃ n, v = .native n := by
    intro v hv
    induction hv with
    | root hv =>
      rcases hv with ⟨f, x, c, hc, rfl⟩ | hv
      · rcases f with _ | _ | _ | f
        · exact .inr (Interpreter.native_of_lookup hc)
        · rw [Scopes.find?_eq, show w.scopes.bindings 1 = [("y", ⟨.nil, true⟩)] from rfl,
            Scopes.lookup_cons_eq] at hc
          split at hc
          · cases hc
            exact .inl rfl
          · cases hc
        · cases hc
        · cases hc
      · exact .inl (List.mem_singleton.mp hv)
    | item _ _ ih => obtain heq | ⟨n, heq⟩ := ih <;> cases heq
  have hnone : AssignsNoGlobal (Block.hazards g.body) := by
    intro x hx
    cases hx
  have hcode : ∀ g' : Function,
      w.host.heap.LeadsTo (fun v => w.Binds v ∨ v ∈ [.nil]) (.function g') →
        AssignsNoGlobal (Block.hazards g'.body) := by
    intro g' hg'
    obtain heq | ⟨n, heq⟩ := hvalues _ hg' <;> cases heq
  have hlocal := (frames_isolated w 2 10 20 .top 1 (by decide)).1 (by decide) hglobal
  have hcall := (frames_isolated w 2 10 20 .top 0 (by decide)).2 g [.nil] s
  refine ⟨⟨by decide, by decide, hglobal, hlocal.2 loop, by decide +kernel⟩, hnone, hcode, ?_⟩
  exact hcall.2 hnone hcode

end Scriptlet
