import Scriptlet.Proofs.Constants

/-!
What evaluation in a frame can reach.

From a frame one reads the names of that frame and of those around it, and from there the items of
arrays, and theirs (`Heap.LeadsTo`). Nothing else of the heap is touched: a buffer out of reach keeps its
contents and stays out of reach (`heap_confined`), however evaluation ends. A buffer that a caller holds
only in the middle of an expression is such a one.

The territory of the run (`World.territory`) is what can be reached at the start, with the frames
that may be read and written. It is kept by evaluation, so all there is to see is that it is kept at
the start (`World.territory_kept`) and what it means at the end (`Territory.HeapKept.holds_of_leadsTo`).
-/
namespace Scriptlet

/-! ### Values within reach -/

namespace Heap

/-- The values that `roots` lead to: these, and the items of the arrays that they lead to. -/
inductive LeadsTo (h : Heap) (roots : Value → Prop) : Value → Prop
  | root {v : Value} (hv : roots v) : LeadsTo h roots v
  | item {r : ArrayRef} {v : Value} (hr : LeadsTo h roots (.array r))
    (hv : v ∈ (h.items r).toList) : LeadsTo h roots v

theorem leadsTo_or {h : Heap} {P Q : Value → Prop} {v : Value}
    (hv : h.LeadsTo (fun x => P x ∨ Q x) v) : h.LeadsTo P v ∨ h.LeadsTo Q v := by
  induction hv with
  | root hv => exact hv.imp .root .root
  | item _ hv ih => exact ih.imp (.item · hv) (.item · hv)

theorem not_leadsTo_of_empty {h : Heap} {roots : Value → Prop} (hroots : ∀ v, ¬ roots v)
    {v : Value} : ¬ h.LeadsTo roots v := by
  intro hv
  induction hv with
  | root hv => exact hroots _ hv
  | item _ _ ih => exact ih

/-- A text or an array that is there. -/
def IsBuffer (h : Heap) : Value → Prop
  | .text r => r.index < h.texts.size
  | .array r => r.index < h.arrays.size
  | _ => False

/-- A text or an array has the same contents in two heaps. -/
def SameContents (h k : Heap) : Value → Prop
  | .text r => h.text r = k.text r
  | .array r => h.items r = k.items r
  | _ => True

end Heap

namespace World

/-- The values that names are bound to in any frame. -/
def Binds (w : World) (v : Value) : Prop :=
  ∃ f x b, w.scopes.find? f x = some b ∧ b.value = v

/-- The values that names are bound to in a frame and in the frames around it. -/
def Visible (w : World) (env : FrameId) (v : Value) : Prop :=
  ∃ f x b, f ∈ w.scopes.chain env ∧ w.scopes.find? f x = some b ∧ b.value = v

/-! ### The territory of what is within reach -/

/-- What `roots` lead to, with frames that may be read and written and code that may run. -/
def territory (w : World) (reads writes : FrameId → Prop) (roots : Value → Prop)
    (permits : Hazard → Prop) : Territory where
  start := w
  Reads f := reads f ∨ w.scopes.frames.size ≤ f
  Writes f := writes f ∨ w.scopes.frames.size ≤ f
  Texts r := w.host.heap.LeadsTo roots (.text r) ∨ w.host.heap.texts.size ≤ r.index
  Arrays r := w.host.heap.LeadsTo roots (.array r) ∨ w.host.heap.arrays.size ≤ r.index
  Permits := permits
  reads_new _ := .inr
  writes_new _ := .inr
  texts_new _ := .inr
  arrays_new _ := .inr

variable {w : World} {reads writes : FrameId → Prop} {roots : Value → Prop}
  {permits : Hazard → Prop}

/-- What the roots lead to belongs to the territory, if the functions among it are permitted. -/
theorem territory_holds {v : Value}
    (hcode : ∀ f, w.host.heap.LeadsTo roots (.function f) →
      ∀ h ∈ Block.hazards f.body, permits h)
    (hv : w.host.heap.LeadsTo roots v) :
    (w.territory reads writes roots permits).Holds v := by
  cases v with
  | text r => exact .inl hv
  | array r => exact .inl hv
  | function f => exact hcode f hv
  | _ => trivial

theorem territory_kept
    (hcode : ∀ f, w.host.heap.LeadsTo roots (.function f) →
      ∀ h ∈ Block.hazards f.body, permits h)
    (hroots : ∀ f, reads f → ∀ x b, w.scopes.find? f x = some b → roots b.value) :
    (w.territory reads writes roots permits).Kept w.scopes.shape w := by
  refine ⟨⟨rfl, ?_, fun _ _ => rfl, fun _ _ _ hv _ => hv⟩,
    ⟨Nat.le_refl _, Nat.le_refl _, ?_, fun _ _ => rfl, fun _ _ => rfl⟩⟩
  · rintro f (hf | hf) x b hb
    · exact territory_holds hcode (.root (hroots f hf x b hb))
    · -- a frame that is not there binds nothing
      have hlt := Scopes.lt_of_find? hb
      rw [Scopes.length_shape] at hlt
      exact absurd hf (Nat.not_le.mpr hlt)
  · rintro r (hr | hr) v hv
    · exact territory_holds hcode (.item hr hv)
    · rw [Heap.items_of_le w.host.heap hr] at hv
      cases hv

/-- A frame that is read, and from which only such frames are seen, sees the territory. -/
theorem territory_sees {env : FrameId} (henv : reads env)
    (houter : ∀ f, reads f → ∀ g ∈ w.scopes.outer f, reads g)
    (hglobal : ∀ x, permits (.global x) → writes (w.scopes.global env)) :
    (w.territory reads writes roots permits).Sees w.scopes.shape env where
  le := Nat.le_of_eq (Scopes.length_shape _).symm
  outer := by
    rintro f (hf | hf) g hg
    · rw [← Scopes.outer_eq] at hg
      exact .inl (houter f hf g hg)
    · have hlen : w.scopes.shape.length ≤ f := by rwa [Scopes.length_shape]
      rw [List.getD_eq_default _ _ hlen] at hg
      cases hg
  reads := .inl henv
  global x hx := by
    have hwrites := hglobal x hx
    rw [Scopes.global_eq, Scopes.outer_eq] at hwrites
    exact .inl hwrites

/-- An old buffer that the roots do not lead to is outside. -/
theorem territory_not_holds {b : Value} (hb : w.host.heap.IsBuffer b)
    (hout : ¬ w.host.heap.LeadsTo roots b) :
    ¬ (w.territory reads writes roots permits).Holds b := by
  cases b with
  | text r =>
    rintro (hr | hr)
    · exact hout hr
    · exact absurd hr (Nat.not_le.mpr hb)
  | array r =>
    rintro (hr | hr)
    · exact hout hr
    · exact absurd hr (Nat.not_le.mpr hb)
  | _ => exact hb.elim

end World

/-- What roots inside a territory lead to is inside. -/
theorem Territory.HeapKept.holds_of_leadsTo {T : Territory} {h : Heap} (hh : T.HeapKept h)
    {roots : Value → Prop} (hroots : ∀ v, roots v → T.Holds v) {v : Value}
    (hv : h.LeadsTo roots v) : T.Holds v := by
  induction hv with
  | root hv => exact hroots _ hv
  | item _ hv ih => exact hh.items _ ih _ hv

/-! ### Heap confinement -/

/-- An action started in `w` leaves a buffer alone: its contents are the same afterwards, and neither
the frames around `env` lead to it then, nor do the values that are given out. -/
structure Run.LeavesAlone {α : Type} (act : Run α) (Gives : α → Value → Prop) (w : World)
    (env : FrameId) (b : Value) : Prop where
  contents : (act.worldAfter w).host.heap.SameContents w.host.heap b
  frames : ¬ (act.worldAfter w).host.heap.LeadsTo ((act.worldAfter w).Visible env) b
  result : ∀ a u, act w = .ok a u → ¬ u.host.heap.LeadsTo (Gives a) b

namespace World

/-- What evaluation in a frame can reach, and a call from it with these arguments. All code may run
there, and any frame may be written. -/
def within (w : World) (env : FrameId) (args : List Value) : Territory :=
  w.territory (· ∈ w.scopes.chain env) (fun _ => True) (fun v => w.Visible env v ∨ v ∈ args)
    fun _ => True

theorem within_homes (w : World) (env : FrameId) (args : List Value) :
    (w.within env args).Homes w.scopes.shape env where
  sees := territory_sees (w.scopes.mem_chain_self env) (fun _ hf _ hg => Scopes.mem_chain_of_outer hf hg)
    fun _ _ => trivial
  writes := .inl trivial

theorem within_holdsAll (w : World) (env : FrameId) (args : List Value) :
    (w.within env args).HoldsAll args :=
  fun _ hv => territory_holds (fun _ _ _ _ => trivial) (.root (.inr hv))

/-- An action that keeps what is within reach leaves a buffer out of reach alone. -/
theorem leavesAlone_of_keeps {w : World} {env : FrameId} {args : List Value} {b : Value}
    (hb : w.host.heap.IsBuffer b) (hframes : ¬ w.host.heap.LeadsTo (w.Visible env) b)
    (hargs : ¬ w.host.heap.LeadsTo (· ∈ args) b) {α : Type} {Q : α → Prop} {act : Run α}
    (hact : (w.within env args).RunKeeps w.scopes.shape Q act) {Gives : α → Value → Prop}
    (hgives : ∀ a, Q a → ∀ v, Gives a v → (w.within env args).Holds v) :
    act.LeavesAlone Gives w env b := by
  have hstart : (w.within env args).Kept w.scopes.shape w :=
    territory_kept (fun _ _ _ _ => trivial) fun f hf x b hb => .inl ⟨f, x, b, hf, hb, rfl⟩
  have hkept := hact.worldAfter hstart
  have houtside : ¬ (w.within env args).Holds b :=
    territory_not_holds hb fun h => (Heap.leadsTo_or h).elim hframes hargs
  refine ⟨?_, fun hlead => houtside ?_, fun a u ha hlead => houtside ?_⟩
  · cases b with
    | text r => exact hkept.heap.text_eq r houtside
    | array r => exact hkept.heap.items_eq r houtside
    | _ => trivial
  · refine hkept.heap.holds_of_leadsTo ?_ hlead
    rintro v ⟨f, x, c, hf, hc, rfl⟩
    rw [Scopes.chain_eq, hkept.scopes.shape_eq, ← Scopes.chain_eq] at hf
    exact hkept.scopes.find? f (.inl hf) x c hc
  · have hends := hact w hstart
    rw [ha] at hends
    cases hends with
    | ok hq hu => exact hu.heap.holds_of_leadsTo (hgives a hq) hlead

end World

/-- **What is out of reach stays as it is, and out of reach.** A buffer to which no binding of the
frames around `env` leads has the same contents after an expression or a statement has been
evaluated in `env`, well or not. Neither the value or the signal of the evaluation leads to it, nor
do those frames afterwards. The same holds of a call from `env`, if its arguments do not lead to the
buffer: a callee neither sees nor changes what its caller holds in the middle of an expression. -/
theorem heap_confined (w : World) (env : FrameId) (b : Value) (hb : w.host.heap.IsBuffer b)
    (hout : ¬ w.host.heap.LeadsTo (w.Visible env) b) (limit fuel : Nat) (depth : Depth) :
    (∀ e : Expr FunctionId,
      (eval limit fuel env depth e).LeavesAlone (fun v x => x = v) w env b) ∧
    (∀ s : Stmt FunctionId,
      (exec limit fuel env depth s).LeavesAlone (fun signal x => signal = .return x) w env b) ∧
    ∀ (f : Function) (args : List Value) (span : Span), ¬ w.host.heap.LeadsTo (· ∈ args) b →
      (call limit fuel env depth f args span).LeavesAlone (fun v x => x = v) w env b := by
  have hconfined : ∀ args, ConfinedAt (w.within env args) (Task.run limit fuel) :=
    fun args => evaluation_confined _ limit fuel
  have hnone : ¬ w.host.heap.LeadsTo (· ∈ []) b := Heap.not_leadsTo_of_empty nofun
  refine ⟨fun e => ?_, fun s => ?_, fun f args span hargs => ?_⟩
  · have hact := (hconfined []).eval (e := e) depth (w.within_homes env []) fun _ _ => trivial
    refine World.leavesAlone_of_keeps hb hout hnone hact ?_
    rintro v hv _ rfl
    exact hv
  · have hact := (hconfined []).exec (s := s) depth (w.within_homes env []) fun _ _ => trivial
    refine World.leavesAlone_of_keeps hb hout hnone hact ?_
    rintro _ hv v rfl
    exact hv
  · have hact := (hconfined args).call (f := f) depth span (w.within_homes env args).sees
      (fun _ _ => trivial) (w.within_holdsAll env args)
    refine World.leavesAlone_of_keeps hb hout hargs hact ?_
    rintro v hv _ rfl
    exact hv

/-- In the frame of a call, `xs` is an array that is put into itself. The array with a text in it that
the caller holds meanwhile is left alone, and so is the text. -/
theorem heap_confined_append :
    let s : Span := ⟨0, 0⟩
    let w : World := ⟨((Scopes.start Interpreter.nativeBindings).child 0).2.add 1 "xs" ⟨.array ⟨1⟩, true⟩,
      ⟨⟨#[.ofList ['a']], #[.ofList [.text ⟨0⟩], .empty]⟩, .ofInput []⟩⟩
    let e : Expr FunctionId :=
      .call s (.name s false "append") [.name s false "xs", .name s false "xs"]
    let act := eval 10 10 1 .top e
    (((act.worldAfter w).host.heap.items ⟨1⟩).size = 1) ∧
    ∀ b ∈ [Value.array ⟨0⟩, .text ⟨0⟩], w.host.heap.IsBuffer b ∧
      ¬ w.host.heap.LeadsTo (w.Visible 1) b ∧ act.LeavesAlone (fun v x => x = v) w 1 b := by
  intro s w e act
  have hchain : w.scopes.chain 1 = [1, 0] := by
    rw [Scopes.chain_of_some (p := 0) rfl, Scopes.chain_of_none rfl]
  have hreach : ∀ v, w.host.heap.LeadsTo (w.Visible 1) v →
      v = .array ⟨1⟩ ∨ ∃ n, v = .native n := by
    intro v hv
    induction hv with
    | root hv =>
      obtain ⟨f, x, c, hf, hc, rfl⟩ := hv
      rw [hchain] at hf
      rcases List.mem_cons.mp hf with rfl | hf
      · rw [Scopes.find?_eq, show w.scopes.bindings 1 = [("xs", ⟨.array ⟨1⟩, true⟩)] from rfl,
          Scopes.lookup_cons_eq] at hc
        split at hc
        · cases hc
          exact .inl rfl
        · cases hc
      · obtain rfl := List.mem_singleton.mp hf
        exact .inr (Interpreter.native_of_lookup hc)
    | item _ hv ih =>
      rcases ih with heq | ⟨n, heq⟩
      · cases heq
        cases hv
      · cases heq
  have hbuffers : ∀ b ∈ [Value.array ⟨0⟩, .text ⟨0⟩],
      w.host.heap.IsBuffer b ∧ ¬ w.host.heap.LeadsTo (w.Visible 1) b := by
    intro b hb
    simp only [List.mem_cons, List.not_mem_nil, or_false] at hb
    rcases hb with rfl | rfl
    · refine ⟨Nat.zero_lt_two, fun h => ?_⟩
      obtain heq | ⟨n, heq⟩ := hreach _ h <;> cases heq
    · refine ⟨Nat.one_pos, fun h => ?_⟩
      obtain heq | ⟨n, heq⟩ := hreach _ h <;> cases heq
  refine ⟨by decide +kernel, fun b hb => ?_⟩
  obtain ⟨hbuffer, hout⟩ := hbuffers b hb
  exact ⟨hbuffer, hout, (heap_confined w 1 b hbuffer hout 10 10 .top).1 e⟩

end Scriptlet
