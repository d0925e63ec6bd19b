import Scriptlet.Eval.Operations
import Scriptlet.Proofs.Natives

/-!
The actions of evaluation in corresponding worlds.

Every action that evaluation is made of, from reading a name to assigning an element, matches itself
on corresponding values and places (`Correspondence.readName_rel` to `Correspondence.rangeCounter_rel`).
Each leaves the shape of the frames as it is, and raises only faults that are allowed: the one fault
of a misplaced construct among them, `global` in the global frame, is left to the caller of
`Correspondence.targetFrame_rel`.
-/
namespace Scriptlet.Correspondence

variable {K : Correspondence} {shape : List (List FrameId)}

/-! ### Faults -/

theorem fault_rel {α β : Type} {Q : α → β → Prop} {c : Fault.Cause} {a b : Span}
    (hc : K.Allows c) (hs : K.Spans a b) :
    K.Runs shape Q (Run.fault c a) (Run.fault c b) :=
  .throw (.fault hc hs)

/-- A fault of something that is where it belongs. -/
theorem ordinary_rel {α β : Type} {Q : α → β → Prop} {c d : Fault.Cause} {a b : Span}
    (hcd : c = d) (hc : ¬ c.IsMisplaced) (hs : K.Spans a b) :
    K.Runs shape Q (Run.fault c a) (Run.fault d b) := by
  subst hcd
  exact fault_rel (K.allows_of_placed hc) hs

theorem outOfFuel_rel {α β : Type} {Q : α → β → Prop} :
    K.Runs shape Q (throw .outOfFuel : Run α) (throw .outOfFuel : Run β) :=
  .throw .outOfFuel

/-! ### The heap -/

theorem heap_rel : K.Runs shape K.Heaps Run.heap Run.heap :=
  Simulates.get.bind fun _ _ hw => .pure hw.host.heap

theorem runNewText_rel (b : Buffer Char) :
    K.Runs shape K.Values (Run.newText b) (Run.newText b) := by
  refine .modifyGet fun w v hw => ⟨?_, ⟨hw.scopes, ⟨hw.host.heap.newText b, hw.host.console⟩⟩⟩
  show K.Values (.text (w.host.heap.newText b).1) (.text (v.host.heap.newText b).1)
  rw [hw.host.heap.newText_ref]
  exact .text _

theorem runNewArray_rel {b c : Buffer Value} (hb : K.Lists b.toList c.toList) :
    K.Runs shape K.Values (Run.newArray b) (Run.newArray c) := by
  refine .modifyGet fun w v hw => ⟨?_, ⟨hw.scopes, ⟨hw.host.heap.newArray hb, hw.host.console⟩⟩⟩
  show K.Values (.array (w.host.heap.newArray b).1) (.array (v.host.heap.newArray c).1)
  rw [hw.host.heap.newArray_ref b c]
  exact .array _

theorem setChar_rel (r : TextRef) (i : Nat) (c : Char) :
    K.Runs shape Eq (Run.setChar (K.textRef r) i c) (Run.setChar r i c) :=
  .modify fun _ _ hw => ⟨hw.scopes, ⟨hw.host.heap.modifyText r _, hw.host.console⟩⟩

theorem set?_rel {b c : Buffer Value} (hb : K.Lists b.toList c.toList) (i : Nat) {v w : Value}
    (hv : K.Values v w) :
    K.Lists ((b.set? i v).getD b).toList ((c.set? i w).getD c).toList := by
  have key : ∀ (d : Buffer Value) (x : Value),
      ((d.set? i x).getD d).toList = d.toList.set i x := by
    intro d x
    by_cases hi : i < d.items.size
    · simp [Buffer.set?, Buffer.toList, hi]
    · rw [Buffer.set?, dif_neg hi, Option.getD_none, List.set_eq_of_length_le]
      exact Nat.le_of_not_lt hi
  rw [key, key]
  clear key
  generalize b.toList = xs at hb ⊢
  generalize c.toList = ys at hb ⊢
  induction hb generalizing i with
  | nil => exact .nil
  | cons hx hxs ih =>
    cases i with
    | zero => exact .cons hv hxs
    | succ i => exact .cons hx (ih i)

theorem setItem_rel (r : ArrayRef) (i : Nat) {v w : Value} (hv : K.Values v w) :
    K.Runs shape Eq (Run.setItem (K.arrayRef r) i v) (Run.setItem r i w) :=
  .modify fun _ _ hw =>
    ⟨hw.scopes, ⟨hw.host.heap.modifyArray r fun _ _ hb => set?_rel hb i hv, hw.host.console⟩⟩

theorem native_rel (n : Native) {vs ws : List Value} {a b : Span} (hv : K.Lists vs ws)
    (hs : K.Spans a b) : K.Runs shape K.Values (Run.native n vs a) (Run.native n ws b) := by
  rintro ⟨scopes, host⟩ ⟨scopes', host'⟩ hw
  have h := call_native n hv host host' hw.host
  simp only [Run.native]
  generalize n.call vs host = r at h ⊢
  generalize n.call ws host' = r' at h ⊢
  cases h with
  | ok hv hh => exact .ok hv ⟨hw.scopes, hh⟩
  | error he hh =>
    subst he
    exact .error (.fault (K.allows_of_placed id) hs) ⟨hw.scopes, hh⟩

/-! ### Names -/

theorem scopes_rel : K.Runs shape (K.Frames shape) Run.scopes Run.scopes :=
  Simulates.get.bind fun _ _ hw => .pure hw.scopes

theorem modifyScopes_rel {f g : Scopes → Scopes}
    (h : ∀ s t, K.Frames shape s t → K.Frames shape (f s) (g t)) :
    K.Runs shape Eq (Run.modifyScopes f) (Run.modifyScopes g) :=
  .modify fun _ _ hw => ⟨h _ _ hw.scopes, hw.host⟩

theorem unbound_rel {α β : Type} {Q : α → β → Prop} (env : FrameId) (x : String) {a b : Span}
    (hs : K.Spans a b) :
    K.Runs shape Q (Run.unbound env x a) (Run.unbound env x b) := by
  refine scopes_rel.bind fun s t hst => ?_
  rw [visibleNames_eq hst]
  exact ordinary_rel rfl id hs

/-- Outside the global frame `global` finds its frame; inside, its fault has to be allowed. -/
theorem targetFrame_rel (env : FrameId) (global : Bool) (x : String) {a b : Span}
    (hg : global = true → shape.getD env [] = [] → K.Allows (.globalScope x))
    (hs : K.Spans a b) :
    K.Runs shape Eq (Run.targetFrame env global x a) (Run.targetFrame env global x b) := by
  refine scopes_rel.bind fun s t hst => ?_
  rw [hst.target?_eq]
  unfold Scopes.target?
  split
  · rename_i frame _
    exact .pure rfl
  · rename_i h
    refine fault_rel (hg ?_ ?_) hs
    · cases global with
      | true => rfl
      | false => simp at h
    · rw [Scopes.isGlobal_eq, hst.right] at h
      cases hsh : shape.getD env [] with
      | nil => rfl
      | cons _ _ =>
        rw [hsh] at h
        cases global <;> simp at h

theorem readName_rel (env : FrameId) (global : Bool) (x : String) {a b : Span}
    (hg : global = true → shape.getD env [] = [] → K.Allows (.globalScope x))
    (hs : K.Spans a b) :
    K.Runs shape K.Values (Run.readName env global x a) (Run.readName env global x b) := by
  refine (targetFrame_rel env global x hg hs).bind ?_
  rintro frame _ rfl
  refine scopes_rel.bind fun s t hst => ?_
  have h := lookup?_rel hst frame x
  generalize s.lookup? frame x = c at h ⊢
  generalize t.lookup? frame x = d at h ⊢
  cases h with
  | some h => exact .pure h.2
  | none => exact unbound_rel frame x hs

theorem assign_rel (env : FrameId) (global constant : Bool) (x : String) {v w : Value} {a b : Span}
    (hg : global = true → shape.getD env [] = [] → K.Allows (.globalScope x))
    (hv : K.Values v w) (hs : K.Spans a b) :
    K.Runs shape K.Values (Run.assign env global constant x v a)
      (Run.assign env global constant x w b) := by
  refine (targetFrame_rel env global x hg hs).bind ?_
  rintro frame _ rfl
  refine scopes_rel.bind fun s t hst => ?_
  have hb : K.Bindings (x, ⟨v, !constant⟩) (x, ⟨w, !constant⟩) := ⟨rfl, rfl, hv⟩
  have h := find?_rel hst frame x
  generalize s.find? frame x = c at h ⊢
  generalize t.find? frame x = d at h ⊢
  cases h with
  | none =>
    exact (modifyScopes_rel fun _ _ hst => hst.add frame hb).bind fun _ _ _ => .pure hv
  | some h =>
    rw [Option.map_some, Option.map_some, h.1]
    split
    · rename_i hn
      exact absurd hn (by simp)
    · exact (modifyScopes_rel fun _ _ hst => hst.replace frame hb).bind fun _ _ _ => .pure hv
    · exact Simulates.bind (Q := Eq) (ordinary_rel rfl id hs) fun _ _ _ => .pure hv

/-! ### Operators -/

theorem binary_rel (op : BinaryOp) {v v' w w' : Value} {a b : Span} (hv : K.Values v v')
    (hw : K.Values w w') (hs : K.Spans a b) :
    K.Runs shape K.Values (Run.binary op v w a) (Run.binary op v' w' b) := by
  have hcause : Fault.Cause.operands op v.kind w.kind = .operands op v'.kind w'.kind := by
    rw [hv.kind_eq, hw.kind_eq]
  cases op with
  | eq =>
    refine heap_rel.bind fun h k hk => .pure ?_
    rw [equal_eq hk hv hw]
    exact .bool _
  | ne =>
    refine heap_rel.bind fun h k hk => .pure ?_
    rw [equal_eq hk hv hw]
    exact .bool _
  | add =>
    cases hv with
    | text r =>
      cases hw with
      | text s =>
        refine heap_rel.bind fun h k hk => ?_
        rw [hk.text_eq, hk.text_eq]
        exact runNewText_rel _
      | _ => exact ordinary_rel rfl id hs
    | array r =>
      cases hw with
      | array s =>
        exact heap_rel.bind fun h k hk => runNewArray_rel (append_rel (hk.items r) (hk.items s))
      | _ => exact ordinary_rel rfl id hs
    | float x =>
      cases hw with
      | float y => exact .pure (.float _)
      | _ => exact ordinary_rel rfl id hs
    | _ => exact ordinary_rel hcause id hs
  | sub | mul | div | mod =>
    cases hv with
    | float x =>
      cases hw with
      | float y => exact .pure (.float _)
      | _ => exact ordinary_rel rfl id hs
    | _ => exact ordinary_rel hcause id hs
  | lt | le | gt | ge =>
    cases hv with
    | float x =>
      cases hw with
      | float y => exact .pure (.bool _)
      | _ => exact ordinary_rel rfl id hs
    | _ => exact ordinary_rel hcause id hs
  | and | or =>
    cases hv with
    | float x =>
      cases hw with
      | _ => exact ordinary_rel rfl id hs
    | _ => exact ordinary_rel hcause id hs

theorem unary_rel (op : UnaryOp) {v w : Value} {a b : Span} (hv : K.Values v w)
    (hs : K.Spans a b) : K.Runs shape K.Values (Run.unary op v a) (Run.unary op w b) := by
  cases op with
  | not =>
    rw [Run.unary, Run.unary, hv.truthy_eq]
    exact .pure (.bool _)
  | typeOf =>
    rw [Run.unary, Run.unary, hv.kind_eq]
    exact runNewText_rel _
  | stringify =>
    refine heap_rel.bind fun h k hk => ?_
    rw [render_eq hk hv]
    exact runNewText_rel _
  | neg =>
    cases hv with
    | float x => exact .pure (.float _)
    | _ => exact ordinary_rel rfl id hs
  | pos =>
    cases hv with
    | float x => exact .pure (.float x)
    | _ => exact ordinary_rel rfl id hs

/-! ### Subscripts -/

theorem runPosition_rel {v w : Value} {a b : Span} (hv : K.Values v w) (hs : K.Spans a b) :
    K.Runs shape Eq (Run.position v a) (Run.position w b) := by
  rw [Run.position, Run.position, hv.toIndex?_eq, hv.toFloat?_eq, hv.describe_eq]
  split
  · exact .pure rfl
  · split
    · exact .pure rfl
    · exact ordinary_rel rfl id hs

theorem sliceStop_rel {v w : Value} (length : Nat) {a b : Span} (hv : K.Values v w)
    (hs : K.Spans a b) :
    K.Runs shape Eq (Run.sliceStop v length a) (Run.sliceStop w length b) := by
  rw [Run.sliceStop, Run.sliceStop, hv.toFloat?_eq]
  split
  · exact .pure rfl
  · exact runPosition_rel hv hs

theorem index_rel {v v' i i' : Value} {a b : Span} (hv : K.Values v v') (hi : K.Values i i')
    (hs : K.Spans a b) : K.Runs shape K.Values (Run.index v i a) (Run.index v' i' b) := by
  cases hv with
  | array r =>
    refine (runPosition_rel hi hs).bind ?_
    rintro i _ rfl
    refine heap_rel.bind fun h k hk => ?_
    have hget := get?_rel (hk.items r) i
    dsimp only
    rw [hk.items_size r]
    generalize (h.items (K.arrayRef r)).get? i = x at hget ⊢
    generalize (k.items r).get? i = y at hget ⊢
    cases hget with
    | some hx => exact .pure hx
    | none => exact ordinary_rel rfl id hs
  | text r =>
    refine (runPosition_rel hi hs).bind ?_
    rintro i _ rfl
    refine heap_rel.bind fun h k hk => ?_
    rw [hk.text_eq]
    dsimp only
    split
    · exact runNewText_rel _
    · exact ordinary_rel rfl id hs
  | _ => exact ordinary_rel rfl id hs

theorem slice?_rel {b c : Buffer Value} (hb : K.Lists b.toList c.toList) (i j : Nat) :
    Option.Rel (fun b c : Buffer Value => K.Lists b.toList c.toList) (b.slice? i j)
      (c.slice? i j) := by
  have hs : b.size = c.size := hb.length_eq
  have key : ∀ d : Buffer Value, (⟨d.items.extract i j⟩ : Buffer Value).toList =
      (d.toList.take j).drop i := by
    intro d
    simp [Buffer.toList, List.drop_take]
  rw [Buffer.slice?, Buffer.slice?, hs]
  split
  · refine .some ?_
    rw [key, key]
    exact List.forall₂_drop i (List.forall₂_take j hb)
  · exact .none

theorem slice_rel {v v' i i' j j' : Value} {a b : Span} (hv : K.Values v v')
    (hi : K.Values i i') (hj : K.Values j j') (hs : K.Spans a b) :
    K.Runs shape K.Values (Run.slice v i j a) (Run.slice v' i' j' b) := by
  cases hv with
  | array r =>
    refine heap_rel.bind fun h k hk => ?_
    refine (runPosition_rel hi hs).bind ?_
    rintro start _ rfl
    rw [hk.items_size r]
    refine (sliceStop_rel _ hj hs).bind ?_
    rintro stop _ rfl
    have hpart := slice?_rel (hk.items r) start stop
    generalize (h.items (K.arrayRef r)).slice? start stop = x at hpart ⊢
    generalize (k.items r).slice? start stop = y at hpart ⊢
    cases hpart with
    | some hx => exact runNewArray_rel hx
    | none => exact ordinary_rel rfl id hs
  | text r =>
    refine heap_rel.bind fun h k hk => ?_
    rw [hk.text_eq]
    refine (runPosition_rel hi hs).bind ?_
    rintro start _ rfl
    refine (sliceStop_rel _ hj hs).bind ?_
    rintro stop _ rfl
    split
    · exact runNewText_rel _
    · exact ordinary_rel rfl id hs
  | _ => exact ordinary_rel rfl id hs

theorem character?_eq {h k : Heap} (hk : K.Heaps h k) {v w : Value} (hv : K.Values v w) :
    Run.character? h v = Run.character? k w := by
  cases hv with
  | text r => rw [Run.character?, Run.character?, hk.text_eq]
  | _ => rfl

theorem assignElement_rel (env : FrameId) (global : Bool) (x : String) {i i' v v' : Value}
    {a b : Span} (hg : global = true → shape.getD env [] = [] → K.Allows (.globalScope x))
    (hi : K.Values i i') (hv : K.Values v v') (hs : K.Spans a b) :
    K.Runs shape K.Values (Run.assignElement env global x i v a)
      (Run.assignElement env global x i' v' b) := by
  refine (targetFrame_rel env global x hg hs).bind ?_
  rintro frame _ rfl
  refine scopes_rel.bind fun s t hst => ?_
  have hfound := find?_rel hst frame x
  generalize s.find? frame x = c at hfound ⊢
  generalize t.find? frame x = d at hfound ⊢
  cases hfound with
  | none => exact unbound_rel frame x hs
  | @some c d hfound =>
    obtain ⟨_, hval⟩ := hfound
    obtain ⟨cv, cm⟩ := c
    obtain ⟨dv, dm⟩ := d
    cases hval with
    | array r =>
      refine (runPosition_rel hi hs).bind ?_
      rintro i _ rfl
      refine heap_rel.bind fun h k hk => ?_
      rw [hk.items_size r]
      dsimp only
      split
      · exact (setItem_rel r i hv).bind fun _ _ _ => .pure hv
      · exact Simulates.bind (Q := Eq) (ordinary_rel rfl id hs) fun _ _ _ => .pure hv
    | text r =>
      refine (runPosition_rel hi hs).bind ?_
      rintro i _ rfl
      refine heap_rel.bind fun h k hk => ?_
      rw [character?_eq hk hv, hv.describe_eq]
      split
      · exact ordinary_rel rfl id hs
      · refine heap_rel.bind fun h k hk => ?_
        rw [hk.text_eq]
        dsimp only
        split
        · exact (setChar_rel r i _).bind fun _ _ _ => .pure hv
        · exact Simulates.bind (Q := Eq) (ordinary_rel rfl id hs) fun _ _ _ => .pure hv
    | _ => exact ordinary_rel rfl id hs

/-! ### Range loops -/

theorem rangeBound_rel {v w : Value} {a b : Span} (hv : K.Values v w) (hs : K.Spans a b) :
    K.Runs shape Eq (Run.rangeBound v a) (Run.rangeBound w b) := by
  cases hv with
  | float x =>
    rw [Run.rangeBound, Run.rangeBound]
    split
    · exact .pure rfl
    · exact ordinary_rel rfl id hs
  | _ => exact ordinary_rel rfl id hs

theorem rangeStep_rel {cmp cmp' : Located BinaryOp} (hop : cmp.val = cmp'.val) (first last : Float)
    {a b : Span} (hcmp : K.Spans cmp.span cmp'.span) (hs : K.Spans a b) :
    K.Runs shape Eq (Run.rangeStep cmp first last a) (Run.rangeStep cmp' first last b) := by
  rw [Run.rangeStep, Run.rangeStep, hop]
  cases cmp'.val with
  | lt | le =>
    dsimp only
    split
    · exact ordinary_rel rfl id hs
    · exact .pure rfl
  | gt | ge =>
    dsimp only
    split
    · exact ordinary_rel rfl id hs
    · exact .pure rfl
  | _ => exact ordinary_rel rfl id hcmp

theorem rangeCounter_rel (env : FrameId) {x y : Located String} (hx : x.val = y.val)
    (hs : K.Spans x.span y.span) :
    K.Runs shape Eq (Run.rangeCounter env x) (Run.rangeCounter env y) := by
  refine scopes_rel.bind fun s t hst => ?_
  rw [hx]
  have hfound := find?_rel hst env y.val
  generalize s.find? env y.val = c at hfound ⊢
  generalize t.find? env y.val = d at hfound ⊢
  cases hfound with
  | none => exact unbound_rel env y.val hs
  | @some c d hfound =>
    obtain ⟨_, hval⟩ := hfound
    obtain ⟨cv, cm⟩ := c
    obtain ⟨dv, dm⟩ := d
    cases hval with
    | float i => exact .pure rfl
    | _ => exact ordinary_rel rfl id hs

/-! ### Calls -/

theorem ensuring_rel {α β : Type} {Q : α → β → Prop} {a : Run α} {b : Run β} {f g : World → World}
    {inner : List (List FrameId)} (hab : K.Runs inner Q a b)
    (hfg : ∀ w v, K.Worlds inner w v → K.Worlds shape (f w) (g v)) {w v : World}
    (hw : K.Worlds inner w v) :
    Matches (K.Worlds shape) K.Stops Q (Run.ensuring a f w) (Run.ensuring b g v) := by
  have h := hab w v hw
  unfold Run.ensuring
  generalize a w = r at h ⊢
  generalize b v = r' at h ⊢
  cases h with
  | ok hq hs => exact .ok hq (hfg _ _ hs)
  | error he hs => exact .error he (hfg _ _ hs)

theorem bindArguments_rel {xs : List String} {vs ws : List Value} (hv : K.Lists vs ws)
    (frame : FrameId) {s t : Scopes} (hst : K.Frames shape s t) :
    K.Frames shape
      ((xs.zip vs).foldl (fun s p => s.add frame p.1 ⟨p.2, true⟩) s)
      ((xs.zip ws).foldl (fun s p => s.add frame p.1 ⟨p.2, true⟩) t) := by
  induction hv generalizing xs s t with
  | nil => simpa using hst
  | cons hv _ ih =>
    cases xs with
    | nil => simpa using hst
    | cons x xs => exact ih (hst.add frame ⟨rfl, rfl, hv⟩)

theorem foldl_params (params : List (Located String)) (vs : List Value) (frame : FrameId)
    (s : Scopes) :
    (params.zip vs).foldl (fun s (p : Located String × Value) => s.add frame p.1.val ⟨p.2, true⟩) s
      = ((params.map (·.val)).zip vs).foldl (fun s p => s.add frame p.1 ⟨p.2, true⟩) s := by
  induction params generalizing vs s with
  | nil => rfl
  | cons x xs ih =>
    cases vs with
    | nil => rfl
    | cons v vs => exact ih vs _

/-- The frame of a call is the last one, and inside the frame of its caller. -/
theorem enterFrame_rel (env : FrameId) {f g : Function} (hfg : K.Functions f g)
    {vs ws : List Value} (hv : K.Lists vs ws) {w v : World} (hw : K.Worlds shape w v) :
    ∃ w' v', Run.enterFrame env f.params vs w = .ok shape.length w' ∧
      Run.enterFrame env g.params ws v = .ok shape.length v' ∧
      K.Worlds (shape ++ [Scopes.around shape env]) w' v' := by
  have hl : (w.scopes.child env).1 = shape.length := by
    rw [← hw.scopes.left, Scopes.length_shape]
    rfl
  have hr : (v.scopes.child env).1 = shape.length := by
    rw [← hw.scopes.right, Scopes.length_shape]
    rfl
  refine ⟨_, _, congrArg₂ EStateM.Result.ok hl rfl, congrArg₂ EStateM.Result.ok hr rfl, ?_, hw.host⟩
  show K.Frames _
    ((f.params.zip vs).foldl
      (fun s p => s.add (w.scopes.child env).1 p.1.val ⟨p.2, true⟩) (w.scopes.child env).2)
    ((g.params.zip ws).foldl
      (fun s p => s.add (v.scopes.child env).1 p.1.val ⟨p.2, true⟩) (v.scopes.child env).2)
  rw [hl, hr, foldl_params, foldl_params, K.params_eq hfg]
  exact bindArguments_rel hv _ (hw.scopes.child env)

theorem leaveFrame_rel {outer : List FrameId} {w v : World} (hshape : 0 < shape.length)
    (hw : K.Worlds (shape ++ [outer]) w v) :
    K.Worlds shape (Run.leaveFrame w) (Run.leaveFrame v) :=
  ⟨hw.scopes.leave hshape, hw.host⟩

/-- The frame of a call is gone when the call ends. -/
theorem frame_rel {α β : Type} {Q : α → β → Prop} (env : FrameId) {f g : Function}
    (hfg : K.Functions f g) {vs ws : List Value} (hv : K.Lists vs ws) {a : FrameId → Run α}
    {b : FrameId → Run β}
    (hab : K.Runs (shape ++ [Scopes.around shape env]) Q (a shape.length) (b shape.length)) :
    K.Runs shape Q (Run.enterFrame env f.params vs >>= fun frame =>
        Run.ensuring (a frame) Run.leaveFrame)
      (Run.enterFrame env g.params ws >>= fun frame =>
        Run.ensuring (b frame) Run.leaveFrame) := by
  intro w v hw
  obtain ⟨w', v', hl, hr, hw'⟩ := enterFrame_rel env hfg hv hw
  show Matches (K.Worlds shape) K.Stops Q (EStateM.bind _ _ w) (EStateM.bind _ _ v)
  rw [EStateM.bind, EStateM.bind, hl, hr]
  exact ensuring_rel hab (fun _ _ => leaveFrame_rel hw.scopes.nonempty) hw'

end Scriptlet.Correspondence
