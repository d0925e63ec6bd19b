import Mathlib.Data.List.GetD
import Scriptlet.Eval.Operations
import Scriptlet.Proofs.Territory

/-!
Natives and operators stay in their territory.

A native reaches the heap only through its arguments, and an operator through its operands. Hence
`Territory.call_keeps`: a native whose arguments belong to a territory keeps it, gives a value that
belongs to it, and so do the operators, subscripts and assignments that evaluation is made of
(`Territory.binary_keeps` to `Territory.rangeCounter_keeps`), whether they succeed or not.

Reads of names need the frames around a frame to belong to the territory too, and a `global` needs
the outermost of them: this is `Territory.Sees`.
-/
namespace Scriptlet.Territory

variable {T : Territory}

/-! ### Buffers -/

theorem HoldsAll.insert? {b c : Buffer Value} (hb : T.HoldsAll b.toList) {i : Nat} {xs : List Value}
    (hx : T.HoldsAll xs) (h : b.insert? i xs = some c) : T.HoldsAll c.toList := by
  rw [Buffer.insert?] at h
  split at h
  · cases h
    rw [Buffer.toList_ofList]
    exact ((hb.of_subset (List.take_subset i _)).append hx).append
      (hb.of_subset (List.drop_subset i _))
  · cases h

theorem HoldsAll.get? {b : Buffer Value} (hb : T.HoldsAll b.toList) {i : Nat} {x : Value}
    (h : b.get? i = some x) : T.Holds x := by
  rw [Buffer.get?_eq_getElem?] at h
  exact hb x (List.mem_of_getElem? h)

theorem HoldsAll.erase? {b : Buffer Value} (hb : T.HoldsAll b.toList) {i : Nat}
    {p : Value × Buffer Value} (h : b.erase? i = some p) :
    T.Holds p.1 ∧ T.HoldsAll p.2.toList := by
  rw [Buffer.erase?] at h
  cases hget : b.get? i with
  | none =>
    rw [hget] at h
    cases h
  | some x =>
    rw [hget] at h
    cases h
    rw [Buffer.toList_ofList]
    exact ⟨hb.get? hget, hb.of_subset (List.eraseIdx_subset)⟩

theorem HoldsAll.slice? {b c : Buffer Value} (hb : T.HoldsAll b.toList) {i j : Nat}
    (h : b.slice? i j = some c) : T.HoldsAll c.toList := by
  have hc : (b.slice? i j).map Buffer.toList = some c.toList := by rw [h, Option.map_some]
  rw [Buffer.toList_slice?] at hc
  split at hc
  · rw [← Option.some.inj hc]
    exact (hb.of_subset (List.take_subset j _)).of_subset (List.drop_subset i _)
  · cases hc

theorem HoldsAll.set? {b : Buffer Value} (hb : T.HoldsAll b.toList) (i : Nat) {v : Value}
    (hv : T.Holds v) : T.HoldsAll ((b.set? i v).getD b).toList := by
  cases hset : b.set? i v with
  | none => exact hb
  | some c =>
    have hc : (b.set? i v).map Buffer.toList = some c.toList := by rw [hset, Option.map_some]
    rw [Buffer.toList_set?] at hc
    split at hc
    · rw [Option.getD_some, ← Option.some.inj hc]
      intro x hx
      rcases List.mem_or_eq_of_mem_set hx with hx | rfl
      · exact hb x hx
      · exact hv
    · cases hc

/-! ### Natives -/

section Natives

open Native NativeAction

variable (T) in
/-- Actions of natives that keep the heap. -/
abbrev NativeKeeps {α : Type} (Q : α → Prop) (a : NativeAction α) : Prop :=
  Keeps (fun host : Host => T.HeapKept host.heap) Q a

theorem text_keeps (r : TextRef) : T.NativeKeeps (fun _ => True) (text r) :=
  Keeps.get.bind fun _ _ => .pure trivial

theorem items_keeps {r : ArrayRef} (hr : T.Arrays r) :
    T.NativeKeeps (fun b => T.HoldsAll b.toList) (items r) :=
  Keeps.get.bind fun _ hh => .pure (hh.items r hr)

theorem newText_keeps (b : Buffer Char) : T.NativeKeeps T.Holds (NativeAction.newText b) :=
  .modifyGet fun _ hh => ⟨hh.holds_newText b, hh.newText b⟩

theorem newArray_keeps {b : Buffer Value} (hb : T.HoldsAll b.toList) :
    T.NativeKeeps T.Holds (NativeAction.newArray b) :=
  .modifyGet fun _ hh => ⟨hh.holds_newArray b, hh.newArray hb⟩

theorem setText_keeps {r : TextRef} (hr : T.Texts r) (b : Buffer Char) :
    T.NativeKeeps (fun _ => True) (setText r b) :=
  .modify fun _ hh => hh.modifyText hr _

theorem setArray_keeps {r : ArrayRef} (hr : T.Arrays r) {b : Buffer Value}
    (hb : T.HoldsAll b.toList) : T.NativeKeeps (fun _ => True) (setArray r b) :=
  .modify fun _ hh => hh.modifyArray hr fun _ _ => hb

theorem appendText_keeps {r : TextRef} (hr : T.Texts r) (cs : List Char) :
    T.NativeKeeps (fun _ => True) (appendText r cs) :=
  .modify fun _ hh => hh.modifyText hr _

theorem appendArray_keeps {r : ArrayRef} (hr : T.Arrays r) {vs : List Value}
    (hv : T.HoldsAll vs) : T.NativeKeeps (fun _ => True) (appendArray r vs) := by
  refine .modify fun _ hh => hh.modifyArray hr fun b hb => ?_
  rw [Buffer.toList_append]
  exact hb.append hv

theorem render_keeps (v : Value) : T.NativeKeeps (fun _ => True) (NativeAction.render v) :=
  Keeps.get.bind fun _ _ => .pure trivial

variable (T) in
/-- A sequence of the territory. -/
def HoldsSequence : Sequence → Prop
  | .text r => T.Texts r
  | .array r => T.Arrays r

theorem sequence_keeps (param : String) {v : Value} (hv : T.Holds v) :
    T.NativeKeeps T.HoldsSequence (sequence param v) := by
  cases v with
  | text r => exact .pure hv
  | array r => exact .pure hv
  | _ => exact .throw _

theorem chars_keeps (param : String) (v : Value) :
    T.NativeKeeps (fun _ => True) (chars param v) := by
  cases v with
  | text r => exact (text_keeps r).bind fun _ _ => .pure trivial
  | _ => exact .throw _

theorem charsOfAll_keeps (param : String) (vs : List Value) :
    T.NativeKeeps (fun _ => True) (charsOfAll param vs) := by
  induction vs with
  | nil => exact .pure trivial
  | cons v vs ih => exact (chars_keeps param v).bind fun _ _ => ih.bind fun _ _ => .pure trivial

theorem itemsOf_keeps (param : String) {v : Value} (hv : T.Holds v) :
    T.NativeKeeps T.HoldsAll (itemsOf param v) := by
  cases v with
  | array r => exact (items_keeps hv).bind fun _ hb => .pure hb
  | _ => exact .throw _

theorem itemsOfAll_keeps (param : String) {vs : List Value} (hv : T.HoldsAll vs) :
    T.NativeKeeps T.HoldsAll (itemsOfAll param vs) := by
  induction vs with
  | nil => exact .pure holdsAll_nil
  | cons v vs ih =>
    have hfirst : T.Holds v := hv v List.mem_cons_self
    have hrest : T.HoldsAll vs := hv.of_subset (List.subset_cons_self v vs)
    exact (itemsOf_keeps param hfirst).bind fun _ hx => (ih hrest).bind fun _ hy =>
      .pure (hx.append hy)

theorem position_keeps (param : String) (v : Value) :
    T.NativeKeeps (fun _ => True) (Native.position param v) := by
  rw [Native.position]
  split
  · exact .pure trivial
  · exact (render_keeps v).bind fun _ _ => .throw _

theorem printAll_keeps (vs : List Value) : T.NativeKeeps T.Holds (printAll vs) := by
  refine Keeps.bind (Q := fun _ => True) (.modifyGet fun _ hh => ⟨trivial, hh⟩) fun refusal? _ => ?_
  cases refusal? with
  | none => exact .pure trivial
  | some reason => exact .throw _

theorem readLine_keeps : T.NativeKeeps T.Holds readLine := by
  refine Keeps.bind (Q := fun _ => True) (.modifyGet fun _ hh => ⟨trivial, hh⟩) fun taken _ => ?_
  split
  · exact .throw _
  · exact .pure trivial
  · split
    · exact newText_keeps _
    · exact .throw _

theorem length_keeps {v : Value} (hv : T.Holds v) : T.NativeKeeps T.Holds (length v) := by
  refine (sequence_keeps _ hv).bind fun s hs => ?_
  cases s with
  | text r => exact (text_keeps r).bind fun _ _ => .pure trivial
  | array r => exact (items_keeps hs).bind fun _ _ => .pure trivial

theorem appendAll_keeps {v : Value} {vs : List Value} (hv : T.Holds v) (hvs : T.HoldsAll vs) :
    T.NativeKeeps T.Holds (appendAll v vs) := by
  refine (sequence_keeps _ hv).bind fun s hs => ?_
  cases s with
  | text r =>
    exact (charsOfAll_keeps _ vs).bind fun cs _ =>
      (appendText_keeps hs cs).bind fun _ _ => .pure hv
  | array r => exact (appendArray_keeps hs hvs).bind fun _ _ => .pure hv

theorem extendAll_keeps {v : Value} {vs : List Value} (hv : T.Holds v) (hvs : T.HoldsAll vs) :
    T.NativeKeeps T.Holds (extendAll v vs) := by
  refine (sequence_keeps _ hv).bind fun s hs => ?_
  cases s with
  | text r =>
    exact (charsOfAll_keeps _ vs).bind fun cs _ =>
      (appendText_keeps hs cs).bind fun _ _ => .pure hv
  | array r =>
    exact (itemsOfAll_keeps _ hvs).bind fun _ hx =>
      (appendArray_keeps hs hx).bind fun _ _ => .pure hv

theorem mergeAll_keeps {v : Value} {vs : List Value} (hv : T.Holds v) (hvs : T.HoldsAll vs) :
    T.NativeKeeps T.Holds (mergeAll v vs) := by
  refine (sequence_keeps _ hv).bind fun s hs => ?_
  cases s with
  | text r =>
    exact (text_keeps r).bind fun _ _ => (charsOfAll_keeps _ vs).bind fun _ _ => newText_keeps _
  | array r =>
    refine (items_keeps hs).bind fun b hb => (itemsOfAll_keeps _ hvs).bind fun xs hx => ?_
    apply newArray_keeps
    rw [Buffer.toList_append]
    exact hb.append hx

theorem insertAt_keeps {v x : Value} (i : Value) (hv : T.Holds v) (hx : T.Holds x) :
    T.NativeKeeps T.Holds (insertAt v i x) := by
  refine (position_keeps _ i).bind fun i _ => (sequence_keeps _ hv).bind fun s hs => ?_
  cases s with
  | text r =>
    refine (chars_keeps _ x).bind fun cs _ => (text_keeps r).bind fun b _ => ?_
    cases b.insert? i cs with
    | some b => exact (setText_keeps hs b).bind fun _ _ => .pure hv
    | none => exact .throw _
  | array r =>
    refine (items_keeps hs).bind fun b hb => ?_
    have hone : T.HoldsAll [x] := .cons hx holdsAll_nil
    cases hins : b.insert? i [x] with
    | some c => exact (setArray_keeps hs (hb.insert? hone hins)).bind fun _ _ => .pure hv
    | none => exact .throw _

theorem positionOf?_keeps (r : ArrayRef) (x : Value) :
    T.NativeKeeps (fun _ => True) (positionOf? r x) :=
  Keeps.get.bind fun _ _ => .pure trivial

theorem indexOf_keeps {v : Value} (x : Value) (hv : T.Holds v) :
    T.NativeKeeps T.Holds (indexOf v x) := by
  refine (sequence_keeps _ hv).bind fun s hs => ?_
  cases s with
  | text r =>
    refine (chars_keeps _ x).bind fun _ _ => (text_keeps r).bind fun _ _ =>
      Keeps.bind (Q := fun _ => True) (.pure trivial) fun i _ => ?_
    cases i with
    | some i => exact .pure trivial
    | none => exact .pure trivial
  | array r =>
    refine (positionOf?_keeps r x).bind fun i _ => ?_
    cases i with
    | some i => exact .pure trivial
    | none => exact .pure trivial

theorem countOf_keeps {v : Value} (x : Value) (hv : T.Holds v) :
    T.NativeKeeps T.Holds (countOf v x) := by
  refine (sequence_keeps _ hv).bind fun s hs => ?_
  cases s with
  | text r =>
    refine (chars_keeps _ x).bind fun cs _ => ?_
    split
    · exact .throw _
    · exact (text_keeps r).bind fun _ _ => .pure trivial
  | array r => exact Keeps.get.bind fun _ _ => .pure trivial

theorem popOne_keeps {s : Sequence} (hs : T.HoldsSequence s) (v : Value) :
    T.NativeKeeps T.Holds (popOne s v) := by
  refine (position_keeps _ v).bind fun i _ => ?_
  cases s with
  | text r =>
    refine (text_keeps r).bind fun b _ => ?_
    cases b.erase? i with
    | some p => exact (setText_keeps hs _).bind fun _ _ => newText_keeps _
    | none => exact .throw _
  | array r =>
    refine (items_keeps hs).bind fun b hb => ?_
    cases herase : b.erase? i with
    | some p =>
      obtain ⟨hx, hrest⟩ := hb.erase? herase
      exact (setArray_keeps hs hrest).bind fun _ _ => .pure hx
    | none => exact .throw _

theorem popEach_keeps {s : Sequence} (hs : T.HoldsSequence s) (vs : List Value) :
    T.NativeKeeps T.HoldsAll (popEach s vs) := by
  induction vs with
  | nil => exact .pure holdsAll_nil
  | cons v vs ih => exact (popOne_keeps hs v).bind fun _ hx => ih.bind fun _ hxs => .pure (.cons hx hxs)

theorem popAll_keeps {v : Value} (vs : List Value) (hv : T.Holds v) :
    T.NativeKeeps T.Holds (popAll v vs) := by
  refine (sequence_keeps _ hv).bind fun s hs => (popEach_keeps hs vs).bind fun xs hx => ?_
  split
  · exact .pure (hx _ List.mem_cons_self)
  · exact newArray_keeps hx

theorem removeOne_keeps {s : Sequence} (hs : T.HoldsSequence s) (x : Value) :
    T.NativeKeeps (fun _ => True) (removeOne s x) := by
  cases s with
  | text r =>
    refine (chars_keeps _ x).bind fun cs _ => (text_keeps r).bind fun b _ => ?_
    cases b.find? cs with
    | some i =>
      dsimp only
      cases b.eraseRange? i (i + cs.length) with
      | some b => exact setText_keeps hs b
      | none => exact .pure trivial
    | none => exact (render_keeps x).bind fun _ _ => .throw _
  | array r =>
    refine (positionOf?_keeps r x).bind fun i _ => ?_
    cases i with
    | some i =>
      refine (items_keeps hs).bind fun b hb => ?_
      cases herase : b.erase? i with
      | some p => exact setArray_keeps hs (hb.erase? herase).2
      | none => exact .pure trivial
    | none => exact (render_keeps x).bind fun _ _ => .throw _

theorem removeEach_keeps {s : Sequence} (hs : T.HoldsSequence s) (vs : List Value) :
    T.NativeKeeps (fun _ => True) (removeEach s vs) := by
  induction vs with
  | nil => exact .pure trivial
  | cons v vs ih => exact (removeOne_keeps hs v).bind fun _ _ => ih

theorem removeAll_keeps {v : Value} (vs : List Value) (hv : T.Holds v) :
    T.NativeKeeps T.Holds (removeAll v vs) :=
  (sequence_keeps _ hv).bind fun _ hs => (removeEach_keeps hs vs).bind fun _ _ => .pure hv

theorem clearAll_keeps {v : Value} (hv : T.Holds v) : T.NativeKeeps T.Holds (clearAll v) := by
  refine (sequence_keeps _ hv).bind fun s hs => ?_
  cases s with
  | text r => exact (setText_keeps hs _).bind fun _ _ => .pure hv
  | array r =>
    exact (setArray_keeps (b := Buffer.empty) hs holdsAll_nil).bind fun _ _ => .pure hv

theorem toNumber_keeps (v : Value) : T.NativeKeeps T.Holds (toNumber v) := by
  cases v with
  | float x => exact .pure trivial
  | text r =>
    refine (text_keeps r).bind fun b _ => ?_
    split
    · exact .pure trivial
    · exact .pure trivial
  | _ => exact .throw _

/-- **Natives stay in the territory of their arguments.** -/
theorem call_keeps (n : Native) {args : List Value} (h : T.HoldsAll args) :
    T.NativeKeeps T.Holds (n.call args) := by
  have hmem : ∀ {v}, v ∈ args → T.Holds v := fun hv => h _ hv
  have hrest : ∀ {v vs}, args = v :: vs → T.HoldsAll vs := by
    rintro v vs rfl
    exact h.of_subset (List.subset_cons_self v vs)
  rw [Native.call.eq_def]
  split
  · exact printAll_keeps _
  · exact readLine_keeps
  · exact .modifyGet fun _ hh => ⟨trivial, hh⟩
  · exact length_keeps (hmem (by simp))
  · exact appendAll_keeps (hmem (by simp)) (hrest rfl)
  · exact extendAll_keeps (hmem (by simp)) (hrest rfl)
  · exact mergeAll_keeps (hmem (by simp)) (hrest rfl)
  · exact insertAt_keeps _ (hmem (by simp)) (hmem (by simp))
  · exact indexOf_keeps _ (hmem (by simp))
  · exact countOf_keeps _ (hmem (by simp))
  · exact popAll_keeps _ (hmem (by simp))
  · exact removeAll_keeps _ (hmem (by simp))
  · exact clearAll_keeps (hmem (by simp))
  · exact toNumber_keeps _
  · exact .pure trivial

end Natives

/-! ### Names -/

section Runs

variable (T) in
/-- Actions of evaluation that keep a world of this shape. -/
abbrev RunKeeps (shape : List (List FrameId)) {α : Type} (Q : α → Prop) (a : Run α) : Prop :=
  Keeps (T.Kept shape) Q a

variable (T) in
/-- What evaluation in the frame `env` reads belongs to the territory, and so does the global frame
if names may be assigned there. -/
structure Sees (shape : List (List FrameId)) (env : FrameId) : Prop where
  le : T.start.scopes.frames.size ≤ shape.length
  outer : ∀ f, T.Reads f → ∀ g ∈ shape.getD f [], T.Reads g
  reads : T.Reads env
  global : ∀ x, T.Permits (.global x) → T.Writes ((shape.getD env []).getLastD env)

variable {shape : List (List FrameId)} {env : FrameId}

theorem fault_keeps {α : Type} {Q : α → Prop} (c : Fault.Cause) (span : Span) :
    T.RunKeeps shape Q (Run.fault c span : Run α) :=
  .throw _

theorem heap_keeps : T.RunKeeps shape T.HeapKept Run.heap :=
  Keeps.get.bind fun _ hw => .pure hw.heap

theorem runNewText_keeps (b : Buffer Char) : T.RunKeeps shape T.Holds (Run.newText b) :=
  .modifyGet fun _ hw => ⟨hw.heap.holds_newText b, ⟨hw.scopes, hw.heap.newText b⟩⟩

theorem runNewArray_keeps {b : Buffer Value} (hb : T.HoldsAll b.toList) :
    T.RunKeeps shape T.Holds (Run.newArray b) :=
  .modifyGet fun _ hw => ⟨hw.heap.holds_newArray b, ⟨hw.scopes, hw.heap.newArray hb⟩⟩

theorem setChar_keeps {r : TextRef} (hr : T.Texts r) (i : Nat) (c : Char) :
    T.RunKeeps shape (fun _ => True) (Run.setChar r i c) :=
  .modify fun _ hw => ⟨hw.scopes, hw.heap.modifyText hr _⟩

theorem setItem_keeps {r : ArrayRef} (hr : T.Arrays r) (i : Nat) {v : Value} (hv : T.Holds v) :
    T.RunKeeps shape (fun _ => True) (Run.setItem r i v) :=
  .modify fun _ hw => ⟨hw.scopes, hw.heap.modifyArray hr fun _ hb => hb.set? i hv⟩

theorem native_keeps (n : Native) {vs : List Value} (hv : T.HoldsAll vs) (span : Span) :
    T.RunKeeps shape T.Holds (Run.native n vs span) := by
  rintro ⟨scopes, host⟩ hw
  have h := call_keeps n hv host hw.heap
  simp only [Run.native]
  generalize n.call vs host = r at h ⊢
  cases h with
  | ok hv hh => exact .ok hv ⟨hw.scopes, hh⟩
  | error hh => exact .error ⟨hw.scopes, hh⟩

theorem scopes_keeps : T.RunKeeps shape (T.ScopesKept shape) Run.scopes :=
  Keeps.get.bind fun _ hw => .pure hw.scopes

theorem modifyScopes_keeps {f : Scopes → Scopes}
    (h : ∀ s, T.ScopesKept shape s → T.ScopesKept shape (f s)) :
    T.RunKeeps shape (fun _ => True) (Run.modifyScopes f) :=
  .modify fun _ hw => ⟨h _ hw.scopes, hw.heap⟩

theorem unbound_keeps {α : Type} {Q : α → Prop} (f : FrameId) (x : String) (span : Span) :
    T.RunKeeps shape Q (Run.unbound f x span : Run α) :=
  scopes_keeps.bind fun _ _ => fault_keeps _ _

theorem Sees.reads_global (h : T.Sees shape env) :
    T.Reads ((shape.getD env []).getLastD env) := by
  cases hout : shape.getD env [] with
  | nil => exact h.reads
  | cons f fs =>
    refine h.outer env h.reads _ ?_
    rw [hout, List.getLastD_cons]
    exact List.getLastD_mem_cons

theorem targetFrame_keeps (env : FrameId) (global : Bool) (x : String) (span : Span) :
    T.RunKeeps shape (fun f => f = if global then (shape.getD env []).getLastD env else env)
      (Run.targetFrame env global x span) := by
  refine scopes_keeps.bind fun s hs => ?_
  cases global with
  | false => exact .pure rfl
  | true =>
    rw [Scopes.target?, if_pos rfl]
    by_cases hglobal : s.isGlobal env
    · rw [if_pos hglobal]
      exact fault_keeps _ _
    · rw [if_neg hglobal]
      refine .pure ?_
      rw [Scopes.global_eq, Scopes.outer_eq, hs.shape_eq]

theorem Sees.reads_target (h : T.Sees shape env) {global : Bool} {f : FrameId}
    (hf : f = if global then (shape.getD env []).getLastD env else env) : T.Reads f := by
  subst hf
  split
  · exact h.reads_global
  · exact h.reads

/-- What is found in a chain is found in one of its frames. -/
theorem Sees.lookup? (h : T.Sees shape env) {s : Scopes} (hs : T.ScopesKept shape s) {f : FrameId}
    (hf : T.Reads f) {x : String} {b : Binding} (hb : s.lookup? f x = some b) :
    T.Holds b.value := by
  rw [Scopes.lookup?_eq, Scopes.chain_eq, hs.shape_eq] at hb
  obtain ⟨g, hg, hfound⟩ := List.exists_of_findSome?_eq_some hb
  have hreads : T.Reads g := by
    rcases List.mem_cons.mp hg with rfl | hg
    · exact hf
    · exact h.outer f hf g hg
  exact hs.find? g hreads x b hfound

theorem readName_keeps (h : T.Sees shape env) (global : Bool) (x : String) (span : Span) :
    T.RunKeeps shape T.Holds (Run.readName env global x span) := by
  refine (targetFrame_keeps env global x span).bind fun f hf => ?_
  refine scopes_keeps.bind fun s hs => ?_
  split
  · rename_i b hb
    exact .pure (h.lookup? hs (h.reads_target hf) hb)
  · exact unbound_keeps f x span

/-- Where a name is not a constant now, it was none at the start that has to be kept. -/
theorem ScopesKept.mayBind {s : Scopes} (hs : T.ScopesKept shape s) {f : FrameId} {x : String}
    (hx : (s.find? f x).map Binding.isMutable ≠ some false) : T.MayBind f x := by
  intro v hv
  refine Classical.byContradiction fun hp => hx ?_
  rw [hs.constant f x v hv hp]
  rfl

theorem assign_keeps (h : T.Sees shape env) (hw : T.Writes env) {global : Bool} {x : String}
    (hg : global = true → T.Permits (.global x)) (constant : Bool) {v : Value} (hv : T.Holds v)
    (span : Span) : T.RunKeeps shape T.Holds (Run.assign env global constant x v span) := by
  refine (targetFrame_keeps env global x span).bind fun f hf => ?_
  have hwrites : T.Writes f := by
    subst hf
    split
    · rename_i hglobal
      exact h.global x (hg hglobal)
    · exact hw
  refine scopes_keeps.bind fun s hs => ?_
  -- the name is new in the frame, or it may be bound again, or it is a constant
  split
  · rename_i hx
    have hmay : T.MayBind f x := hs.mayBind (by rw [hx]; exact nofun)
    exact (modifyScopes_keeps fun _ hs => hs.add hwrites hmay hv).bind fun _ _ => .pure hv
  · rename_i hx
    have hmay : T.MayBind f x := hs.mayBind (by rw [hx]; exact nofun)
    exact (modifyScopes_keeps fun _ hs => hs.replace hwrites hmay hv).bind fun _ _ => .pure hv
  · exact Keeps.bind (Q := fun _ => True) (fault_keeps _ _) fun _ _ => .pure hv

/-! ### Operators -/

theorem arithmetic?_holds {op : BinaryOp} {x y : Float} {v : Value}
    (h : Run.arithmetic? op x y = some v) : T.Holds v := by
  cases op <;> cases h <;> exact trivial

theorem binary_keeps (op : BinaryOp) {v w : Value} (hv : T.Holds v) (hw : T.Holds w)
    (span : Span) : T.RunKeeps shape T.Holds (Run.binary op v w span) := by
  rw [Run.binary.eq_def]
  split
  · exact heap_keeps.bind fun _ _ => .pure trivial
  · exact heap_keeps.bind fun _ _ => .pure trivial
  · exact heap_keeps.bind fun _ _ => runNewText_keeps _
  · rename_i r s
    refine heap_keeps.bind fun k hk => runNewArray_keeps ?_
    rw [Buffer.toList_append]
    exact (hk.items r hv).append (hk.items s hw)
  · split
    · rename_i hres
      exact .pure (arithmetic?_holds hres)
    · exact fault_keeps _ _
  · exact fault_keeps _ _

theorem unary_keeps (op : UnaryOp) (v : Value) (span : Span) :
    T.RunKeeps shape T.Holds (Run.unary op v span) := by
  rw [Run.unary.eq_def]
  split
  · exact .pure trivial
  · exact .pure trivial
  · exact .pure trivial
  · exact runNewText_keeps _
  · exact heap_keeps.bind fun _ _ => runNewText_keeps _
  · exact fault_keeps _ _

/-! ### Subscripts -/

theorem runPosition_keeps (v : Value) (span : Span) :
    T.RunKeeps shape (fun _ => True) (Run.position v span) := by
  rw [Run.position]
  split
  · exact .pure trivial
  · split
    · exact .pure trivial
    · exact fault_keeps _ _

theorem sliceStop_keeps (v : Value) (length : Nat) (span : Span) :
    T.RunKeeps shape (fun _ => True) (Run.sliceStop v length span) := by
  rw [Run.sliceStop]
  split
  · exact .pure trivial
  · exact runPosition_keeps v span

theorem index_keeps {v : Value} (i : Value) (hv : T.Holds v) (span : Span) :
    T.RunKeeps shape T.Holds (Run.index v i span) := by
  rw [Run.index.eq_def]
  split
  · rename_i r
    refine (runPosition_keeps i span).bind fun i _ => heap_keeps.bind fun k hk => ?_
    dsimp only
    split
    · rename_i x hx
      exact .pure ((hk.items r hv).get? hx)
    · exact fault_keeps _ _
  · refine (runPosition_keeps i span).bind fun i _ => heap_keeps.bind fun k hk => ?_
    dsimp only
    split
    · exact runNewText_keeps _
    · exact fault_keeps _ _
  · exact fault_keeps _ _

theorem slice_keeps {v : Value} (start stop : Value) (hv : T.Holds v) (span : Span) :
    T.RunKeeps shape T.Holds (Run.slice v start stop span) := by
  rw [Run.slice.eq_def]
  split
  · rename_i r
    refine heap_keeps.bind fun k hk => (runPosition_keeps start span).bind fun start _ => ?_
    refine (sliceStop_keeps stop _ span).bind fun stop _ => ?_
    split
    · rename_i part hpart
      exact runNewArray_keeps ((hk.items r hv).slice? hpart)
    · exact fault_keeps _ _
  · refine heap_keeps.bind fun k hk => (runPosition_keeps start span).bind fun start _ => ?_
    refine (sliceStop_keeps stop _ span).bind fun stop _ => ?_
    split
    · exact runNewText_keeps _
    · exact fault_keeps _ _
  · exact fault_keeps _ _

theorem assignElement_keeps (h : T.Sees shape env) (global : Bool) (x : String) (i : Value)
    {v : Value} (hv : T.Holds v) (span : Span) :
    T.RunKeeps shape T.Holds (Run.assignElement env global x i v span) := by
  refine (targetFrame_keeps env global x span).bind fun f hf => ?_
  refine scopes_keeps.bind fun s hs => ?_
  have hfound : ∀ w, (s.find? f x).map Binding.value = some w → T.Holds w := by
    intro w hw
    obtain ⟨b, hb, rfl⟩ := Option.map_eq_some_iff.mp hw
    exact hs.find? f (h.reads_target hf) x b hb
  split
  · exact unbound_keeps f x span
  · rename_i r hr
    refine (runPosition_keeps i span).bind fun i _ => heap_keeps.bind fun k hk => ?_
    dsimp only
    split
    · exact (setItem_keeps (hfound _ hr) i hv).bind fun _ _ => .pure hv
    · exact Keeps.bind (Q := fun _ => True) (fault_keeps _ _) fun _ _ => .pure hv
  · rename_i r hr
    refine (runPosition_keeps i span).bind fun i _ => heap_keeps.bind fun k hk => ?_
    split
    · exact fault_keeps _ _
    · refine heap_keeps.bind fun k hk => ?_
      dsimp only
      split
      · exact (setChar_keeps (hfound _ hr) i _).bind fun _ _ => .pure hv
      · exact Keeps.bind (Q := fun _ => True) (fault_keeps _ _) fun _ _ => .pure hv
  · exact fault_keeps _ _

/-! ### Range loops -/

theorem rangeBound_keeps (v : Value) (span : Span) :
    T.RunKeeps shape (fun _ => True) (Run.rangeBound v span) := by
  rw [Run.rangeBound.eq_def]
  split
  · split
    · exact .pure trivial
    · exact fault_keeps _ _
  · exact fault_keeps _ _

theorem rangeStep_keeps (cmp : Located BinaryOp) (first last : Float) (span : Span) :
    T.RunKeeps shape (fun _ => True) (Run.rangeStep cmp first last span) := by
  rw [Run.rangeStep]
  split
  · split
    · exact fault_keeps _ _
    · exact .pure trivial
  · split
    · exact fault_keeps _ _
    · exact .pure trivial
  · split
    · exact fault_keeps _ _
    · exact .pure trivial
  · split
    · exact fault_keeps _ _
    · exact .pure trivial
  · exact fault_keeps _ _

theorem rangeCounter_keeps (f : FrameId) (x : Located String) :
    T.RunKeeps shape (fun _ => True) (Run.rangeCounter f x) := by
  refine scopes_keeps.bind fun s hs => ?_
  split
  · exact .pure trivial
  · exact fault_keeps _ _
  · exact unbound_keeps _ _ _

/-! ### Calls -/

theorem ensuring_ends {α : Type} {Q : α → Prop} {a : Run α} {f : World → World}
    {inner : List (List FrameId)} (ha : T.RunKeeps inner Q a)
    (hf : ∀ w, T.Kept inner w → T.Kept shape (f w)) {w : World} (hw : T.Kept inner w) :
    Ends (T.Kept shape) Q (Run.ensuring a f w) := by
  have h := ha w hw
  unfold Run.ensuring
  generalize a w = r at h ⊢
  cases h with
  | ok hq hs => exact .ok hq (hf _ hs)
  | error hs => exact .error (hf _ hs)

theorem bindArguments_kept {f : FrameId} (hf : T.start.scopes.frames.size ≤ f)
    (params : List (Located String)) {vs : List Value} (hv : T.HoldsAll vs) {s : Scopes}
    (hs : T.ScopesKept shape s) :
    T.ScopesKept shape
      ((params.zip vs).foldl (fun s p => s.add f p.1.val ⟨p.2, true⟩) s) := by
  induction params generalizing vs s with
  | nil => simpa using hs
  | cons x xs ih =>
    cases vs with
    | nil => simpa using hs
    | cons v vs =>
      have hfirst : T.Holds v := hv v List.mem_cons_self
      have hrest : T.HoldsAll vs := hv.of_subset (List.subset_cons_self v vs)
      exact ih hrest (hs.add (T.writes_new f hf) (mayBind_new hf x.val) hfirst)

/-- The frame of a call is new, and gone when the call ends. -/
theorem frame_keeps {α : Type} {Q : α → Prop} (hle : T.start.scopes.frames.size ≤ shape.length)
    (env : FrameId) (params : List (Located String)) {vs : List Value} (hv : T.HoldsAll vs)
    {a : FrameId → Run α}
    (ha : T.RunKeeps (shape ++ [Scopes.around shape env]) Q (a shape.length)) :
    T.RunKeeps shape Q (Run.enterFrame env params vs >>= fun frame =>
      Run.ensuring (a frame) Run.leaveFrame) := by
  intro w hw
  have hnew : (w.scopes.child env).1 = shape.length := by
    rw [← hw.scopes.shape_eq, Scopes.length_shape]
    rfl
  show Ends (T.Kept shape) Q
    (Run.ensuring (a (w.scopes.child env).1) Run.leaveFrame { w with
      scopes := (params.zip vs).foldl
        (fun s p => s.add (w.scopes.child env).1 p.1.val ⟨p.2, true⟩) (w.scopes.child env).2 })
  rw [hnew]
  have hleave : ∀ w, T.Kept (shape ++ [Scopes.around shape env]) w →
      T.Kept shape (Run.leaveFrame w) :=
    fun w hw => ⟨hw.scopes.leave hle, hw.heap⟩
  refine ensuring_ends ha hleave ⟨?_, hw.heap⟩
  exact bindArguments_kept hle params hv (hw.scopes.child hle env)

/-- Where a frame sees only the territory, so does the frame of a call from it. -/
theorem Sees.inner (h : T.Sees shape env) :
    T.Sees (shape ++ [Scopes.around shape env]) shape.length := by
  have hnew : (shape ++ [Scopes.around shape env]).getD shape.length [] =
      Scopes.around shape env := by
    simp [List.getD_eq_getElem?_getD]
  refine ⟨?_, ?_, T.reads_new _ h.le, ?_⟩
  · have := h.le
    rw [List.length_append]
    omega
  · intro f hf g hg
    by_cases hfs : f = shape.length
    · subst hfs
      rw [hnew] at hg
      rcases Scopes.mem_around hg with rfl | hg
      · exact h.reads
      · exact h.outer env h.reads g hg
    · by_cases hlt : f < shape.length
      · refine h.outer f hf g ?_
        rwa [List.getD_append _ _ _ _ hlt] at hg
      · -- a frame that is not there is inside no other
        have hge : (shape ++ [Scopes.around shape env]).length ≤ f := by
          rw [List.length_append, List.length_singleton]
          exact Nat.lt_of_le_of_ne (Nat.le_of_not_lt hlt) (Ne.symm hfs)
        rw [List.getD_eq_default _ _ hge] at hg
        cases hg
  · intro x hx
    rw [hnew, Scopes.around]
    split
    · rw [List.getLastD_cons]
      exact h.global x hx
    · exact T.writes_new _ h.le

end Runs
end Scriptlet.Territory
