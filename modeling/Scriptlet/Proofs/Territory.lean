import Scriptlet.Eval.World
import Scriptlet.Proofs.Store

/-!
The part of a world that a run may touch.

A `Territory` says which frames, texts and arrays of a world belong to a run, and what its code may
do to bindings beyond assigning in its own frame (`Hazard`). All that is made later belongs to it. A
world is kept (`Territory.Kept`) if

* what can be read in the territory leads to nothing outside: the bindings of its frames and the items
  of its arrays hold only its own texts and arrays, and functions whose code is permitted;
* what is outside the territory is as it was at the start;
* a name that was bound as a constant is bound to the very same value, unless a range loop may count
  with it.

As the territory does not change while a run goes on, this is an invariant of the world alone: each
operation on the heap and the frames keeps it (`Territory.HeapKept.newArray` to
`Territory.ScopesKept.leave`).
-/
namespace Scriptlet

/-! ### Hazards -/

/-- How code binds names other than by assigning in its own frame. -/
inductive Hazard where
  /-- A range loop binds its variable and forgets it, whether it is a constant or not. -/
  | counter (x : String)
  /-- A name is assigned in the global frame. -/
  | global (x : String)
  deriving DecidableEq, Repr

mutual

/-- The hazards in an expression, those in the functions inside it included. -/
def Expr.hazards {φ : Type} : Expr φ → List Hazard
  | .number _ _ | .text _ _ | .bool _ _ | .nil _ | .name _ _ _ => []
  | .array _ items => Expr.hazardsOfAll items
  | .group _ inner => inner.hazards
  | .binary _ _ left right => left.hazards ++ right.hazards
  | .unary _ _ operand => operand.hazards
  | .conditional _ test yes no => test.hazards ++ yes.hazards ++ no.hazards
  | .call _ callee args => callee.hazards ++ Expr.hazardsOfAll args
  | .index _ target i => target.hazards ++ i.hazards
  | .slice _ target start stop =>
    target.hazards ++ Expr.hazardsOfOption start ++ Expr.hazardsOfOption stop
  | .assign _ global _ x value => (if global then [.global x] else []) ++ value.hazards
  | .assignIndex _ _ _ _ i value => i.hazards ++ value.hazards
  | .function _ _ _ body => Block.hazards body

def Expr.hazardsOfAll {φ : Type} : List (Expr φ) → List Hazard
  | [] => []
  | e :: es => e.hazards ++ Expr.hazardsOfAll es

def Expr.hazardsOfOption {φ : Type} : Option (Expr φ) → List Hazard
  | none => []
  | some e => e.hazards

def Stmt.hazards {φ : Type} : Stmt φ → List Hazard
  | .expr _ e => e.hazards
  | .block _ body => Block.hazards body
  | .cond _ test yes no => test.hazards ++ Block.hazards yes ++ Block.hazardsOfOption no
  | .while _ test body => test.hazards ++ Block.hazards body
  | .range _ x _ first last body =>
    .counter x.val :: (first.hazards ++ last.hazards ++ Block.hazards body)
  | .break _ | .continue _ => []
  | .return _ value => Expr.hazardsOfOption value

def Block.hazards {φ : Type} : List (Stmt φ) → List Hazard
  | [] => []
  | s :: ss => s.hazards ++ Block.hazards ss

def Block.hazardsOfOption {φ : Type} : Option (List (Stmt φ)) → List Hazard
  | none => []
  | some body => Block.hazards body

end

/-! ### Actions that keep an invariant -/

section Keeps

variable {ε σ α β : Type}

/-- However an action has ended, the state satisfies `I`, and its result `Q`. -/
inductive Ends (I : σ → Prop) (Q : α → Prop) : EStateM.Result ε σ α → Prop
  | ok {x : α} {s : σ} (hq : Q x) (hs : I s) : Ends I Q (.ok x s)
  | error {e : ε} {s : σ} (hs : I s) : Ends I Q (.error e s)

/-- Wherever an action is started in a state that satisfies `I`, it keeps `I`, and its result
satisfies `Q`. -/
def Keeps (I : σ → Prop) (Q : α → Prop) (a : EStateM ε σ α) : Prop :=
  ∀ s, I s → Ends I Q (a s)

namespace Keeps

variable {I : σ → Prop} {Q : α → Prop} {Q' : β → Prop}

theorem pure {x : α} (h : Q x) : Keeps I Q (Pure.pure x : EStateM ε σ α) :=
  fun _ hs => .ok h hs

theorem throw (e : ε) : Keeps I Q (MonadExcept.throw e : EStateM ε σ α) :=
  fun _ hs => .error hs

theorem bind {a : EStateM ε σ α} {k : α → EStateM ε σ β} (ha : Keeps I Q a)
    (hk : ∀ x, Q x → Keeps I Q' (k x)) : Keeps I Q' (a >>= k) := by
  intro s hs
  have h := ha s hs
  show Ends I Q' (EStateM.bind a k s)
  unfold EStateM.bind
  generalize a s = r at h ⊢
  cases h with
  | ok hq hs => exact hk _ hq _ hs
  | error hs => exact .error hs

theorem get : Keeps I I (MonadState.get : EStateM ε σ σ) :=
  fun _ hs => .ok hs hs

theorem modify {f : σ → σ} (h : ∀ s, I s → I (f s)) :
    Keeps I (fun _ => True) (modify f : EStateM ε σ PUnit) :=
  fun s hs => .ok trivial (h s hs)

theorem modifyGet {f : σ → α × σ} (h : ∀ s, I s → Q (f s).1 ∧ I (f s).2) :
    Keeps I Q (MonadState.modifyGet f : EStateM ε σ α) :=
  fun s hs => .ok (h s hs).1 (h s hs).2

end Keeps
end Keeps

/-! ### Territories -/

/-- A part of the world `start` that a run may touch, with all that is made later. -/
structure Territory where
  start : World
  /-- The frames whose bindings may be read. -/
  Reads : FrameId → Prop
  /-- The frames in which names may be bound and forgotten. -/
  Writes : FrameId → Prop
  Texts : TextRef → Prop
  Arrays : ArrayRef → Prop
  /-- What the code may do. -/
  Permits : Hazard → Prop
  reads_new : ∀ f, start.scopes.frames.size ≤ f → Reads f
  writes_new : ∀ f, start.scopes.frames.size ≤ f → Writes f
  texts_new : ∀ r, start.host.heap.texts.size ≤ r.index → Texts r
  arrays_new : ∀ r, start.host.heap.arrays.size ≤ r.index → Arrays r

namespace Territory

variable (T : Territory)

/-- All hazards of a piece of code are permitted. -/
def PermitsAll (hs : List Hazard) : Prop :=
  ∀ h ∈ hs, T.Permits h

/-- A value leads to nothing outside. -/
def Holds : Value → Prop
  | .text r => T.Texts r
  | .array r => T.Arrays r
  | .function f => T.PermitsAll (Block.hazards f.body)
  | _ => True

def HoldsAll (vs : List Value) : Prop :=
  ∀ v ∈ vs, T.Holds v

structure HeapKept (h : Heap) : Prop where
  texts_le : T.start.host.heap.texts.size ≤ h.texts.size
  arrays_le : T.start.host.heap.arrays.size ≤ h.arrays.size
  items : ∀ r, T.Arrays r → T.HoldsAll (h.items r).toList
  text_eq : ∀ r, ¬ T.Texts r → h.text r = T.start.host.heap.text r
  items_eq : ∀ r, ¬ T.Arrays r → h.items r = T.start.host.heap.items r

/-- A name may be bound or forgotten in a frame: if it was a constant there at the start, a range
loop may count with it. -/
def MayBind (f : FrameId) (x : String) : Prop :=
  ∀ v, T.start.scopes.find? f x = some ⟨v, false⟩ → T.Permits (.counter x)

structure ScopesKept (shape : List (List FrameId)) (s : Scopes) : Prop where
  shape_eq : s.shape = shape
  find? : ∀ f, T.Reads f → ∀ x b, s.find? f x = some b → T.Holds b.value
  bindings_eq : ∀ f, ¬ T.Writes f → s.bindings f = T.start.scopes.bindings f
  constant : ∀ f x v, T.start.scopes.find? f x = some ⟨v, false⟩ → ¬ T.Permits (.counter x) →
    s.find? f x = some ⟨v, false⟩

/-- A world of the shape `shape` in which the territory is closed and the rest is as it was. -/
structure Kept (shape : List (List FrameId)) (w : World) : Prop where
  scopes : T.ScopesKept shape w.scopes
  heap : T.HeapKept w.host.heap

variable {T}

@[simp] theorem permitsAll_nil : T.PermitsAll [] :=
  fun _ h => absurd h List.not_mem_nil

@[simp] theorem permitsAll_append {hs ks : List Hazard} :
    T.PermitsAll (hs ++ ks) ↔ T.PermitsAll hs ∧ T.PermitsAll ks := by
  simp only [PermitsAll, List.mem_append, or_imp, forall_and]

@[simp] theorem permitsAll_cons {h : Hazard} {hs : List Hazard} :
    T.PermitsAll (h :: hs) ↔ T.Permits h ∧ T.PermitsAll hs := by
  simp only [PermitsAll, List.mem_cons, or_imp, forall_and, forall_eq]

theorem holds_float (x : Float) : T.Holds (.float x) :=
  trivial

theorem holds_nil : T.Holds .nil :=
  trivial

theorem holdsAll_nil : T.HoldsAll [] :=
  fun _ h => absurd h List.not_mem_nil

theorem HoldsAll.cons {v : Value} {vs : List Value} (hv : T.Holds v) (hvs : T.HoldsAll vs) :
    T.HoldsAll (v :: vs) := by
  intro x hx
  rcases List.mem_cons.mp hx with rfl | hx
  · exact hv
  · exact hvs x hx

theorem HoldsAll.append {vs ws : List Value} (hv : T.HoldsAll vs) (hw : T.HoldsAll ws) :
    T.HoldsAll (vs ++ ws) := by
  intro x hx
  rcases List.mem_append.mp hx with hx | hx
  · exact hv x hx
  · exact hw x hx

/-- Items that were there before are held if those were. -/
theorem HoldsAll.of_subset {vs ws : List Value} (hv : T.HoldsAll vs) (h : ws ⊆ vs) :
    T.HoldsAll ws :=
  fun x hx => hv x (h hx)

/-! ### The heap -/

namespace HeapKept

variable {h : Heap}

theorem newText (hh : T.HeapKept h) (b : Buffer Char) : T.HeapKept (h.newText b).2 where
  texts_le := by
    have := hh.texts_le
    rw [Heap.size_newText]
    omega
  arrays_le := hh.arrays_le
  items := hh.items
  text_eq r hr := by
    have hne : ¬ r.index = h.texts.size := fun he => hr (T.texts_new r (he ▸ hh.texts_le))
    rw [Heap.text_newText, if_neg hne]
    exact hh.text_eq r hr
  items_eq := hh.items_eq

theorem holds_newText (hh : T.HeapKept h) (b : Buffer Char) : T.Holds (.text (h.newText b).1) :=
  T.texts_new _ hh.texts_le

theorem newArray (hh : T.HeapKept h) {b : Buffer Value} (hb : T.HoldsAll b.toList) :
    T.HeapKept (h.newArray b).2 where
  texts_le := hh.texts_le
  arrays_le := by
    have := hh.arrays_le
    rw [Heap.size_newArray]
    omega
  items r hr := by
    rw [Heap.items_newArray]
    split
    · exact hb
    · exact hh.items r hr
  text_eq := hh.text_eq
  items_eq r hr := by
    have hne : ¬ r.index = h.arrays.size := fun he => hr (T.arrays_new r (he ▸ hh.arrays_le))
    rw [Heap.items_newArray, if_neg hne]
    exact hh.items_eq r hr

theorem holds_newArray (hh : T.HeapKept h) (b : Buffer Value) : T.Holds (.array (h.newArray b).1) :=
  T.arrays_new _ hh.arrays_le

theorem modifyText (hh : T.HeapKept h) {r : TextRef} (hr : T.Texts r)
    (f : Buffer Char → Buffer Char) : T.HeapKept (h.modifyText r f) where
  texts_le := by
    rw [Heap.size_modifyText]
    exact hh.texts_le
  arrays_le := hh.arrays_le
  items := hh.items
  text_eq s hs := by
    have hne : r ≠ s := fun he => hs (he ▸ hr)
    rw [Heap.text_modifyText, if_neg fun hrs => hne hrs.1]
    exact hh.text_eq s hs
  items_eq := hh.items_eq

theorem modifyArray (hh : T.HeapKept h) {r : ArrayRef} (hr : T.Arrays r)
    {f : Buffer Value → Buffer Value}
    (hf : ∀ b : Buffer Value, T.HoldsAll b.toList → T.HoldsAll (f b).toList) :
    T.HeapKept (h.modifyArray r f) where
  texts_le := hh.texts_le
  arrays_le := by
    rw [Heap.size_modifyArray]
    exact hh.arrays_le
  items s hs := by
    rw [Heap.items_modifyArray]
    split
    · exact hf _ (hh.items s hs)
    · exact hh.items s hs
  text_eq := hh.text_eq
  items_eq s hs := by
    have hne : r ≠ s := fun he => hs (he ▸ hr)
    rw [Heap.items_modifyArray, if_neg fun hc => hne hc.1]
    exact hh.items_eq s hs

end HeapKept

/-! ### The frames -/

/-- A frame that was not there at the start has no constants to keep. -/
theorem mayBind_new {f : FrameId} (hf : T.start.scopes.frames.size ≤ f) (x : String) :
    T.MayBind f x := by
  intro v hv
  have hlt := Scopes.lt_of_find? hv
  rw [Scopes.length_shape] at hlt
  exact absurd hf (Nat.not_le.mpr hlt)

namespace ScopesKept

variable {shape : List (List FrameId)} {s : Scopes}

theorem add (hs : T.ScopesKept shape s) {f : FrameId} (hf : T.Writes f) {x : String}
    (hx : T.MayBind f x) {b : Binding} (hb : T.Holds b.value) :
    T.ScopesKept shape (s.add f x b) where
  shape_eq := by rw [Scopes.shape_add, hs.shape_eq]
  find? g hg y c hc := by
    rw [Scopes.find?_add] at hc
    split at hc
    · cases hc
      exact hb
    · exact hs.find? g hg y c hc
  bindings_eq g hg := by
    have hne : f ≠ g := fun he => hg (he ▸ hf)
    rw [Scopes.bindings_add, if_neg fun hc => hne hc.1]
    exact hs.bindings_eq g hg
  constant g y v hv hp := by
    rw [Scopes.find?_add]
    split
    · rename_i hc
      obtain ⟨rfl, -, rfl⟩ := hc
      exact absurd (hx v hv) hp
    · exact hs.constant g y v hv hp

theorem replace (hs : T.ScopesKept shape s) {f : FrameId} (hf : T.Writes f) {x : String}
    (hx : T.MayBind f x) {b : Binding} (hb : T.Holds b.value) :
    T.ScopesKept shape (s.replace f x b) where
  shape_eq := by rw [Scopes.shape_replace, hs.shape_eq]
  find? g hg y c hc := by
    rw [Scopes.find?_replace] at hc
    split at hc
    · cases hc
      exact hb
    · exact hs.find? g hg y c hc
  bindings_eq g hg := by
    have hne : f ≠ g := fun he => hg (he ▸ hf)
    rw [Scopes.bindings_replace, if_neg fun hc => hne hc.1]
    exact hs.bindings_eq g hg
  constant g y v hv hp := by
    rw [Scopes.find?_replace]
    split
    · rename_i hc
      obtain ⟨rfl, -, -, rfl⟩ := hc
      exact absurd (hx v hv) hp
    · exact hs.constant g y v hv hp

theorem remove (hs : T.ScopesKept shape s) {f : FrameId} (hf : T.Writes f) {x : String}
    (hx : T.MayBind f x) : T.ScopesKept shape (s.remove f x) where
  shape_eq := by rw [Scopes.shape_remove, hs.shape_eq]
  find? g hg y c hc := by
    rw [Scopes.find?_remove] at hc
    split at hc
    · cases hc
    · exact hs.find? g hg y c hc
  bindings_eq g hg := by
    have hne : f ≠ g := fun he => hg (he ▸ hf)
    rw [Scopes.bindings_remove, if_neg fun hc => hne hc.1]
    exact hs.bindings_eq g hg
  constant g y v hv hp := by
    rw [Scopes.find?_remove]
    split
    · rename_i hc
      obtain ⟨rfl, -, rfl⟩ := hc
      exact absurd (hx v hv) hp
    · exact hs.constant g y v hv hp

theorem child (hs : T.ScopesKept shape s) (hle : T.start.scopes.frames.size ≤ shape.length)
    (env : FrameId) :
    T.ScopesKept (shape ++ [Scopes.around shape env]) (s.child env).2 where
  shape_eq := by rw [Scopes.shape_child, hs.shape_eq]
  find? g hg y c hc := by
    rw [Scopes.find?_eq, Scopes.bindings_child] at hc
    split at hc
    · cases hc
    · exact hs.find? g hg y c hc
  bindings_eq g hg := by
    have hne : ¬ g = s.shape.length := by
      rintro rfl
      rw [hs.shape_eq] at hg
      exact hg (T.writes_new _ hle)
    rw [Scopes.bindings_child, if_neg hne]
    exact hs.bindings_eq g hg
  constant g y v hv hp := by
    have hlt := Scopes.lt_of_find? hv
    rw [Scopes.length_shape] at hlt
    have hne : ¬ g = s.shape.length := by
      rw [hs.shape_eq]
      exact Nat.ne_of_lt (Nat.lt_of_lt_of_le hlt hle)
    rw [Scopes.find?_eq, Scopes.bindings_child, if_neg hne]
    exact hs.constant g y v hv hp

theorem leave {outer : List FrameId} (hs : T.ScopesKept (shape ++ [outer]) s)
    (hle : T.start.scopes.frames.size ≤ shape.length) : T.ScopesKept shape s.leave := by
  have hlen : s.shape.length - 1 = shape.length := by
    rw [hs.shape_eq]
    simp
  have hsize : 1 < s.frames.size :=
    Scopes.one_lt_size_of_shape (Nat.lt_of_lt_of_le T.start.scopes.nonempty hle) hs.shape_eq
  refine ⟨?_, ?_, ?_, ?_⟩
  · rw [Scopes.shape_leave hsize, hs.shape_eq, List.dropLast_concat]
  · intro g hg y c hc
    rw [Scopes.find?_eq, Scopes.bindings_leave hsize] at hc
    split at hc
    · exact hs.find? g hg y c hc
    · cases hc
  · intro g hg
    have hlt : g < shape.length := by
      refine Nat.lt_of_not_le fun hge => hg (T.writes_new g ?_)
      omega
    rw [Scopes.bindings_leave hsize, hlen, if_pos hlt]
    exact hs.bindings_eq g hg
  · intro g y v hv hp
    have hlt := Scopes.lt_of_find? hv
    rw [Scopes.length_shape] at hlt
    have hin : g < shape.length := Nat.lt_of_lt_of_le hlt hle
    rw [Scopes.find?_eq, Scopes.bindings_leave hsize, hlen, if_pos hin]
    exact hs.constant g y v hv hp

end ScopesKept
end Territory
end Scriptlet
