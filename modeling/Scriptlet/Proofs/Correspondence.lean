import Mathlib.Data.List.Forall2
import Scriptlet.Eval.World
import Scriptlet.Proofs.Data
import Scriptlet.Proofs.Equality
import Scriptlet.Proofs.Store

/-!
Worlds that differ in their functions and references only.

A `Correspondence` says which functions and which places are taken for each other, and which faults
may be raised. It extends to values, heaps, frames and worlds: numbers and the console have to be the
same, and a function may stand for another one. One of the heaps may have texts and arrays in front
that the other lacks, and that nothing leads to; then its references are ahead by their number
(`Lead`). What a program can observe of a value does not tell corresponding worlds apart:

* `Correspondence.render_eq`, `Correspondence.equal_eq`: rendering and equality;
* `Correspondence.find?_rel`, `Correspondence.lookup?_rel`, `Correspondence.visibleNames_eq`: names.

`Simulates` compares two actions that are started in corresponding states. The functions that
correspond to themselves may be few, so a statement on two runs is also one on the functions that a
single run meets.
-/
namespace Scriptlet

/-- A control statement or a `global` that is not where it belongs. -/
def Fault.Cause.IsMisplaced : Fault.Cause → Prop
  | breakOutsideLoop | continueOutsideLoop | returnOutsideFunction | globalScope _ => True
  | _ => False

/-! ### Actions in corresponding states -/

section Simulates

variable {ε δ σ τ α β γ κ : Type}

/-- Two results of the same sort, with corresponding contents and states. -/
inductive Matches (S : σ → τ → Prop) (E : ε → δ → Prop) (Q : α → β → Prop) :
    EStateM.Result ε σ α → EStateM.Result δ τ β → Prop
  | ok {x : α} {y : β} {s : σ} {t : τ} (hq : Q x y) (hs : S s t) : Matches S E Q (.ok x s) (.ok y t)
  | error {e : ε} {d : δ} {s : σ} {t : τ} (he : E e d) (hs : S s t) :
    Matches S E Q (.error e s) (.error d t)

/-- Two actions that give matching results wherever they are started in corresponding states. -/
def Simulates (S : σ → τ → Prop) (E : ε → δ → Prop) (Q : α → β → Prop) (a : EStateM ε σ α)
    (b : EStateM δ τ β) : Prop :=
  ∀ s t, S s t → Matches S E Q (a s) (b t)

namespace Simulates

variable {S : σ → τ → Prop} {E : ε → δ → Prop} {Q : α → β → Prop} {Q' : γ → κ → Prop}

theorem pure {x : α} {y : β} (h : Q x y) :
    Simulates S E Q (Pure.pure x : EStateM ε σ α) (Pure.pure y : EStateM δ τ β) :=
  fun _ _ hs => .ok h hs

theorem throw {e : ε} {d : δ} (h : E e d) :
    Simulates S E Q (MonadExcept.throw e : EStateM ε σ α)
      (MonadExcept.throw d : EStateM δ τ β) :=
  fun _ _ hs => .error h hs

theorem bind {a : EStateM ε σ α} {b : EStateM δ τ β} {k : α → EStateM ε σ γ}
    {l : β → EStateM δ τ κ} (ha : Simulates S E Q a b)
    (hk : ∀ x y, Q x y → Simulates S E Q' (k x) (l y)) :
    Simulates S E Q' (a >>= k) (b >>= l) := by
  intro s t hst
  have h := ha s t hst
  show Matches S E Q' (EStateM.bind a k s) (EStateM.bind b l t)
  unfold EStateM.bind
  generalize a s = r at h ⊢
  generalize b t = r' at h ⊢
  cases h with
  | ok hq hs => exact hk _ _ hq _ _ hs
  | error he hs => exact .error he hs

theorem get : Simulates S E S (MonadState.get : EStateM ε σ σ) (MonadState.get : EStateM δ τ τ) :=
  fun _ _ hs => .ok hs hs

theorem modify {f : σ → σ} {g : τ → τ} (h : ∀ s t, S s t → S (f s) (g t)) :
    Simulates S E Eq (modify f : EStateM ε σ PUnit) (modify g : EStateM δ τ PUnit) :=
  fun s t hs => .ok rfl (h s t hs)

theorem modifyGet {f : σ → α × σ} {g : τ → β × τ}
    (h : ∀ s t, S s t → Q (f s).1 (g t).1 ∧ S (f s).2 (g t).2) :
    Simulates S E Q (MonadState.modifyGet f : EStateM ε σ α)
      (MonadState.modifyGet g : EStateM δ τ β) :=
  fun s t hs => .ok (h s t hs).1 (h s t hs).2

end Simulates
end Simulates

/-- How far the references of one run are ahead of those of another. -/
structure Lead where
  texts : Nat
  arrays : Nat

def Lead.none : Lead := ⟨0, 0⟩

/-- What counts as the same in two runs. -/
structure Correspondence where
  /-- How far the first run is ahead. -/
  lead : Lead
  /-- The functions that stand for each other. -/
  Functions : Function → Function → Prop
  /-- The places that stand for each other. -/
  Spans : Span → Span → Prop
  /-- The causes for which the runs may fault. -/
  Allows : Fault.Cause → Prop
  id_eq : ∀ {f g : Function}, Functions f g → f.id = g.id
  params_eq : ∀ {f g : Function}, Functions f g → f.params.map (·.val) = g.params.map (·.val)
  allows_of_placed : ∀ {c : Fault.Cause}, ¬ c.IsMisplaced → Allows c

namespace Correspondence

variable (K : Correspondence)

/-- The reference in the first run for one in the second. -/
def textRef (r : TextRef) : TextRef :=
  ⟨r.index + K.lead.texts⟩

def arrayRef (r : ArrayRef) : ArrayRef :=
  ⟨r.index + K.lead.arrays⟩

/-- Values that are the same but for functions and references. -/
inductive Values : Value → Value → Prop
  | nil : Values .nil .nil
  | bool (b : Bool) : Values (.bool b) (.bool b)
  | float (x : Float) : Values (.float x) (.float x)
  | text (r : TextRef) : Values (.text (K.textRef r)) (.text r)
  | array (r : ArrayRef) : Values (.array (K.arrayRef r)) (.array r)
  | function {f g : Function} (h : K.Functions f g) : Values (.function f) (.function g)
  | native (n : Native) : Values (.native n) (.native n)

/-- Lists of corresponding values. -/
abbrev Lists : List Value → List Value → Prop :=
  List.Forall₂ K.Values

structure Heaps (h k : Heap) : Prop where
  texts : h.texts.size = k.texts.size + K.lead.texts
  text_eq : ∀ r, h.text (K.textRef r) = k.text r
  arrays : h.arrays.size = k.arrays.size + K.lead.arrays
  items : ∀ r, K.Lists (h.items (K.arrayRef r)).toList (k.items r).toList

/-- Bindings of the same name, alike in whether they may be assigned again. -/
structure Bindings (a b : String × Binding) : Prop where
  name : a.1 = b.1
  isMutable : a.2.isMutable = b.2.isMutable
  value : K.Values a.2.value b.2.value

/-- Frames of the shape `shape`, with corresponding bindings. -/
structure Frames (shape : List (List FrameId)) (s t : Scopes) : Prop where
  left : s.shape = shape
  right : t.shape = shape
  bindings : ∀ f, List.Forall₂ K.Bindings (s.bindings f) (t.bindings f)

structure Hosts (h k : Host) : Prop where
  heap : K.Heaps h.heap k.heap
  console : h.console = k.console

structure Worlds (shape : List (List FrameId)) (w v : World) : Prop where
  scopes : K.Frames shape w.scopes v.scopes
  host : K.Hosts w.host v.host

/-- Runs that stop for the same cause at corresponding places. -/
inductive Stops : Stop → Stop → Prop
  | fault {c : Fault.Cause} {a b : Span} (hc : K.Allows c) (hs : K.Spans a b) :
    Stops (.fault ⟨c, a⟩) (.fault ⟨c, b⟩)
  | outOfFuel : Stops .outOfFuel .outOfFuel

/-- Actions of natives that match. -/
abbrev Natives {α β : Type} (Q : α → β → Prop) (a : NativeAction α) (b : NativeAction β) : Prop :=
  Simulates K.Hosts Eq Q a b

/-- Actions that match, and leave the shape of the frames as it is. -/
abbrev Runs {α β : Type} (shape : List (List FrameId)) (Q : α → β → Prop) (a : Run α)
    (b : Run β) : Prop :=
  Simulates (K.Worlds shape) K.Stops Q a b

variable {K}

/-! ### Values -/

section

variable {v w : Value}

theorem Values.kind_eq (h : K.Values v w) : v.kind = w.kind := by
  cases h <;> rfl

theorem Values.truthy_eq (h : K.Values v w) : v.truthy = w.truthy := by
  cases h <;> rfl

theorem Values.toIndex?_eq (h : K.Values v w) : v.toIndex? = w.toIndex? := by
  cases h <;> rfl

theorem Values.toFloat?_eq (h : K.Values v w) : v.toFloat? = w.toFloat? := by
  cases h <;> rfl

theorem Values.describe_eq (h : K.Values v w) : v.describe = w.describe := by
  cases h <;> rfl

end

/-! ### Heaps -/

section

variable {h k : Heap}

theorem textRef_inj {r s : TextRef} : K.textRef r = K.textRef s ↔ r = s := by
  obtain ⟨i⟩ := r
  obtain ⟨j⟩ := s
  simp only [textRef, TextRef.mk.injEq]
  omega

theorem arrayRef_inj {r s : ArrayRef} : K.arrayRef r = K.arrayRef s ↔ r = s := by
  obtain ⟨i⟩ := r
  obtain ⟨j⟩ := s
  simp only [arrayRef, ArrayRef.mk.injEq]
  omega

theorem Heaps.items_size (hk : K.Heaps h k) (r : ArrayRef) :
    (h.items (K.arrayRef r)).size = (k.items r).size := by
  rw [← Buffer.length_toList, ← Buffer.length_toList]
  exact (hk.items r).length_eq

theorem Heaps.newText_ref (hk : K.Heaps h k) (b : Buffer Char) :
    (h.newText b).1 = K.textRef (k.newText b).1 := by
  simp only [Heap.newText, textRef, hk.texts]

theorem Heaps.newArray_ref (hk : K.Heaps h k) (b c : Buffer Value) :
    (h.newArray b).1 = K.arrayRef (k.newArray c).1 := by
  simp only [Heap.newArray, arrayRef, hk.arrays]

theorem Heaps.newText (hk : K.Heaps h k) (b : Buffer Char) :
    K.Heaps (h.newText b).2 (k.newText b).2 where
  texts := by
    rw [Heap.size_newText, Heap.size_newText, hk.texts, Nat.add_right_comm]
  text_eq r := by
    have hnew : (K.textRef r).index = h.texts.size ↔ r.index = k.texts.size := by
      rw [hk.texts, textRef, Nat.add_right_cancel_iff]
    rw [Heap.text_newText, Heap.text_newText, hk.text_eq]
    simp only [hnew]
  arrays := hk.arrays
  items := hk.items

theorem Heaps.newArray (hk : K.Heaps h k) {b c : Buffer Value}
    (hb : K.Lists b.toList c.toList) : K.Heaps (h.newArray b).2 (k.newArray c).2 where
  texts := hk.texts
  text_eq := hk.text_eq
  arrays := by
    rw [Heap.size_newArray, Heap.size_newArray, hk.arrays, Nat.add_right_comm]
  items r := by
    have hnew : (K.arrayRef r).index = h.arrays.size ↔ r.index = k.arrays.size := by
      rw [hk.arrays, arrayRef, Nat.add_right_cancel_iff]
    rw [Heap.items_newArray, Heap.items_newArray]
    simp only [hnew]
    split
    · exact hb
    · exact hk.items r

theorem Heaps.modifyText (hk : K.Heaps h k) (r : TextRef) (f : Buffer Char → Buffer Char) :
    K.Heaps (h.modifyText (K.textRef r) f) (k.modifyText r f) where
  texts := by rw [Heap.size_modifyText, Heap.size_modifyText, hk.texts]
  text_eq s := by
    have hat : (K.textRef r = K.textRef s ∧ (K.textRef s).index < h.texts.size) ↔
        r = s ∧ s.index < k.texts.size := by
      rw [textRef_inj, hk.texts, textRef, Nat.add_lt_add_iff_right]
    rw [Heap.text_modifyText, Heap.text_modifyText, hk.text_eq]
    simp only [hat]
  arrays := hk.arrays
  items := hk.items

theorem Heaps.modifyArray (hk : K.Heaps h k) (r : ArrayRef) {f g : Buffer Value → Buffer Value}
    (hf : ∀ b c : Buffer Value, K.Lists b.toList c.toList → K.Lists (f b).toList (g c).toList) :
    K.Heaps (h.modifyArray (K.arrayRef r) f) (k.modifyArray r g) where
  texts := hk.texts
  text_eq := hk.text_eq
  arrays := by rw [Heap.size_modifyArray, Heap.size_modifyArray, hk.arrays]
  items s := by
    have hat : (K.arrayRef r = K.arrayRef s ∧ (K.arrayRef s).index < h.arrays.size) ↔
        r = s ∧ s.index < k.arrays.size := by
      rw [arrayRef_inj, hk.arrays, arrayRef, Nat.add_lt_add_iff_right]
    rw [Heap.items_modifyArray, Heap.items_modifyArray]
    simp only [hat]
    split
    · exact hf _ _ (hk.items s)
    · exact hk.items s

/-- Corresponding lists are rendered alike if their items are. -/
theorem map_render_eq {xs ys : List Value} {f g : Value → String} (hxy : K.Lists xs ys)
    (hfg : ∀ v w, K.Values v w → f v = g w) : xs.map f = ys.map g := by
  induction hxy with
  | nil => rfl
  | cons hv _ ih => rw [List.map_cons, List.map_cons, hfg _ _ hv, ih]

theorem renderNested_eq (hk : K.Heaps h k) (fuel : Nat) (opened : List ArrayRef) {v w : Value}
    (hv : K.Values v w) :
    h.renderNested fuel (opened.map K.arrayRef) v = k.renderNested fuel opened w := by
  have hopened : ∀ {r}, K.arrayRef r ∈ opened.map K.arrayRef ↔ r ∈ opened :=
    List.mem_map_of_injective fun _ _ => arrayRef_inj.mp
  induction fuel generalizing opened v w with
  | zero =>
    cases hv with
    | function hf => simp only [Heap.renderNested, K.params_eq hf]
    | text r => simp only [Heap.renderNested, hk.text_eq]
    | array r => simp only [Heap.renderNested, hopened]
    | _ => simp only [Heap.renderNested]
  | succ fuel ih =>
    cases hv with
    | function hf => simp only [Heap.renderNested, K.params_eq hf]
    | text r => simp only [Heap.renderNested, hk.text_eq]
    | array r =>
      have hinside : ∀ {s}, K.arrayRef s ∈ (r :: opened).map K.arrayRef ↔ s ∈ r :: opened :=
        List.mem_map_of_injective fun _ _ => arrayRef_inj.mp
      simp only [Heap.renderNested, hopened]
      rw [← List.map_cons, map_render_eq (hk.items r) fun v w hvw => ih (r :: opened) hvw hinside]
    | _ => simp only [Heap.renderNested]

/-- Corresponding values are rendered alike. -/
theorem render_eq (hk : K.Heaps h k) {v w : Value} (hv : K.Values v w) :
    h.render v = k.render w := by
  -- the heap with more arrays has the greater bound, but neither is reached
  have hnested : h.renderNested (h.arrays.size + 1) [] v =
      k.renderNested (k.arrays.size + 1) [] w := by
    refine (renderNested_eq hk _ [] hv).trans ?_
    refine Heap.renderNested_fuel List.nodup_nil nofun ?_ (Nat.lt_succ_self _) w
    rw [hk.arrays, List.length_nil]
    omega
  cases hv with
  | text r => simp only [Heap.render, hk.text_eq]
  | _ => exact hnested

section

variable {R S : Value → Value → Prop}

theorem forall₂_rel {V : Value → Value → Prop} {xs ys xs' ys' : List Value}
    (hx : List.Forall₂ V xs xs') (hy : List.Forall₂ V ys ys') (hxy : List.Forall₂ R xs ys)
    (hRS : ∀ x y x' y', V x x' → V y y' → R x y → S x' y') : List.Forall₂ S xs' ys' := by
  induction hxy generalizing xs' ys' with
  | nil =>
    cases hx
    cases hy
    exact .nil
  | cons hr _ ih =>
    cases hx with
    | cons hv hx =>
      cases hy with
      | cons hw hy => exact .cons (hRS _ _ _ _ hv hw hr) (ih hx hy)

/-- The clauses of equality carry over to the second run. -/
theorem Heaps.related (hk : K.Heaps h k) {v v' w w' : Value} (hv : K.Values v v')
    (hw : K.Values w w') (hRS : ∀ x y x' y', K.Values x x' → K.Values y y' → R x y → S x' y')
    (hvw : h.Related R v w) : k.Related S v' w' := by
  cases hv <;> cases hw <;> try exact hvw
  · rename_i r s
    rcases hvw with heq | heq
    · exact .inl (textRef_inj.mp heq)
    · rw [hk.text_eq, hk.text_eq] at heq
      exact .inr heq
  · rename_i r s
    rcases hvw with heq | hitems
    · exact .inl (arrayRef_inj.mp heq)
    · exact .inr (forall₂_rel (hk.items r) (hk.items s) hitems hRS)
  · rename_i hf _ _ hg
    exact (K.id_eq hf).symm.trans (Eq.trans hvw (K.id_eq hg))

/-- The clauses of equality carry over to the first run. -/
theorem Heaps.related_of (hk : K.Heaps h k) {v v' w w' : Value} (hv : K.Values v v')
    (hw : K.Values w w') (hRS : ∀ x' y' x y, K.Values x x' → K.Values y y' → R x' y' → S x y)
    (hvw : k.Related R v' w') : h.Related S v w := by
  cases hv <;> cases hw <;> try exact hvw
  · rename_i r s
    rcases hvw with heq | heq
    · exact .inl (textRef_inj.mpr heq)
    · rw [← hk.text_eq, ← hk.text_eq] at heq
      exact .inr heq
  · rename_i r s
    rcases hvw with heq | hitems
    · exact .inl (arrayRef_inj.mpr heq)
    · exact .inr (forall₂_rel (hk.items r).flip (hk.items s).flip hitems hRS)
  · rename_i hf _ _ hg
    exact (K.id_eq hf).trans (Eq.trans hvw (K.id_eq hg).symm)

end

/-- Corresponding values are equal to corresponding values. -/
theorem equal_eq (hk : K.Heaps h k) {v v' w w' : Value} (hv : K.Values v v')
    (hw : K.Values w w') : h.equal v w = k.equal v' w' := by
  -- equality in one heap, carried over to the other, satisfies the clauses of equality there
  rw [Bool.eq_iff_iff]
  constructor
  · intro hvw
    refine Heap.equal_of_related
      (S := fun x' y' => ∃ x y, K.Values x x' ∧ K.Values y y' ∧ h.equal x y = true) ?_
      ⟨v, w, hv, hw, hvw⟩
    rintro x' y' ⟨x, y, hx, hy, hxy⟩
    exact hk.related hx hy (fun a b a' b' ha hb hab => ⟨a, b, ha, hb, hab⟩)
      (Heap.related_of_equal hxy)
  · intro hvw
    refine Heap.equal_of_related
      (S := fun x y => ∃ x' y', K.Values x x' ∧ K.Values y y' ∧ k.equal x' y' = true) ?_
      ⟨v', w', hv, hw, hvw⟩
    rintro x y ⟨x', y', hx, hy, hxy⟩
    exact hk.related_of hx hy (fun a' b' a b ha hb hab => ⟨a', b', ha, hb, hab⟩)
      (Heap.related_of_equal hxy)

end

/-! ### Names -/

section

variable {shape : List (List FrameId)} {s t : Scopes}

theorem Frames.chain_eq (hs : K.Frames shape s t) (f : FrameId) : s.chain f = t.chain f := by
  rw [Scopes.chain_eq, Scopes.chain_eq, hs.left, hs.right]

theorem Frames.isGlobal_eq (hs : K.Frames shape s t) (f : FrameId) :
    s.isGlobal f = t.isGlobal f := by
  rw [Scopes.isGlobal_eq, Scopes.isGlobal_eq, hs.left, hs.right]

theorem Frames.target?_eq (hs : K.Frames shape s t) (env : FrameId) (global : Bool) :
    s.target? env global = t.target? env global := by
  have hg : s.global env = t.global env := by
    rw [Scopes.global_eq, Scopes.global_eq, Scopes.outer_eq, Scopes.outer_eq, hs.left, hs.right]
  rw [Scopes.target?, Scopes.target?, hs.isGlobal_eq, hg]

theorem names_eq (hs : K.Frames shape s t) (f : FrameId) : s.names f = t.names f := by
  have h := hs.bindings f
  show (s.bindings f).map (·.1) = (t.bindings f).map (·.1)
  generalize s.bindings f = bs at h ⊢
  generalize t.bindings f = cs at h ⊢
  induction h with
  | nil => rfl
  | cons hb _ ih => rw [List.map_cons, List.map_cons, hb.name, ih]

theorem visibleNames_eq (hs : K.Frames shape s t) (f : FrameId) :
    s.visibleNames f = t.visibleNames f := by
  rw [Scopes.visibleNames_eq, Scopes.visibleNames_eq, hs.chain_eq]
  exact List.map_congr_left fun g _ => names_eq hs g

/-- What a name is bound to in corresponding frames: both bind it, or neither. -/
abbrev Found : Option Binding → Option Binding → Prop :=
  Option.Rel fun a b => a.isMutable = b.isMutable ∧ K.Values a.value b.value

theorem lookup_rel {bs cs : List (String × Binding)} (h : List.Forall₂ K.Bindings bs cs)
    (x : String) : Found (K := K) (bs.lookup x) (cs.lookup x) := by
  induction h with
  | nil => exact .none
  | @cons b c _ _ hb _ ih =>
    obtain ⟨y, b⟩ := b
    obtain ⟨z, c⟩ := c
    obtain rfl : y = z := hb.name
    rw [List.lookup_cons, List.lookup_cons]
    cases x == y with
    | true => exact .some ⟨hb.isMutable, hb.value⟩
    | false => exact ih

theorem find?_rel (hs : K.Frames shape s t) (f : FrameId) (x : String) :
    Found (K := K) (s.find? f x) (t.find? f x) :=
  lookup_rel (hs.bindings f) x

theorem lookup?_rel (hs : K.Frames shape s t) (f : FrameId) (x : String) :
    Found (K := K) (s.lookup? f x) (t.lookup? f x) := by
  rw [Scopes.lookup?_eq, Scopes.lookup?_eq, hs.chain_eq]
  induction t.chain f with
  | nil => exact .none
  | cons g gs ih =>
    have h := find?_rel hs g x
    rw [List.findSome?_cons, List.findSome?_cons]
    generalize s.find? g x = a at h ⊢
    generalize t.find? g x = b at h ⊢
    cases h with
    | none => exact ih
    | some h => exact .some h

theorem bindings_go {bs cs : List (String × Binding)} (h : List.Forall₂ K.Bindings bs cs)
    {x : String} {b c : Binding} (hb : K.Bindings (x, b) (x, c)) :
    List.Forall₂ K.Bindings (Frame.add.go x b bs) (Frame.add.go x c cs) := by
  induction h with
  | nil => exact .cons hb .nil
  | @cons b' c' _ _ hb' hrest ih =>
    obtain ⟨y, b'⟩ := b'
    obtain ⟨z, c'⟩ := c'
    obtain rfl : y = z := hb'.name
    simp only [Frame.add.go]
    split
    · exact .cons hb hrest
    · exact .cons hb' ih

theorem Frames.add (hs : K.Frames shape s t) (f : FrameId) {x : String} {b c : Binding}
    (hb : K.Bindings (x, b) (x, c)) : K.Frames shape (s.add f x b) (t.add f x c) where
  left := by rw [Scopes.shape_add, hs.left]
  right := by rw [Scopes.shape_add, hs.right]
  bindings g := by
    rw [Scopes.bindings_add, Scopes.bindings_add, hs.left, hs.right]
    split
    · exact bindings_go (hs.bindings g) hb
    · exact hs.bindings g

theorem Frames.replace (hs : K.Frames shape s t) (f : FrameId) {x : String} {b c : Binding}
    (hb : K.Bindings (x, b) (x, c)) : K.Frames shape (s.replace f x b) (t.replace f x c) where
  left := by rw [Scopes.shape_replace, hs.left]
  right := by rw [Scopes.shape_replace, hs.right]
  bindings g := by
    have hf : (s.find? g x).isSome = (t.find? g x).isSome := by
      have h := find?_rel hs g x
      generalize s.find? g x = a at h ⊢
      generalize t.find? g x = b at h ⊢
      cases h <;> rfl
    rw [Scopes.bindings_replace, Scopes.bindings_replace, hs.left, hs.right, hf]
    split
    · exact bindings_go (hs.bindings g) hb
    · exact hs.bindings g

theorem filter_name {bs cs : List (String × Binding)} (h : List.Forall₂ K.Bindings bs cs)
    (x : String) :
    List.Forall₂ K.Bindings (bs.filter (·.1 != x)) (cs.filter (·.1 != x)) := by
  refine List.rel_filter ?_ h
  intro b c hb
  dsimp only
  rw [hb.name]

theorem Frames.remove (hs : K.Frames shape s t) (f : FrameId) (x : String) :
    K.Frames shape (s.remove f x) (t.remove f x) where
  left := by rw [Scopes.shape_remove, hs.left]
  right := by rw [Scopes.shape_remove, hs.right]
  bindings g := by
    rw [Scopes.bindings_remove, Scopes.bindings_remove, hs.left, hs.right]
    split
    · exact filter_name (hs.bindings g) x
    · exact hs.bindings g

theorem Frames.child (hs : K.Frames shape s t) (f : FrameId) :
    K.Frames (shape ++ [Scopes.around shape f]) (s.child f).2 (t.child f).2 where
  left := by rw [Scopes.shape_child, hs.left]
  right := by rw [Scopes.shape_child, hs.right]
  bindings g := by
    rw [Scopes.bindings_child, Scopes.bindings_child, hs.left, hs.right]
    split
    · exact .nil
    · exact hs.bindings g

theorem Frames.nonempty (hs : K.Frames shape s t) : 0 < shape.length := by
  rw [← hs.left, Scopes.length_shape]
  exact s.nonempty

theorem Frames.leave {outer : List FrameId} (hshape : 0 < shape.length)
    (hs : K.Frames (shape ++ [outer]) s t) : K.Frames shape s.leave t.leave := by
  have hleft := Scopes.one_lt_size_of_shape hshape hs.left
  have hright := Scopes.one_lt_size_of_shape hshape hs.right
  refine ⟨?_, ?_, fun g => ?_⟩
  · rw [Scopes.shape_leave hleft, hs.left, List.dropLast_concat]
  · rw [Scopes.shape_leave hright, hs.right, List.dropLast_concat]
  · rw [Scopes.bindings_leave hleft, Scopes.bindings_leave hright, hs.left, hs.right]
    split
    · exact hs.bindings g
    · exact .nil

end

end Correspondence
end Scriptlet
