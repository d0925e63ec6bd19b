import Mathlib.Data.List.Basic
import Mathlib.Data.List.GetD
import Scriptlet.Proofs.Store

/-!
The laws of scope chains.

The parents that are met on the way outwards from a frame (`Scopes.Ascent`) are its chain, and a name is
looked up in the nearest of them that binds it. Frames are opened inside frames that are there already,
so the way leads to the global frame (`Scopes.Rooted`, which every operation preserves).

Hence a write in one frame can be seen from another one only if it is on the way from there, and if the
name is not bound in a frame before it (`Scopes.Exposes`, `Scopes.Writes.lookup?_eq`). Then the write is
what is seen (`Scopes.Writes.lookup?_exposed`).
-/
namespace Scriptlet.Scopes

variable {s t : Scopes} {f g : FrameId} {x y : String} {b : Binding}

/-! ### Histories -/

/-- Scopes that come about from one global frame: a frame is opened inside one that is there, a name is
bound, bound anew or forgotten in a frame, and the newest frame is closed again. -/
inductive Grown : Scopes → Prop
  | start (bindings : List (String × Binding)) : Grown (start bindings)
  | child {s : Scopes} (h : Grown s) {f : FrameId} (hf : f < s.frames.size) : Grown (s.child f).2
  | add {s : Scopes} (h : Grown s) (f : FrameId) (x : String) (b : Binding) : Grown (s.add f x b)
  | replace {s : Scopes} (h : Grown s) (f : FrameId) (x : String) (b : Binding) :
    Grown (s.replace f x b)
  | remove {s : Scopes} (h : Grown s) (f : FrameId) (x : String) : Grown (s.remove f x)
  | leave {s : Scopes} (h : Grown s) (hs : 1 < s.frames.size) : Grown s.leave

/-- Every frame but the global one has a parent. -/
def Rooted (s : Scopes) : Prop :=
  ∀ f, 0 < f → f < s.frames.size → ∃ p, s.parent? f = some p

theorem parent?_eq (s : Scopes) (f : FrameId) : s.parent? f = (s.shape.getD f []).head? := by
  rw [parent?_eq_head?, outer_eq]

namespace Rooted

theorem start (bindings : List (String × Binding)) : (start bindings).Rooted :=
  fun _ hpos hlt => absurd hpos (Nat.not_lt.mpr (Nat.le_of_lt_succ hlt))

/-- Only the shape matters. -/
theorem of_shape_eq (hs : s.Rooted) (h : t.shape = s.shape) : t.Rooted := by
  intro f hpos hf
  rw [← length_shape, h, length_shape] at hf
  rw [parent?_eq, h, ← parent?_eq]
  exact hs f hpos hf

theorem child (hs : s.Rooted) (hf : f < s.frames.size) : (s.child f).2.Rooted := by
  intro g hpos hg
  have hsize : (s.child f).2.frames.size = s.frames.size + 1 := by simp [Scopes.child]
  rw [hsize] at hg
  rw [parent?_child]
  rcases Nat.lt_succ_iff_lt_or_eq.mp hg with hg | rfl
  · rw [if_neg (Nat.ne_of_lt hg)]
    exact hs g hpos hg
  · -- the new frame is inside `f`
    rw [if_pos rfl, link?, if_pos hf]
    exact ⟨f, rfl⟩

theorem leave (hs : s.Rooted) (hsize : 1 < s.frames.size) : s.leave.Rooted := by
  intro g hpos hg
  have hleft : s.leave.frames.size = s.frames.size - 1 := by simp [leave_eq hsize]
  rw [hleft] at hg
  rw [parent?_leave hsize, if_pos hg]
  exact hs g hpos (Nat.lt_of_lt_of_le hg (Nat.sub_le _ _))

end Rooted

theorem Grown.rooted (h : s.Grown) : s.Rooted := by
  induction h with
  | start bindings => exact .start bindings
  | child _ hf ih => exact ih.child hf
  | add _ f x b ih => exact ih.of_shape_eq (shape_add _ f x b)
  | replace _ f x b ih => exact ih.of_shape_eq (shape_replace _ f x b)
  | remove _ f x ih => exact ih.of_shape_eq (shape_remove _ f x)
  | leave _ hs ih => exact ih.leave hs

/-! ### The way outwards -/

/-- From a frame to its parent, to the parent of this one, and so on, up to a frame without a parent:
these are all frames on the way. -/
inductive Ascent (s : Scopes) : FrameId → List FrameId → Prop
  | last {f : FrameId} (h : s.parent? f = none) : Ascent s f [f]
  | cons {f g : FrameId} {path : List FrameId} (h : s.parent? f = some g) (rest : Ascent s g path) :
    Ascent s f (f :: path)

theorem Ascent.unique {path path' : List FrameId} (h : s.Ascent f path) (h' : s.Ascent f path') :
    path = path' := by
  induction h generalizing path' with
  | last h =>
    cases h' with
    | last => rfl
    | cons h' => cases h.symm.trans h'
  | cons h _ ih =>
    cases h' with
    | last h' => cases h.symm.trans h'
    | cons h' rest' =>
      obtain rfl := Option.some.inj (h.symm.trans h')
      rw [ih rest']

/-- The parents of a frame are met in the order of its chain. -/
theorem ascent (s : Scopes) (f : FrameId) : s.Ascent f (s.chain f) := by
  induction f using s.ascend with
  | step f ih =>
    cases hp : s.parent? f with
    | none =>
      rw [chain_of_none hp]
      exact .last hp
    | some p =>
      rw [chain_of_some hp]
      exact .cons hp (ih p hp)

theorem le_of_mem_chain (hg : g ∈ s.chain f) : g ≤ f := by
  induction f using s.ascend with
  | step f ih =>
    cases hp : s.parent? f with
    | none =>
      rw [chain_of_none hp] at hg
      exact Nat.le_of_eq (List.mem_singleton.mp hg)
    | some p =>
      rw [chain_of_some hp] at hg
      rcases List.mem_cons.mp hg with rfl | hg
      · exact Nat.le_refl g
      · exact Nat.le_trans (ih p hp hg) (Nat.le_of_lt (parent?_lt hp))

/-- Outwards, frames become older. -/
theorem pairwise_chain (s : Scopes) (f : FrameId) : (s.chain f).Pairwise (· > ·) := by
  induction f using s.ascend with
  | step f ih =>
    cases hp : s.parent? f with
    | none =>
      rw [chain_of_none hp]
      exact List.pairwise_singleton _ _
    | some p =>
      rw [chain_of_some hp]
      refine List.pairwise_cons.mpr ⟨fun g hg => ?_, ih p hp⟩
      exact Nat.lt_of_le_of_lt (le_of_mem_chain hg) (parent?_lt hp)

theorem lt_of_append {inner outer : List FrameId} (h : s.chain f = inner ++ g :: outer) {k : FrameId}
    (hk : k ∈ inner) : g < k := by
  have hpairwise := s.pairwise_chain f
  rw [h] at hpairwise
  exact (List.pairwise_append.mp hpairwise).2.2 k hk g List.mem_cons_self

/-- The rest of a chain is the chain of the frame that it begins with. -/
theorem chain_of_append {inner outer : List FrameId} (h : s.chain f = inner ++ g :: outer) :
    s.chain g = g :: outer := by
  induction f using s.ascend generalizing inner with
  | step f ih =>
    rcases List.cons_eq_append_iff.mp ((s.chain_eq_cons f).symm.trans h) with
      ⟨rfl, hrest⟩ | ⟨rest, rfl, hrest⟩
    · obtain ⟨rfl, rfl⟩ := List.cons.inj hrest
      exact s.chain_eq_cons g
    · cases hp : s.parent? f with
      | none =>
        rw [outer_of_none hp] at hrest
        exact absurd hrest.symm (List.append_ne_nil_of_right_ne_nil _ (List.cons_ne_nil _ _))
      | some p =>
        rw [outer_of_some hp, ← chain_eq_cons] at hrest
        exact ih p hp hrest

namespace Rooted

/-- All frames lead to the global one. -/
theorem getLast?_chain (hs : s.Rooted) (hf : f < s.frames.size) : (s.chain f).getLast? = some 0 := by
  induction f using s.ascend with
  | step f ih =>
    rcases Nat.eq_zero_or_pos f with rfl | hpos
    · have hp : s.parent? 0 = none :=
        Option.eq_none_iff_forall_ne_some.mpr fun p hp => Nat.not_lt_zero p (parent?_lt hp)
      rw [chain_of_none hp]
      rfl
    · obtain ⟨p, hp⟩ := hs f hpos hf
      rw [chain_of_some hp, List.getLast?_cons, ih p hp (Nat.lt_trans (parent?_lt hp) hf)]
      rfl

theorem global_eq_zero (hs : s.Rooted) (hf : f < s.frames.size) : s.global f = 0 := by
  have hlast := hs.getLast?_chain hf
  rw [chain_eq_cons, List.getLast?_cons] at hlast
  rw [global_eq, List.getLastD_eq_getLast?]
  exact Option.some.inj hlast

end Rooted

/-! ### Looking up a name -/

/-- From a frame, a name is looked for as far as this frame: it is on the chain, and no frame before it
binds the name. -/
def Exposes (s : Scopes) (f g : FrameId) (x : String) : Prop :=
  ∃ inner outer, s.chain f = inner ++ g :: outer ∧ ∀ h ∈ inner, s.find? h x = none

theorem Exposes.mem_chain (h : s.Exposes f g x) : g ∈ s.chain f := by
  obtain ⟨inner, outer, hchain, -⟩ := h
  rw [hchain]
  exact List.mem_append_right inner List.mem_cons_self

/-- A name that is not bound in the frame itself is looked for in the parent. -/
theorem lookup?_eq_or (s : Scopes) (f : FrameId) (x : String) :
    s.lookup? f x = (s.find? f x).or ((s.parent? f).bind (s.lookup? · x)) := by
  cases hx : s.find? f x with
  | some b => rw [lookup?_of_some hx, Option.some_or]
  | none => rw [lookup?_of_none hx, Option.none_or]

/-- Where a name is looked for as far as a frame, what is found is what is found from that frame. -/
theorem lookup?_of_exposes (h : s.Exposes f g x) : s.lookup? f x = s.lookup? g x := by
  obtain ⟨inner, outer, hchain, hinner⟩ := h
  rw [lookup?_eq, lookup?_eq, chain_of_append hchain, hchain, List.findSome?_append,
    List.findSome?_eq_none_iff.mpr hinner, Option.none_or]

/-- What is found is bound in the nearest frame that binds the name. -/
theorem lookup?_eq_some_iff :
    s.lookup? f x = some b ↔ ∃ inner g outer, s.chain f = inner ++ g :: outer ∧
      s.find? g x = some b ∧ ∀ h ∈ inner, s.find? h x = none := by
  rw [lookup?_eq]
  exact List.findSome?_eq_some_iff

theorem lookup?_eq_none_iff : s.lookup? f x = none ↔ ∀ g ∈ s.chain f, s.find? g x = none := by
  rw [lookup?_eq]
  exact List.findSome?_eq_none_iff

/-! ### Writing a name -/

/-- What a single write of a name in a frame leads to. -/
inductive Writes (s : Scopes) (g : FrameId) (x : String) : Scopes → Prop
  | add (b : Binding) : Writes s g x (s.add g x b)
  | replace (b : Binding) : Writes s g x (s.replace g x b)
  | remove : Writes s g x (s.remove g x)

namespace Writes

theorem shape_eq (h : s.Writes g x t) : t.shape = s.shape := by
  cases h with
  | add b => exact shape_add s g x b
  | replace b => exact shape_replace s g x b
  | remove => exact shape_remove s g x

theorem chain_eq (h : s.Writes g x t) (f : FrameId) : t.chain f = s.chain f := by
  rw [Scopes.chain_eq, Scopes.chain_eq, h.shape_eq]

/-- Other frames and other names are not touched. -/
theorem find?_eq (h : s.Writes g x t) (hother : g = f → y ≠ x) : t.find? f y = s.find? f y := by
  cases h with
  | add b => rw [find?_add, if_neg fun hc => hother hc.1 hc.2.2]
  | replace b => rw [find?_replace, if_neg fun hc => hother hc.1 hc.2.2.2]
  | remove => rw [find?_remove, if_neg fun hc => hother hc.1 hc.2.2]

theorem findSome?_eq (h : s.Writes g x t) {frames : List FrameId} (hother : g ∈ frames → y ≠ x) :
    frames.findSome? (t.find? · y) = frames.findSome? (s.find? · y) := by
  have hfind : ∀ f ∈ frames, t.find? f y = s.find? f y :=
    fun f hf => h.find?_eq fun heq => hother (heq ▸ hf)
  rw [← List.head?_filterMap, ← List.head?_filterMap, List.filterMap_congr hfind]

/-- **A write is seen only where nothing hides it.** -/
theorem lookup?_eq (h : s.Writes g x t) (hhidden : y = x → ¬ s.Exposes f g x) :
    t.lookup? f y = s.lookup? f y := by
  rw [Scopes.lookup?_eq, Scopes.lookup?_eq, h.chain_eq]
  by_cases hwritten : g ∈ s.chain f ∧ y = x
  · obtain ⟨hg, rfl⟩ := hwritten
    -- a frame before the first `g` binds the name
    obtain ⟨inner, outer, hchain, hinner⟩ := List.eq_append_cons_of_mem hg
    have hbound : (inner.findSome? (s.find? · y)).isSome := by
      rw [Option.isSome_iff_ne_none]
      intro hnone
      exact hhidden rfl ⟨inner, outer, hchain, List.findSome?_eq_none_iff.mp hnone⟩
    rw [hchain, List.findSome?_append, List.findSome?_append, h.findSome?_eq fun hg => absurd hg hinner,
      Option.or_of_isSome hbound, Option.or_of_isSome hbound]
  · exact h.findSome?_eq fun hg hy => hwritten ⟨hg, hy⟩

/-- A write does not hide itself: the frames before its own are newer, so they are as they were. -/
theorem exposes (h : s.Writes g x t) (hexposes : s.Exposes f g x) : t.Exposes f g x := by
  obtain ⟨inner, outer, hchain, hinner⟩ := hexposes
  refine ⟨inner, outer, (h.chain_eq f).trans hchain, fun k hk => ?_⟩
  rw [h.find?_eq fun heq => absurd heq (Nat.ne_of_lt (lt_of_append hchain hk)), hinner k hk]

/-- From the parent of its frame a write is not seen. -/
theorem bind_parent?_eq (h : s.Writes g x t) :
    (t.parent? g).bind (t.lookup? · x) = (s.parent? g).bind (s.lookup? · x) := by
  rw [parent?_eq, h.shape_eq, ← parent?_eq]
  cases hp : s.parent? g with
  | none => rfl
  | some p =>
    have holder : ¬ s.Exposes p g x := by
      intro hexposes
      exact Nat.not_le_of_lt (parent?_lt hp) (le_of_mem_chain hexposes.mem_chain)
    rw [Option.bind_some, Option.bind_some, h.lookup?_eq fun _ => holder]

/-- Where nothing hides it, a write is what is seen: what its frame binds, or else what is seen from the
parent of the frame. -/
theorem lookup?_exposed (h : s.Writes g x t) (hexposes : s.Exposes f g x) :
    t.lookup? f x = (t.find? g x).or ((s.parent? g).bind (s.lookup? · x)) := by
  rw [lookup?_of_exposes (h.exposes hexposes), lookup?_eq_or, h.bind_parent?_eq]

end Writes

namespace Exposes

variable (h : s.Exposes f g x) (hf : f < s.frames.size)
include h hf

theorem lt_length : g < s.shape.length := by
  rw [length_shape]
  exact Nat.lt_of_le_of_lt (le_of_mem_chain h.mem_chain) hf

theorem lookup?_add (b : Binding) : (s.add g x b).lookup? f x = some b := by
  rw [(Writes.add b).lookup?_exposed h, find?_add, if_pos ⟨rfl, h.lt_length hf, rfl⟩]
  rfl

theorem lookup?_replace (b : Binding) :
    (s.replace g x b).lookup? f x = if (s.find? g x).isSome then some b else s.lookup? f x := by
  rw [(Writes.replace b).lookup?_exposed h, find?_replace]
  by_cases hbound : (s.find? g x).isSome
  · rw [if_pos ⟨rfl, h.lt_length hf, hbound, rfl⟩, if_pos hbound]
    rfl
  · rw [if_neg fun hc => hbound hc.2.2.1, if_neg hbound, lookup?_of_exposes h, lookup?_eq_or]

theorem lookup?_remove : (s.remove g x).lookup? f x = (s.parent? g).bind (s.lookup? · x) := by
  rw [Writes.remove.lookup?_exposed h, find?_remove, if_pos ⟨rfl, h.lt_length hf, rfl⟩]
  rfl

end Exposes

/-- A name is bound anew only where it is bound. -/
theorem isSome_find?_replace :
    ((s.replace g x b).find? f y).isSome = (s.find? f y).isSome := by
  rw [find?_replace]
  split
  · rename_i hbound
    obtain ⟨rfl, -, hbound, rfl⟩ := hbound
    exact hbound.symm
  · rfl

theorem isSome_lookup?_replace :
    ((s.replace g x b).lookup? f y).isSome = (s.lookup? f y).isSome := by
  rw [Bool.eq_iff_iff, lookup?_eq, lookup?_eq, List.findSome?_isSome_iff, List.findSome?_isSome_iff,
    (Writes.replace b).chain_eq]
  simp only [isSome_find?_replace]

/-- **The laws of scope chains**, after any history. The parents of a frame lead to the global frame.
A name is looked up in the nearest frame on the way that binds it. A write in a frame is seen just from
where it is on the way and no nearer frame binds the name; then a binding that is added is what is found,
and one that is removed uncovers what is found from the parent. Binding anew binds nothing new. -/
theorem chain_laws (hs : s.Grown) :
    (∀ f < s.frames.size,
      s.Ascent f (s.chain f) ∧ (s.chain f).getLast? = some 0 ∧ s.global f = 0) ∧
    (∀ f < s.frames.size, ∀ path, s.Ascent f path → ∀ x,
      (∀ b, s.lookup? f x = some b ↔ ∃ inner g outer, path = inner ++ g :: outer ∧
        s.find? g x = some b ∧ ∀ h ∈ inner, s.find? h x = none) ∧
      (s.lookup? f x = none ↔ ∀ g ∈ path, s.find? g x = none)) ∧
    (∀ g x t, s.Writes g x t → ∀ f y, t.lookup? f y ≠ s.lookup? f y → y = x ∧ s.Exposes f g x) ∧
    (∀ f < s.frames.size, ∀ g x, s.Exposes f g x →
      (∀ b, (s.add g x b).lookup? f x = some b) ∧
      (∀ b, (s.replace g x b).lookup? f x =
        if (s.find? g x).isSome then some b else s.lookup? f x) ∧
      (s.remove g x).lookup? f x = (s.parent? g).bind (s.lookup? · x)) ∧
    ∀ f g x y b, ((s.replace g x b).find? f y).isSome = (s.find? f y).isSome ∧
      ((s.replace g x b).lookup? f y).isSome = (s.lookup? f y).isSome := by
  have hroot := hs.rooted
  refine ⟨fun f hf => ?_, fun f hf path hpath x => ?_, fun g x t ht f y hne => ?_,
    fun f hf g x hexposes => ?_, fun f g x y b => ?_⟩
  · exact ⟨s.ascent f, hroot.getLast?_chain hf, hroot.global_eq_zero hf⟩
  · obtain rfl := hpath.unique (s.ascent f)
    exact ⟨fun b => lookup?_eq_some_iff, lookup?_eq_none_iff⟩
  · by_contra hhidden
    exact hne (ht.lookup?_eq fun hy hexposes => hhidden ⟨hy, hexposes⟩)
  · exact ⟨hexposes.lookup?_add hf, hexposes.lookup?_replace hf, hexposes.lookup?_remove hf⟩
  · exact ⟨isSome_find?_replace, isSome_lookup?_replace⟩

/-- Two frames inside one that hides a global name: a write in the global frame is not seen from them,
and when the hiding binding is removed the global one is. -/
theorem chain_laws_shadowed :
    let far : Binding := ⟨.bool false, true⟩
    let near : Binding := ⟨.bool true, false⟩
    let s := ((((start [("x", far)]).child 0).2.child 1).2.child 1).2.add 1 "x" near
    s.Grown ∧ s.global 3 = 0 ∧ s.Ascent 3 [3, 1, 0] ∧ s.lookup? 3 "x" = some near ∧
      (∀ b, (s.add 0 "x" b).lookup? 3 "x" = some near) ∧
      s.Exposes 3 1 "x" ∧ (s.remove 1 "x").lookup? 3 "x" = some far := by
  intro far near s
  have hgrown : s.Grown :=
    ((((Grown.start [("x", far)]).child (f := 0) (by decide)).child (f := 1) (by decide)).child
      (f := 1) (by decide)).add 1 "x" near
  obtain ⟨hchains, hlookup, hwrites, hexposed, -⟩ := chain_laws hgrown
  obtain ⟨hascent, -, hglobal⟩ := hchains 3 (by decide)
  have hchain : s.chain 3 = [3, 1, 0] := by
    rw [chain_of_some (p := 1) rfl, chain_of_some (p := 0) rfl, chain_of_none rfl]
  rw [hchain] at hascent
  have hempty : ∀ f ∈ [3], s.find? f "x" = none := by
    intro f hf
    cases List.mem_singleton.mp hf
    rfl
  have hnear : s.lookup? 3 "x" = some near :=
    ((hlookup 3 (by decide) _ hascent "x").1 near).mpr ⟨[3], 1, [0], rfl, rfl, hempty⟩
  have hexposes : s.Exposes 3 1 "x" := ⟨[3], [0], hchain, hempty⟩
  refine ⟨hgrown, hglobal, hascent, hnear, fun b => ?_, hexposes,
    (hexposed 3 (by decide) 1 "x" hexposes).2.2.trans ?_⟩
  · by_contra hne
    obtain ⟨-, inner, outer, hpath, hinner⟩ := hwrites 0 "x" _ (.add b) 3 "x" (by rwa [hnear])
    have hbefore : 1 ∈ inner := by
      rw [hchain] at hpath
      rcases inner with _ | ⟨a, _ | ⟨c, inner⟩⟩ <;> simp_all
    cases hinner 1 hbefore
  · exact lookup?_of_some rfl

end Scriptlet.Scopes
