import Scriptlet.Proofs.Snapshots

/-!
The elements of sequences, and heaps that differ in one of them.

An element is what stands at a position: a character of a text, or an item of an array. As a value
an item is itself, while a character is given as a new text (`Element.GivenAs`).
-/
namespace Scriptlet

/-! ### Elements of sequences -/

theorem Buffer.erase?_eq_some {α : Type} {b b' : Buffer α} {i : Nat} {x : α} :
    b.erase? i = some (x, b') ↔ b.toList[i]? = some x ∧ b' = .ofList (b.toList.eraseIdx i) := by
  rw [Buffer.erase?, Buffer.get?_eq_getElem?]
  cases b.toList[i]? with
  | none => simp
  | some y =>
    simp only [Option.map_some, Option.some.injEq, Prod.mk.injEq]
    exact and_congr_right fun _ => eq_comm

/-- The sequence as a value. -/
def Sequence.value : Sequence → Value
  | .text r => .text r
  | .array r => .array r

/-- What stands at a position of a sequence. -/
inductive Element where
  | char (c : Char)
  | item (v : Value)

namespace Contents

def get? : Contents → Nat → Option Element
  | chars cs, i => cs[i]?.map .char
  | items vs, i => vs[i]?.map .item

/-- Without the element at a position. -/
def erase : Contents → Nat → Contents
  | chars cs, i => chars (cs.eraseIdx i)
  | items vs, i => items (vs.eraseIdx i)

end Contents

/-- How an element of a sequence is given as a value: an item of an array as it is, and a character
of a text as a new text. -/
def Element.GivenAs : Element → Heap → Value → Heap → Prop
  | item v, h, y, k => y = v ∧ k = h
  | char c, h, y, k => h.Gains (.chars [c]) y k

/-! ### Heaps that differ in one buffer -/

namespace Heap

/-- The element at the position that `x` names has been taken out of the sequence `v` and given as
the value `y`. -/
def TakesOut (h : Heap) (v x y : Value) (k : Heap) : Prop :=
  ∃ i c el mid, x.toIndex? = some i ∧ h.contents? v = some c ∧ c.get? i = some el ∧
    h.Becomes v (c.erase i) mid ∧ el.GivenAs mid y k

/-- Where there is something behind a reference, the reference has been given. -/
theorem lt_of_items {h : Heap} {r : ArrayRef} (hr : (h.items r).toList ≠ []) :
    r.index < h.arrays.size := by
  refine Nat.lt_of_not_le fun hle => hr ?_
  rw [items_of_le h hle]
  rfl

theorem lt_of_text {h : Heap} {r : TextRef} (hr : (h.text r).toList ≠ []) :
    r.index < h.texts.size := by
  refine Nat.lt_of_not_le fun hle => hr ?_
  have hempty : h.text r = .empty := by simp [text, Array.getD_eq_getD_getElem?, hle]
  rw [hempty]
  rfl

/-- A sequence that has an element is there. -/
theorem isBuffer_of_get? {h : Heap} {s : Value} {c : Contents} {k : Nat} {el : Element}
    (hc : h.contents? s = some c) (hel : c.get? k = some el) : h.IsBuffer s := by
  cases s with
  | text r =>
    cases hc
    obtain ⟨a, ha, -⟩ := Option.map_eq_some_iff.mp hel
    exact lt_of_text (List.ne_nil_of_mem (List.mem_of_getElem? ha))
  | array r =>
    cases hc
    obtain ⟨a, ha, -⟩ := Option.map_eq_some_iff.mp hel
    exact lt_of_items (List.ne_nil_of_mem (List.mem_of_getElem? ha))
  | _ => cases hc

/-- All that there was is still there, and only what `v` holds may have changed. -/
structure AltersOnly (h : Heap) (v : Value) (k : Heap) : Prop where
  there : ∀ u, h.IsBuffer u → k.IsBuffer u
  others : ∀ u, h.IsBuffer u → u ≠ v → k.contents? u = h.contents? u

variable {h k l : Heap} {v : Value}

theorem AltersOnly.refl (h : Heap) (v : Value) : h.AltersOnly v h :=
  ⟨fun _ hu => hu, fun _ _ _ => rfl⟩

theorem AltersOnly.trans (hk : h.AltersOnly v k) (hl : k.AltersOnly v l) : h.AltersOnly v l where
  there u hu := hl.there u (hk.there u hu)
  others u hu hne := (hl.others u (hk.there u hu) hne).trans (hk.others u hu hne)

theorem altersOnly_modifyText (r : TextRef) (f : Buffer Char → Buffer Char) :
    h.AltersOnly (.text r) (h.modifyText r f) where
  there := by
    intro u hu
    cases u with
    | text s =>
      show s.index < (h.modifyText r f).texts.size
      rw [size_modifyText]
      exact hu
    | _ => exact hu
  others := by
    intro u _ hne
    cases u with
    | text s =>
      have hrs : r ≠ s := fun heq => hne (congrArg Value.text heq.symm)
      rw [contents?, contents?, text_modifyText, if_neg fun hc => hrs hc.1]
    | _ => rfl

theorem altersOnly_modifyArray (r : ArrayRef) (f : Buffer Value → Buffer Value) :
    h.AltersOnly (.array r) (h.modifyArray r f) where
  there := by
    intro u hu
    cases u with
    | array s =>
      show s.index < (h.modifyArray r f).arrays.size
      rw [size_modifyArray]
      exact hu
    | _ => exact hu
  others := by
    intro u _ hne
    cases u with
    | array s =>
      have hrs : r ≠ s := fun heq => hne (congrArg Value.array heq.symm)
      rw [contents?, contents?, items_modifyArray, if_neg fun hc => hrs hc.1]
    | _ => rfl

theorem altersOnly_newText (v : Value) (b : Buffer Char) : h.AltersOnly v (h.newText b).2 where
  there := by
    intro u hu
    cases u with
    | text s =>
      show s.index < (h.newText b).2.texts.size
      rw [size_newText]
      exact Nat.lt_succ_of_lt hu
    | _ => exact hu
  others u hu _ := (gains_newText b).others u hu

end Heap

end Scriptlet
