import Scriptlet.Proofs.Subscripts

/-!
Assignments to elements of sequences that are shared.

A text or an array as a value is a reference to its buffer, and any number of names and items may
be the same reference. An assignment to an element replaces one element of one buffer
(`Contents.Replaces`, `Heap.Assigns`): all that share the buffer read the new value there
(`Value.ReadsBack`), and all other buffers, copies of the buffer among them, stay as they are.
-/
namespace Scriptlet

/-! ### Replacing an element -/

/-- Contents that differ in one element, which has become `el`. -/
structure Contents.Replaces (c : Contents) (k : Nat) (el : Element) (c' : Contents) : Prop where
  lt : k < c.length
  length_eq : c'.length = c.length
  here : c'.get? k = some el
  elsewhere : ∀ m, m ≠ k → c'.get? m = c.get? m

/-- The element that a value stands for when it is assigned: an item of an array is the value
itself, and a character of a text is the only one that the value holds. -/
def Element.Shows : Element → Heap → Value → Prop
  | item u, _, v => u = v
  | char ch, h, v => h.contents? v = some (.chars [ch])

/-- How a sequence gives back a value that has been assigned to one of its elements: an array gives
the value itself, and a text gives a new text of one character that is equal to it. -/
def Value.ReadsBack (s v y : Value) (h h' : Heap) : Prop :=
  match s with
  | .array _ => y = v ∧ h' = h
  | .text _ => (∃ ch, h.Gains (.chars [ch]) y h') ∧ h'.equal y v = true
  | _ => False

/-- Position `k` of the buffer behind `s` has come to hold `v`, and nothing else has changed: no
other element, no other buffer, and none has been made. -/
structure Heap.Assigns (h : Heap) (s : Value) (k : Nat) (v : Value) (h' : Heap) : Prop where
  element : ∃ c el c', h.contents? s = some c ∧ h'.contents? s = some c' ∧ c.Replaces k el c' ∧
    el.Shows h' v
  others : ∀ t, t ≠ s → h'.contents? t = h.contents? t
  isBuffer_iff : ∀ t, h'.IsBuffer t ↔ h.IsBuffer t

namespace Contents

variable {c c' : Contents} {k : Nat} {ch : Char}

theorem replaces_chars {cs : List Char} (hk : k < cs.length) (ch : Char) :
    (chars cs).Replaces k (.char ch) (chars (cs.set k ch)) where
  lt := hk
  length_eq := List.length_set
  here := by rw [get?, List.getElem?_set_self hk, Option.map_some]
  elsewhere m hm := by rw [get?, get?, List.getElem?_set_ne hm.symm]

theorem replaces_items {vs : List Value} (hk : k < vs.length) (v : Value) :
    (items vs).Replaces k (.item v) (items (vs.set k v)) where
  lt := hk
  length_eq := List.length_set
  here := by rw [get?, List.getElem?_set_self hk, Option.map_some]
  elsewhere m hm := by rw [get?, get?, List.getElem?_set_ne hm.symm]

/-- A text of one character is not changed by an assignment of itself. -/
theorem Replaces.eq_self (h : (chars [ch]).Replaces k (.char ch) c') : c' = chars [ch] := by
  obtain rfl : k = 0 := Nat.lt_one_iff.mp h.lt
  have hhere := h.here
  cases c' with
  | items vs =>
    obtain ⟨v, -, hv⟩ := Option.map_eq_some_iff.mp hhere
    cases hv
  | chars cs =>
    obtain ⟨d, rfl⟩ := List.length_eq_one_iff.mp h.length_eq
    cases hhere
    rfl

end Contents

theorem Buffer.toList_getD_set? {α : Type} {b : Buffer α} {k : Nat} (hk : k < b.size) (x : α) :
    ((b.set? k x).getD b).toList = b.toList.set k x := by
  have hset := b.toList_set? k x
  rw [if_pos hk] at hset
  obtain ⟨b', hb', heq⟩ := Option.map_eq_some_iff.mp hset
  rw [hb']
  exact heq

/-- What a sequence holds when `v` has been assigned to one of its elements: of an array, the item
is `v`, and of a text, the character is the only one that `v` holds. -/
def Heap.assigned? (h : Heap) (s : Value) (k : Nat) (v : Value) : Option Contents :=
  match s with
  | .array r =>
    if k < (h.items r).size then some (.items ((h.items r).toList.set k v)) else none
  | .text r =>
    (Run.character? h v).bind fun ch =>
      if k < (h.text r).size then some (.chars ((h.text r).toList.set k ch)) else none
  | _ => none

namespace Heap

variable {h h' : Heap} {s v y : Value} {c c' : Contents} {el : Element} {k : Nat}

theorem isBuffer_of_lt (hc : h.contents? s = some c) (hk : k < c.length) : h.IsBuffer s := by
  obtain ⟨el, hel⟩ := Contents.exists_get? hk
  exact isBuffer_of_get? hc hel

theorem character?_eq_some_iff {ch : Char} :
    Run.character? h v = some ch ↔ h.contents? v = some (.chars [ch]) := by
  cases v with
  | text r =>
    rw [Run.character?, contents?, Option.some.injEq, Contents.chars.injEq]
    split
    · rename_i heq
      rw [heq, Option.some.injEq, List.cons.injEq, and_iff_left rfl]
    · rename_i hne
      constructor
      · intro hnone
        cases hnone
      · intro heq
        exact (hne ch heq).elim
  | _ =>
    constructor <;>
    · intro hnone
      cases hnone

/-- What is assigned to an element replaces it. -/
theorem replaces_of_assigned? (h' : h.assigned? s k v = some c') :
    ∃ c el, h.contents? s = some c ∧ c.Replaces k el c' ∧ el.Shows h v := by
  cases s with
  | array r =>
    rw [assigned?] at h'
    split at h'
    · rename_i hk
      cases h'
      exact ⟨_, _, rfl, Contents.replaces_items hk v, rfl⟩
    · cases h'
  | text r =>
    obtain ⟨ch, hch, hset⟩ := Option.bind_eq_some_iff.mp h'
    split at hset
    · rename_i hk
      cases hset
      exact ⟨_, _, rfl, Contents.replaces_chars hk ch, character?_eq_some_iff.mp hch⟩
    · cases hset
  | _ => cases h'

theorem Becomes.isBuffer_iff (hb : h.Becomes s c h') (t : Value) :
    h'.IsBuffer t ↔ h.IsBuffer t := by
  cases t with
  | text r => rw [IsBuffer, IsBuffer, hb.texts]
  | array r => rw [IsBuffer, IsBuffer, hb.arrays]
  | _ => exact Iff.rfl

/-- The value that has been assigned stands for the same element afterwards, also if it is the
sequence itself. -/
theorem Becomes.shows (hb : h.Becomes s c' h') (hc : h.contents? s = some c)
    (hrep : c.Replaces k el c') (hel : el.Shows h v) : el.Shows h' v := by
  cases el with
  | item u => exact hel
  | char ch =>
    have hv : h.contents? v = some (.chars [ch]) := hel
    show h'.contents? v = some (.chars [ch])
    by_cases heq : v = s
    · subst heq
      obtain rfl : c = .chars [ch] := Option.some.inj (hc.symm.trans hv)
      rw [hb.holds, hrep.eq_self]
    · rw [hb.others v heq, hv]

theorem Becomes.assigns (hb : h.Becomes s c' h') (hset : h.assigned? s k v = some c') :
    h.Assigns s k v h' where
  element := by
    obtain ⟨c, el, hc, hrep, hel⟩ := replaces_of_assigned? hset
    exact ⟨c, el, c', hc, hb.holds, hrep, hb.shows hc hrep hel⟩
  others := hb.others
  isBuffer_iff := hb.isBuffer_iff

/-- Texts that hold the same characters are equal. -/
theorem equal_of_chars {cs : List Char} (hy : h.contents? y = some (.chars cs))
    (hv : h.contents? v = some (.chars cs)) : h.equal y v = true := by
  cases y with
  | text q =>
    cases v with
    | text r =>
      have hqr : (h.text q).toList = (h.text r).toList := by
        rw [← Contents.chars.injEq]
        exact Option.some.inj (hy.trans hv.symm)
      show ((h.text q).toList == (h.text r).toList) = true
      rw [hqr, beq_self_eq_true]
    | _ => cases hv
  | _ => cases hy

/-- An element is given back as the value that it stands for. -/
theorem readsBack_of_givenAs (hc : h.contents? s = some c) (hk : c.get? k = some el)
    (hel : el.Shows h v) (hy : el.GivenAs h y h') : s.ReadsBack v y h h' := by
  cases s with
  | array r =>
    cases hc
    obtain ⟨u, -, rfl⟩ := Option.map_eq_some_iff.mp hk
    exact ⟨hy.1.trans hel, hy.2⟩
  | text r =>
    cases hc
    obtain ⟨ch, -, rfl⟩ := Option.map_eq_some_iff.mp hk
    have hgains : h.Gains (.chars [ch]) y h' := hy
    have hv : h.contents? v = some (.chars [ch]) := hel
    have hbuffer : h.IsBuffer v := isBuffer_of_lt hv Nat.zero_lt_one
    exact ⟨⟨ch, hgains⟩, equal_of_chars hgains.holds ((hgains.others v hbuffer).trans hv)⟩
  | _ => cases hc

end Heap

/-! ### Assigning to an element -/

namespace Run

variable {α : Type} {w : World}

theorem scopes_bind (k : Scopes → Run α) : (scopes >>= k) w = k w.scopes w :=
  rfl

theorem targetFrame_reads {env : FrameId} {global : Bool} {x : String} {span : Span} :
    (targetFrame env global x span).Reads w (w.scopes.target? env global) := by
  unfold Reads
  rw [targetFrame, scopes_bind]
  cases w.scopes.target? env global with
  | none => exact ⟨_, rfl⟩
  | some f => rfl

/-- The sequence that an assignment to an element changes, found by name, and what it will hold. -/
def assignment? (w : World) (env : FrameId) (global : Bool) (x : String) (i v : Value) :
    Option (Value × Contents) :=
  (w.scopes.target? env global).bind fun f =>
    ((w.scopes.find? f x).map Binding.value).bind fun s =>
      i.subscript?.bind fun k => (w.host.heap.assigned? s k v).map fun c => (s, c)

theorem assignment?_eq_some_iff {env : FrameId} {global : Bool} {x : String} {i v : Value}
    {t : Value × Contents} :
    assignment? w env global x i v = some t ↔
      ∃ f s k c, w.scopes.target? env global = some f ∧
        (w.scopes.find? f x).map Binding.value = some s ∧ i.subscript? = some k ∧
        w.host.heap.assigned? s k v = some c ∧ (s, c) = t := by
  constructor
  · intro h
    obtain ⟨f, hf, hrest⟩ := Option.bind_eq_some_iff.mp h
    obtain ⟨s, hs, hrest⟩ := Option.bind_eq_some_iff.mp hrest
    obtain ⟨k, hk, hrest⟩ := Option.bind_eq_some_iff.mp hrest
    obtain ⟨c, hc, ht⟩ := Option.map_eq_some_iff.mp hrest
    exact ⟨f, s, k, c, hf, hs, hk, hc, ht⟩
  · rintro ⟨f, s, k, c, hf, hs, hk, hc, rfl⟩
    rw [assignment?, hf, Option.bind_some, hs, Option.bind_some, hk, Option.bind_some, hc,
      Option.map_some]

/-- An assignment to an element changes one sequence, the one that the name is bound to. -/
theorem assignElement_answers (env : FrameId) (global : Bool) (x : String) (i v : Value)
    (span : Span) :
    w.Answers (assignElement env global x i v span w)
      (fun t y heap => y = v ∧ w.host.heap.Becomes t.1 t.2 heap)
      (assignment? w env global x i v) := by
  refine targetFrame_reads.answers fun f => ?_
  rw [scopes_bind]
  cases (w.scopes.find? f x).map Binding.value with
  | none => exact ⟨_, rfl⟩
  | some s =>
    cases s with
    | array r =>
      refine position_reads.answers fun k => ?_
      rw [heap_bind, Heap.assigned?]
      by_cases hk : k < (w.host.heap.items r).size
      · have hr : w.host.heap.IsBuffer (.array r) := Heap.isBuffer_of_lt rfl hk
        have hbecomes := Heap.becomes_modifyArray hr fun b => (b.set? k v).getD b
        rw [Buffer.toList_getD_set? hk] at hbecomes
        rw [if_pos hk]
        dsimp only
        rw [if_pos hk]
        exact ⟨_, _, rfl, rfl, hbecomes⟩
      · rw [if_neg hk]
        dsimp only
        rw [if_neg hk]
        exact ⟨_, rfl⟩
    | text r =>
      refine position_reads.answers fun k => ?_
      rw [heap_bind, Heap.assigned?]
      cases character? w.host.heap v with
      | none => exact ⟨_, rfl⟩
      | some ch =>
        dsimp only
        rw [heap_bind]
        by_cases hk : k < (w.host.heap.text r).size
        · have hr : w.host.heap.IsBuffer (.text r) := Heap.isBuffer_of_lt rfl hk
          have hbecomes := Heap.becomes_modifyText hr fun b => (b.set? k ch).getD b
          rw [Buffer.toList_getD_set? hk] at hbecomes
          rw [Option.bind_some, if_pos hk, if_pos hk]
          exact ⟨_, _, rfl, rfl, hbecomes⟩
        · rw [Option.bind_some, if_neg hk, if_neg hk]
          exact ⟨_, rfl⟩
    | _ =>
      -- it has no elements, whatever the subscript is
      cases i.subscript? <;> exact ⟨_, rfl⟩

end Run

namespace World

/-- The world `w'` is `w` after the assignment of `v` to the element of `s` at position `k`. As a
sequence is the reference to its buffer, all that share the buffer are `s`. -/
structure Assigned (w : World) (s : Value) (k : Nat) (v : Value) (w' : World) : Prop where
  /-- No binding changes, and nothing is written or read. -/
  eq_withHeap : w' = w.withHeap w'.host.heap
  assigns : w.host.heap.Assigns s k v w'.host.heap
  reads_here : ∀ i span, i.subscript? = some k →
    ∃ y heap, Run.index s i span w' = .ok y (w'.withHeap heap) ∧ s.ReadsBack v y w'.host.heap heap
  reads_elsewhere : ∀ i span m c el, i.subscript? = some m → m ≠ k →
    w.host.heap.contents? s = some c → c.get? m = some el →
    ∃ y heap, Run.index s i span w' = .ok y (w'.withHeap heap) ∧ el.GivenAs w'.host.heap y heap
  /-- Slices and sums that were made when `s` was there already hold what they held. -/
  copies_kept : ∀ (w₀ : World) (y : Value), w₀.host.heap.IsBuffer s → w₀.Copies y →
    w'.host.heap.contents? y = w.host.heap.contents? y

theorem assigned_withHeap {w : World} {s v : Value} {k : Nat} {heap : Heap}
    (h : w.host.heap.Assigns s k v heap) : w.Assigned s k v (w.withHeap heap) where
  eq_withHeap := rfl
  assigns := h
  reads_here i span hi := by
    obtain ⟨_, el, c', -, hc', hrep, hel⟩ := h.element
    obtain ⟨y, heap', hok, hy⟩ := Run.index_eq_ok (w := w.withHeap heap) span hc' hi hrep.here
    exact ⟨y, heap', hok, Heap.readsBack_of_givenAs hc' hrep.here hel hy⟩
  reads_elsewhere i span m c el hi hm hc hel := by
    obtain ⟨d, _, c', hd, hc', hrep, -⟩ := h.element
    obtain rfl : d = c := Option.some.inj (hd.symm.trans hc)
    have hel' : c'.get? m = some el := (hrep.elsewhere m hm).trans hel
    exact Run.index_eq_ok (w := w.withHeap heap) span hc' hi hel'
  copies_kept w₀ y hs hy := by
    refine h.others y fun heq => ?_
    rw [heq] at hy
    exact hy.new hs

end World

/-- Subscripts agree with each other, also where a sequence is shared. What is read is told by what
the sequence holds. An assignment to an element finds the sequence by name and changes this element
and nothing else, or it fails and changes nothing. -/
theorem subscripts_coherent (w : World) :
    (∀ s c, w.host.heap.contents? s = some c → w.ReadsSequence s c) ∧
    ∀ env global x i v span,
      (∀ e w', Run.assignElement env global x i v span w = .error e w' → w' = w) ∧
      ((∃ u w', Run.assignElement env global x i v span w = .ok u w') ↔
        ∃ f s k c, w.scopes.target? env global = some f ∧
          (w.scopes.find? f x).map Binding.value = some s ∧ i.subscript? = some k ∧
          w.host.heap.assigned? s k v = some c) ∧
      ∀ u w', Run.assignElement env global x i v span w = .ok u w' →
        ∃ f s k, w.scopes.target? env global = some f ∧
          (w.scopes.find? f x).map Binding.value = some s ∧ i.subscript? = some k ∧
          u = v ∧ w.Assigned s k v w' := by
  refine ⟨fun s c hc => w.readsSequence hc, fun env global x i v span => ?_⟩
  have hanswers := Run.assignElement_answers (w := w) env global x i v span
  refine ⟨fun e w' he => hanswers.eq_of_error he, ?_, ?_⟩
  · rw [hanswers.ok_iff]
    constructor
    · rintro ⟨t, ht⟩
      obtain ⟨f, s, k, c, hf, hs, hk, hc, -⟩ := Run.assignment?_eq_some_iff.mp ht
      exact ⟨f, s, k, c, hf, hs, hk, hc⟩
    · rintro ⟨f, s, k, c, hf, hs, hk, hc⟩
      exact ⟨(s, c), Run.assignment?_eq_some_iff.mpr ⟨f, s, k, c, hf, hs, hk, hc, rfl⟩⟩
  · intro u w' hok
    obtain ⟨t, heap, ht, rfl, hu, hbecomes⟩ := hanswers.of_ok hok
    obtain ⟨f, s, k, c, hf, hs, hk, hc, rfl⟩ := Run.assignment?_eq_some_iff.mp ht
    exact ⟨f, s, k, hf, hs, hk, hu, World.assigned_withHeap (hbecomes.assigns hc)⟩

/-- An array becomes an item of itself, a character of a text is replaced, and a text is put
together from its parts. -/
theorem subscripts_coherent_self :
    let xs : Value := .array ⟨0⟩
    let t : Value := .text ⟨0⟩
    let w : World := ⟨.start [("xs", ⟨xs, false⟩), ("t", ⟨t, false⟩)],
      ⟨⟨#[.ofList ['a', 'b'], .ofList ['c']], #[.ofList [.nil, .bool true]]⟩, .ofInput []⟩⟩
    let span : Span := ⟨0, 0⟩
    (∃ y heap, (do
        let left ← Run.slice t (.float 0) (.float 1) span
        let right ← Run.slice t (.float 1) (.float Number.infinity) span
        Run.binary .add left right span) w = .ok y (w.withHeap heap) ∧
      heap.contents? y = some (.chars ['a', 'b'])) ∧
    (∃ w', Run.assignElement 0 false "xs" (.float 1) xs span w = .ok xs w' ∧
      ∃ heap, Run.index xs (.float 1) span w' = .ok xs (w'.withHeap heap)) ∧
    (∃ w', Run.assignElement 0 false "t" (.float 0) (.text ⟨1⟩) span w = .ok (.text ⟨1⟩) w' ∧
      w'.host.heap.contents? xs = some (.items [.nil, .bool true]) ∧
      ∃ y heap, Run.index t (.float 0) span w' = .ok y (w'.withHeap heap) ∧
        heap.equal y (.text ⟨1⟩) = true) ∧
    ∃ e, Run.assignElement 0 false "t" (.float 0) t span w = .error e w := by
  intro xs t w span
  have hzero : (Value.float 0).subscript? = some 0 := by decide +kernel
  have hone : (Value.float 1).subscript? = some 1 := by decide +kernel
  have hend : (Value.float Number.infinity).sliceEnd? 2 = some 2 := by decide +kernel
  obtain ⟨hreads, hassigns⟩ := subscripts_coherent w
  refine ⟨?_, ?_, ?_, ?_⟩
  · have ht : w.host.heap.contents? t = some (.chars ['a', 'b']) := rfl
    have htwo : 0 < 2 := by decide
    exact (hreads t _ ht).slices_add _ _ _ span 0 1 2 htwo hzero hone hend (by decide) (by decide)
      (by decide)
  · obtain ⟨-, hok, heffect⟩ := hassigns 0 false "xs" (.float 1) xs span
    obtain ⟨u, w', hu⟩ := hok.mpr ⟨0, xs, 1, _, rfl, rfl, hone, rfl⟩
    obtain ⟨f, s, k, hf, hs, hk, rfl, hassigned⟩ := heffect u w' hu
    obtain rfl : 0 = f := Option.some.inj hf
    obtain rfl : xs = s := Option.some.inj hs
    obtain ⟨y, heap, hindex, rfl, -⟩ := hassigned.reads_here (.float 1) span hk
    exact ⟨w', hu, heap, hindex⟩
  · obtain ⟨-, hok, heffect⟩ := hassigns 0 false "t" (.float 0) (.text ⟨1⟩) span
    obtain ⟨u, w', hu⟩ := hok.mpr ⟨0, t, 0, _, rfl, rfl, hzero, rfl⟩
    obtain ⟨f, s, k, hf, hs, hk, rfl, hassigned⟩ := heffect u w' hu
    obtain rfl : 0 = f := Option.some.inj hf
    obtain rfl : t = s := Option.some.inj hs
    obtain ⟨y, heap, hindex, -, hequal⟩ := hassigned.reads_here (.float 0) span hk
    have hne : Value.array ⟨0⟩ ≠ .text ⟨0⟩ := by
      intro heq
      cases heq
    exact ⟨w', hu, hassigned.assigns.others xs hne, y, heap, hindex, hequal⟩
  · obtain ⟨hatomic, hok, -⟩ := hassigns 0 false "t" (.float 0) t span
    cases hresult : Run.assignElement 0 false "t" (.float 0) t span w with
    | error e w' => exact ⟨e, congrArg _ (hatomic e w' hresult)⟩
    | ok u w' =>
      -- a text of two characters does not go into the place of one
      obtain ⟨f, s, k, c, hf, hs, -, hc⟩ := hok.mp ⟨u, w', hresult⟩
      obtain rfl : 0 = f := Option.some.inj hf
      obtain rfl : t = s := Option.some.inj hs
      cases hc

end Scriptlet
