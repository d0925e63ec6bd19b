import Scriptlet.Proofs.Reachability

/-!
Natives that make a sequence longer.

The arguments of `append`, `extend`, `insert` and `merge` may share their buffers: a sequence may be
added to itself, or to an array that it contains. What the call makes of them is said here by
functions of the heap at the start alone (`Heap.appended?`, `Heap.joined?`, `Heap.inserted?`), and
`Native.call_snapshot` says that the first three put just that into their first argument, with no
other buffer changed, while `merge` puts it into a new one.

The actions that look at arguments change nothing (`NativeAction.Reads`), and each native looks at
all its arguments before it writes. So the proofs read, in that order, and the write is the last
step.
-/
namespace Scriptlet

/-! ### What sequences hold -/

/-- What a text or an array holds. -/
inductive Contents where
  | chars (cs : List Char)
  | items (vs : List Value)

/-- A list with another put in before a position, which may be the end. -/
def splice? {α : Type} (xs : List α) (i : Nat) (ys : List α) : Option (List α) :=
  if i ≤ xs.length then some (xs.take i ++ ys ++ xs.drop i) else none

namespace Heap

variable (h : Heap)

/-- The characters of a text. -/
def chars? : Value → Option (List Char)
  | .text r => some (h.text r).toList
  | _ => none

/-- The items of an array. -/
def elements? : Value → Option (List Value)
  | .array r => some (h.items r).toList
  | _ => none

/-- The characters of several texts in a row. -/
def charsOfAll? (vs : List Value) : Option (List Char) :=
  (vs.mapM h.chars?).map List.flatten

/-- The items of several arrays in a row. -/
def elementsOfAll? (vs : List Value) : Option (List Value) :=
  (vs.mapM h.elements?).map List.flatten

/-- What a value holds, if it is a text or an array. -/
def contents? : Value → Option Contents
  | .text r => some (.chars (h.text r).toList)
  | .array r => some (.items (h.items r).toList)
  | _ => none

/-- What a sequence holds, and behind it what others of the same kind hold. -/
def joined? (v : Value) (vs : List Value) : Option Contents :=
  match v with
  | .text r => (h.charsOfAll? vs).map fun cs => .chars ((h.text r).toList ++ cs)
  | .array r => (h.elementsOfAll? vs).map fun xs => .items ((h.items r).toList ++ xs)
  | _ => none

/-- What a sequence holds, and behind it more items. Those of a text are the characters of texts. -/
def appended? (v : Value) (vs : List Value) : Option Contents :=
  match v with
  | .array r => some (.items ((h.items r).toList ++ vs))
  | .text _ => h.joined? v vs
  | _ => none

/-- What a sequence holds, with one more item put in, or with the characters of a text. -/
def inserted? (v : Value) (i : Nat) (x : Value) : Option Contents :=
  match v with
  | .text r => (h.chars? x).bind fun cs => (splice? (h.text r).toList i cs).map .chars
  | .array r => (splice? (h.items r).toList i [x]).map .items
  | _ => none

/-- The sequence `v` holds `c` in the heap `k`, and everything else is there as it is in `h`. -/
structure Becomes (v : Value) (c : Contents) (k : Heap) : Prop where
  holds : k.contents? v = some c
  others : ∀ u, u ≠ v → k.contents? u = h.contents? u
  texts : k.texts.size = h.texts.size
  arrays : k.arrays.size = h.arrays.size

variable {h}

theorem becomes_modifyText {r : TextRef} (hr : r.index < h.texts.size)
    (f : Buffer Char → Buffer Char) :
    h.Becomes (.text r) (.chars (f (h.text r)).toList) (h.modifyText r f) where
  holds := by rw [contents?, text_modifyText, if_pos ⟨rfl, hr⟩]
  others := by
    intro u hu
    cases u with
    | text s =>
      have hne : r ≠ s := fun heq => hu (congrArg Value.text heq.symm)
      rw [contents?, contents?, text_modifyText, if_neg fun hc => hne hc.1]
    | _ => rfl
  texts := size_modifyText h r f
  arrays := rfl

theorem becomes_modifyArray {r : ArrayRef} (hr : r.index < h.arrays.size)
    (f : Buffer Value → Buffer Value) :
    h.Becomes (.array r) (.items (f (h.items r)).toList) (h.modifyArray r f) where
  holds := by rw [contents?, items_modifyArray, if_pos ⟨rfl, hr⟩]
  others := by
    intro u hu
    cases u with
    | array s =>
      have hne : r ≠ s := fun heq => hu (congrArg Value.array heq.symm)
      rw [contents?, contents?, items_modifyArray, if_neg fun hc => hne hc.1]
    | _ => rfl
  texts := rfl
  arrays := size_modifyArray h r f

/-- The sequence `v` is new in the heap `k` and holds `c`, and all that there was is as it was. -/
structure Gains (h : Heap) (c : Contents) (v : Value) (k : Heap) : Prop where
  new : ¬ h.IsBuffer v
  there : k.IsBuffer v
  holds : k.contents? v = some c
  others : ∀ u, h.IsBuffer u → k.contents? u = h.contents? u

theorem gains_newText (b : Buffer Char) :
    h.Gains (.chars b.toList) (.text (h.newText b).1) (h.newText b).2 where
  new := Nat.lt_irrefl _
  there := by
    show h.texts.size < (h.newText b).2.texts.size
    rw [size_newText]
    omega
  holds := by
    have hindex : (h.newText b).1.index = h.texts.size := rfl
    rw [contents?, text_newText, if_pos hindex]
  others := by
    intro u hu
    cases u with
    | text s =>
      have hne : s.index ≠ h.texts.size := Nat.ne_of_lt hu
      rw [contents?, contents?, text_newText, if_neg hne]
    | _ => rfl

theorem gains_newArray (b : Buffer Value) :
    h.Gains (.items b.toList) (.array (h.newArray b).1) (h.newArray b).2 where
  new := Nat.lt_irrefl _
  there := by
    show h.arrays.size < (h.newArray b).2.arrays.size
    rw [size_newArray]
    omega
  holds := by
    have hindex : (h.newArray b).1.index = h.arrays.size := rfl
    rw [contents?, items_newArray, if_pos hindex]
  others := by
    intro u hu
    cases u with
    | array s =>
      have hne : s.index ≠ h.arrays.size := Nat.ne_of_lt hu
      rw [contents?, contents?, items_newArray, if_neg hne]
    | _ => rfl

end Heap

theorem splice?_eq {α : Type} (b : Buffer α) (i : Nat) (ys : List α) :
    splice? b.toList i ys = (b.insert? i ys).map Buffer.toList := by
  rw [Buffer.toList_insert?]
  rfl

/-! ### Actions that only look -/

/-- How a native answers: with a value and a heap that are as they should be for what there is to be
held, or, if there is nothing to be held, by a refusal that changes nothing. -/
def Answers (r : EStateM.Result NativeError Host Value) (host : Host)
    (P : Contents → Value → Heap → Prop) (held? : Option Contents) : Prop :=
  match held? with
  | some c => ∃ v heap, r = .ok v { host with heap } ∧ P c v heap
  | none => ∃ e, r = .error e host

namespace NativeAction

variable {α : Type}

/-- An action gives what is there to be seen, or refuses, and changes nothing. -/
def Reads (act : NativeAction α) (host : Host) (seen? : Option α) : Prop :=
  match seen? with
  | some a => act host = .ok a host
  | none => ∃ e, act host = .error e host

section

variable {act : NativeAction α} {host : Host} {seen? : Option α}

theorem reads_pure (a : α) : (pure a : NativeAction α).Reads host (some a) :=
  rfl

theorem Reads.bind_eq {β : Type} {a : α} (hread : act.Reads host (some a))
    (k : α → NativeAction β) : (act >>= k) host = k a host := by
  have hact : act host = .ok a host := hread
  show EStateM.bind act k host = k a host
  rw [EStateM.bind, hact]

theorem Reads.bind_refuses {β : Type} (hread : act.Reads host none) (k : α → NativeAction β) :
    ∃ e, (act >>= k) host = .error e host := by
  obtain ⟨e, he⟩ := hread
  refine ⟨e, ?_⟩
  show EStateM.bind act k host = .error e host
  rw [EStateM.bind, he]

/-- An action that looks further after what it has seen. -/
theorem Reads.bind {β : Type} {k : α → NativeAction β} {next? : α → Option β}
    (hread : act.Reads host seen?) (hk : ∀ a, (k a).Reads host (next? a)) :
    (act >>= k).Reads host (seen?.bind next?) := by
  cases seen? with
  | none => exact hread.bind_refuses k
  | some a =>
    have hnext := hk a
    unfold Reads at hnext
    rwa [← hread.bind_eq k] at hnext

/-- An action that answers after what it has seen. -/
theorem Reads.answers {k : α → NativeAction Value} {P : Contents → Value → Heap → Prop}
    {held? : α → Option Contents} (hread : act.Reads host seen?)
    (hk : ∀ a, Answers (k a host) host P (held? a)) :
    Answers ((act >>= k) host) host P (seen?.bind held?) := by
  cases seen? with
  | none => exact hread.bind_refuses k
  | some a =>
    rw [hread.bind_eq k]
    exact hk a

end

/-- What several values hold is looked at one after the other, up to the first refusal. -/
theorem reads_all {one : Value → NativeAction (List α)} (all : List Value → NativeAction (List α))
    {see? : Value → Option (List α)} {host : Host} (hnil : all [] = pure [])
    (hcons : ∀ v vs, all (v :: vs) = (one v >>= fun xs => all vs >>= fun ys => pure (xs ++ ys)))
    (hone : ∀ v, (one v).Reads host (see? v)) (vs : List Value) :
    (all vs).Reads host ((vs.mapM see?).map List.flatten) := by
  induction vs with
  | nil =>
    rw [hnil]
    rfl
  | cons v vs ih =>
    have hboth := (hone v).bind fun xs => ih.bind fun ys => reads_pure (xs ++ ys)
    rw [← hcons] at hboth
    have heq : ((v :: vs).mapM see?).map List.flatten = (see? v).bind fun xs =>
        ((vs.mapM see?).map List.flatten).bind fun ys => some (xs ++ ys) := by
      rw [List.mapM_cons]
      cases see? v with
      | none => rfl
      | some xs => cases vs.mapM see? <;> rfl
    rwa [heq]

end NativeAction

namespace Native

open NativeAction

variable {host : Host}

theorem text_reads (r : TextRef) : (text r).Reads host (some (host.heap.text r)) :=
  rfl

theorem items_reads (r : ArrayRef) : (items r).Reads host (some (host.heap.items r)) :=
  rfl

theorem sequence_reads (param : String) (r : ArrayRef) :
    (sequence param (.array r)).Reads host (some (.array r)) :=
  rfl

theorem chars_reads (param : String) (v : Value) :
    (chars param v).Reads host (host.heap.chars? v) := by
  cases v with
  | text r => rfl
  | _ => exact ⟨_, rfl⟩

theorem charsOfAll_reads (param : String) (vs : List Value) :
    (charsOfAll param vs).Reads host (host.heap.charsOfAll? vs) :=
  reads_all (charsOfAll param) rfl (fun _ _ => rfl) (chars_reads param) vs

theorem itemsOf_reads (param : String) (v : Value) :
    (itemsOf param v).Reads host (host.heap.elements? v) := by
  cases v with
  | array r => rfl
  | _ => exact ⟨_, rfl⟩

theorem itemsOfAll_reads (param : String) (vs : List Value) :
    (itemsOfAll param vs).Reads host (host.heap.elementsOfAll? vs) :=
  reads_all (itemsOfAll param) rfl (fun _ _ => rfl) (itemsOf_reads param) vs

theorem position_reads (param : String) (v : Value) :
    (position param v).Reads host v.toIndex? := by
  unfold position
  cases v.toIndex? with
  | none => exact ⟨_, rfl⟩
  | some i => rfl

/-! ### The natives -/

/-- The call returns its first argument `v`, and changes what that holds but no other buffer. -/
def InPlace (host : Host) (v : Value) (c : Contents) (w : Value) (heap : Heap) : Prop :=
  w = v ∧ host.heap.Becomes v c heap

/-- To a text, `append` and `extend` both add the characters of the other texts. -/
theorem appendText_answers (param : String) {r : TextRef} (hr : r.index < host.heap.texts.size)
    (vs : List Value) :
    Answers ((charsOfAll param vs >>= fun cs => appendText r cs >>= fun _ => pure (.text r)) host)
      host (InPlace host (.text r)) (host.heap.joined? (.text r) vs) := by
  rw [Heap.joined?, Option.map_eq_bind]
  refine (charsOfAll_reads param vs).answers fun cs => ?_
  have hbecomes := Heap.becomes_modifyText hr (·.append cs)
  rw [Buffer.toList_append] at hbecomes
  exact ⟨_, _, rfl, rfl, hbecomes⟩

section

variable {v : Value} (hv : host.heap.IsBuffer v)

include hv

theorem extend_answers (vs : List Value) :
    Answers (Native.extend.call (v :: vs) host) host (InPlace host v)
      (host.heap.joined? v vs) := by
  cases v with
  | text r => exact appendText_answers "others" hv vs
  | array r =>
    rw [Heap.joined?, Option.map_eq_bind]
    refine (itemsOfAll_reads "others" vs).answers fun xs => ?_
    have hbecomes := Heap.becomes_modifyArray hv (·.append xs)
    rw [Buffer.toList_append] at hbecomes
    exact ⟨_, _, rfl, rfl, hbecomes⟩
  | _ => exact hv.elim

theorem append_answers (vs : List Value) :
    Answers (Native.append.call (v :: vs) host) host (InPlace host v)
      (host.heap.appended? v vs) := by
  cases v with
  | text r => exact appendText_answers "values" hv vs
  | array r =>
    -- the values themselves are added, whatever they hold
    have hbecomes := Heap.becomes_modifyArray hv (·.append vs)
    rw [Buffer.toList_append] at hbecomes
    exact ⟨_, _, rfl, rfl, hbecomes⟩
  | _ => exact hv.elim

theorem insert_answers (i x : Value) :
    Answers (Native.insert.call [v, i, x] host) host (InPlace host v)
      (i.toIndex?.bind fun i => host.heap.inserted? v i x) := by
  refine (position_reads "index" i).answers fun i => ?_
  cases v with
  | text r =>
    refine (chars_reads "value" x).answers fun cs => ?_
    rw [splice?_eq]
    show Answers _ _ _ ((some (host.heap.text r)).bind fun b =>
      ((b.insert? i cs).map Buffer.toList).map Contents.chars)
    refine (text_reads r).answers fun b => ?_
    cases b.insert? i cs with
    | none => exact ⟨_, rfl⟩
    | some b => exact ⟨_, _, rfl, rfl, Heap.becomes_modifyText hv fun _ => b⟩
  | array r =>
    rw [Heap.inserted?, splice?_eq, (sequence_reads "sequence" r).bind_eq]
    show Answers _ _ _ ((some (host.heap.items r)).bind fun b =>
      ((b.insert? i [x]).map Buffer.toList).map Contents.items)
    refine (items_reads r).answers fun b => ?_
    cases b.insert? i [x] with
    | none => exact ⟨_, rfl⟩
    | some b => exact ⟨_, _, rfl, rfl, Heap.becomes_modifyArray hv fun _ => b⟩
  | _ => exact hv.elim

end

theorem merge_answers (v : Value) (vs : List Value) :
    Answers (Native.merge.call (v :: vs) host) host host.heap.Gains
      (host.heap.joined? v vs) := by
  cases v with
  | text r =>
    rw [Heap.joined?, Option.map_eq_bind]
    refine (charsOfAll_reads "others" vs).answers fun cs => ?_
    have hgains := Heap.gains_newText (h := host.heap) ((host.heap.text r).append cs)
    rw [Buffer.toList_append] at hgains
    exact ⟨_, _, rfl, hgains⟩
  | array r =>
    rw [Heap.joined?, Option.map_eq_bind]
    refine (itemsOfAll_reads "others" vs).answers fun xs => ?_
    have hgains := Heap.gains_newArray (h := host.heap) ((host.heap.items r).append xs)
    rw [Buffer.toList_append] at hgains
    exact ⟨_, _, rfl, hgains⟩
  | _ => exact ⟨_, rfl⟩

/-- **What a native adds to a sequence is what its arguments held before the call**, whichever of
them share a buffer or contain one another. To the sequence `v`, `append` adds values to an array
and the characters of texts to a text, `extend` adds what the others hold, and `insert` puts an
item, or the characters of a text, before a position; each returns `v` and changes no other buffer.
`merge` changes none: it returns a new one that holds what `v` and the others hold. A call that
cannot do so is refused and changes nothing. -/
theorem call_snapshot (host : Host) {v : Value} (hv : host.heap.IsBuffer v) :
    (∀ vs, Answers (Native.append.call (v :: vs) host) host (InPlace host v)
      (host.heap.appended? v vs)) ∧
    (∀ vs, Answers (Native.extend.call (v :: vs) host) host (InPlace host v)
      (host.heap.joined? v vs)) ∧
    (∀ i x, Answers (Native.insert.call [v, i, x] host) host (InPlace host v)
      (i.toIndex?.bind fun i => host.heap.inserted? v i x)) ∧
    ∀ vs, Answers (Native.merge.call (v :: vs) host) host host.heap.Gains
      (host.heap.joined? v vs) :=
  ⟨append_answers hv, extend_answers hv, insert_answers hv, merge_answers v⟩

/-- A text is added to itself, and so is an array that contains itself, twice and with another that
contains it; it is put into itself, and merged with itself. -/
theorem call_snapshot_aliased :
    let a : Value := .array ⟨0⟩
    let host : Host := ⟨⟨#[.ofList ['a', 'b']], #[.ofList [.nil, a], .ofList [a, .bool true]]⟩,
      .ofInput []⟩
    (host.heap.IsBuffer (.text ⟨0⟩) ∧ ∃ heap,
      Native.append.call [.text ⟨0⟩, .text ⟨0⟩] host = .ok (.text ⟨0⟩) { host with heap } ∧
      heap.contents? (.text ⟨0⟩) = some (.chars ['a', 'b', 'a', 'b'])) ∧
    host.heap.IsBuffer a ∧
    (∃ heap, Native.extend.call [a, a, .array ⟨1⟩, a] host = .ok a { host with heap } ∧
      heap.contents? a = some (.items [.nil, a, .nil, a, a, .bool true, .nil, a]) ∧
      heap.contents? (.array ⟨1⟩) = some (.items [a, .bool true])) ∧
    (∃ heap, Native.insert.call [a, .float 1, a] host = .ok a { host with heap } ∧
      heap.contents? a = some (.items [.nil, a, a])) ∧
    ∃ v heap, Native.merge.call [a, a] host = .ok v { host with heap } ∧ ¬ host.heap.IsBuffer v ∧
      heap.contents? v = some (.items [.nil, a, .nil, a]) ∧
      heap.contents? a = some (.items [.nil, a]) := by
  intro a host
  have htext : host.heap.IsBuffer (.text ⟨0⟩) := Nat.one_pos
  have harray : host.heap.IsBuffer a := Nat.two_pos
  obtain ⟨happend, -⟩ := call_snapshot host htext
  obtain ⟨-, hextend, hinsert, hmerge⟩ := call_snapshot host harray
  refine ⟨⟨htext, ?_⟩, harray, ?_, ?_, ?_⟩
  · obtain ⟨_, heap, hcall, rfl, hbecomes⟩ := happend [.text ⟨0⟩]
    exact ⟨heap, hcall, hbecomes.holds⟩
  · obtain ⟨_, heap, hcall, rfl, hbecomes⟩ := hextend [a, .array ⟨1⟩, a]
    have hne : Value.array ⟨1⟩ ≠ .array ⟨0⟩ := by
      intro heq
      cases heq
    exact ⟨heap, hcall, hbecomes.holds, hbecomes.others _ hne⟩
  · have hindex : (Value.float 1).toIndex? = some 1 := by decide +kernel
    have hanswers := hinsert (.float 1) a
    rw [hindex] at hanswers
    obtain ⟨_, heap, hcall, rfl, hbecomes⟩ := hanswers
    exact ⟨heap, hcall, hbecomes.holds⟩
  · obtain ⟨v, heap, hcall, hgains⟩ := hmerge [a]
    exact ⟨v, heap, hcall, hgains.new, hgains.holds, hgains.others a harray⟩

end Native
end Scriptlet
