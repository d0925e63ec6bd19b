import Scriptlet.Proofs.Correspondence

/-!
Natives in corresponding worlds.

A native sees numbers, what is behind references, renderings and equality, and none of these tells
corresponding worlds apart. Hence `Correspondence.call_native`: called with corresponding arguments,
a native gives corresponding values, refuses for the same reason, and leaves corresponding heaps and
the same console behind.
-/
namespace Scriptlet.Correspondence

open Native NativeAction

variable {K : Correspondence}

/-! ### The heap -/

theorem text_rel (r : TextRef) : K.Natives Eq (text (K.textRef r)) (text r) :=
  Simulates.get.bind fun _ _ hk => .pure (hk.heap.text_eq r)

theorem items_rel (r : ArrayRef) :
    K.Natives (fun b c => K.Lists b.toList c.toList) (items (K.arrayRef r)) (items r) :=
  Simulates.get.bind fun _ _ hk => .pure (hk.heap.items r)

theorem newText_rel (b : Buffer Char) :
    K.Natives K.Values (NativeAction.newText b) (NativeAction.newText b) := by
  refine Simulates.modifyGet fun h k hk => ⟨?_, ⟨hk.heap.newText b, hk.console⟩⟩
  show K.Values (.text (h.heap.newText b).1) (.text (k.heap.newText b).1)
  rw [hk.heap.newText_ref]
  exact .text _

theorem newArray_rel {b c : Buffer Value} (hb : K.Lists b.toList c.toList) :
    K.Natives K.Values (NativeAction.newArray b) (NativeAction.newArray c) := by
  refine Simulates.modifyGet fun h k hk => ⟨?_, ⟨hk.heap.newArray hb, hk.console⟩⟩
  show K.Values (.array (h.heap.newArray b).1) (.array (k.heap.newArray c).1)
  rw [hk.heap.newArray_ref b c]
  exact .array _

theorem setText_rel (r : TextRef) (b : Buffer Char) :
    K.Natives Eq (setText (K.textRef r) b) (setText r b) :=
  .modify fun _ _ hk => ⟨hk.heap.modifyText r _, hk.console⟩

theorem setArray_rel (r : ArrayRef) {b c : Buffer Value} (hb : K.Lists b.toList c.toList) :
    K.Natives Eq (setArray (K.arrayRef r) b) (setArray r c) :=
  .modify fun _ _ hk => ⟨hk.heap.modifyArray r fun _ _ _ => hb, hk.console⟩

theorem appendText_rel (r : TextRef) (cs : List Char) :
    K.Natives Eq (appendText (K.textRef r) cs) (appendText r cs) :=
  .modify fun _ _ hk => ⟨hk.heap.modifyText r _, hk.console⟩

theorem append_rel {b c : Buffer Value} {vs ws : List Value} (hb : K.Lists b.toList c.toList)
    (hv : K.Lists vs ws) : K.Lists (b.append vs).toList (c.append ws).toList := by
  rw [Buffer.toList_append, Buffer.toList_append]
  exact List.rel_append hb hv

theorem appendArray_rel (r : ArrayRef) {vs ws : List Value} (hv : K.Lists vs ws) :
    K.Natives Eq (appendArray (K.arrayRef r) vs) (appendArray r ws) :=
  .modify fun _ _ hk => ⟨hk.heap.modifyArray r fun _ _ hb => append_rel hb hv, hk.console⟩

theorem renderAction_rel {v w : Value} (hv : K.Values v w) :
    K.Natives Eq (NativeAction.render v) (NativeAction.render w) :=
  Simulates.get.bind fun _ _ hk => .pure (render_eq hk.heap hv)

/-! ### Arguments -/

/-- Sequences that correspond. -/
inductive Sequences (K : Correspondence) : Sequence → Sequence → Prop
  | text (r : TextRef) : Sequences K (.text (K.textRef r)) (.text r)
  | array (r : ArrayRef) : Sequences K (.array (K.arrayRef r)) (.array r)

theorem sequence_rel (param : String) {v w : Value} (hv : K.Values v w) :
    K.Natives K.Sequences (sequence param v) (sequence param w) := by
  cases hv with
  | text r => exact .pure (.text r)
  | array r => exact .pure (.array r)
  | _ => exact .throw rfl

theorem chars_rel (param : String) {v w : Value} (hv : K.Values v w) :
    K.Natives Eq (chars param v) (chars param w) := by
  cases hv with
  | text r => exact (text_rel r).bind fun b c hb => .pure (congrArg Buffer.toList hb)
  | _ => exact .throw rfl

theorem charsOfAll_rel (param : String) {vs ws : List Value} (hv : K.Lists vs ws) :
    K.Natives Eq (charsOfAll param vs) (charsOfAll param ws) := by
  induction hv with
  | nil => exact .pure rfl
  | cons hv _ ih =>
    refine (chars_rel param hv).bind fun cs cs' hc => ih.bind fun ds ds' hd => .pure ?_
    rw [hc, hd]

theorem itemsOf_rel (param : String) {v w : Value} (hv : K.Values v w) :
    K.Natives K.Lists (itemsOf param v) (itemsOf param w) := by
  cases hv with
  | array r => exact (items_rel r).bind fun b c hb => .pure hb
  | _ => exact .throw rfl

theorem itemsOfAll_rel (param : String) {vs ws : List Value} (hv : K.Lists vs ws) :
    K.Natives K.Lists (itemsOfAll param vs) (itemsOfAll param ws) := by
  induction hv with
  | nil => exact .pure .nil
  | cons hv _ ih =>
    exact (itemsOf_rel param hv).bind fun xs xs' hx => ih.bind fun ys ys' hy =>
      .pure (List.rel_append hx hy)

theorem position_rel (param : String) {v w : Value} (hv : K.Values v w) :
    K.Natives Eq (position param v) (position param w) := by
  rw [position, position, hv.toIndex?_eq]
  cases w.toIndex? with
  | some i => exact .pure rfl
  | none =>
    refine (renderAction_rel hv).bind fun s t hs => ?_
    rw [hs]
    exact .throw rfl

/-! ### Buffers -/

theorem insert?_rel {b c : Buffer Value} (hb : K.Lists b.toList c.toList) (i : Nat)
    {vs ws : List Value} (hv : K.Lists vs ws) :
    Option.Rel (fun b c : Buffer Value => K.Lists b.toList c.toList) (b.insert? i vs)
      (c.insert? i ws) := by
  have hs : b.size = c.size := hb.length_eq
  rw [Buffer.insert?, Buffer.insert?, hs]
  split
  · refine .some ?_
    rw [Buffer.toList_ofList, Buffer.toList_ofList]
    exact List.rel_append (List.rel_append (List.forall₂_take i hb) hv) (List.forall₂_drop i hb)
  · exact .none

theorem get?_rel {b c : Buffer Value} (hb : K.Lists b.toList c.toList) (i : Nat) :
    Option.Rel K.Values (b.get? i) (c.get? i) := by
  rw [Buffer.get?_eq_getElem?, Buffer.get?_eq_getElem?]
  generalize b.toList = xs at hb ⊢
  generalize c.toList = ys at hb ⊢
  induction hb generalizing i with
  | nil => exact .none
  | cons hv _ ih =>
    cases i with
    | zero => exact .some hv
    | succ i => exact ih i

theorem eraseIdx_rel {xs ys : List Value} (h : K.Lists xs ys) (i : Nat) :
    K.Lists (xs.eraseIdx i) (ys.eraseIdx i) := by
  rw [List.eraseIdx_eq_take_drop_succ, List.eraseIdx_eq_take_drop_succ]
  exact List.rel_append (List.forall₂_take i h) (List.forall₂_drop (i + 1) h)

theorem erase?_rel {b c : Buffer Value} (hb : K.Lists b.toList c.toList) (i : Nat) :
    Option.Rel (fun p q : Value × Buffer Value => K.Values p.1 q.1 ∧ K.Lists p.2.toList q.2.toList)
      (b.erase? i) (c.erase? i) := by
  have h := get?_rel hb i
  rw [Buffer.erase?, Buffer.erase?]
  generalize b.get? i = x at h ⊢
  generalize c.get? i = y at h ⊢
  cases h with
  | none => exact .none
  | some hv => exact .some ⟨hv, eraseIdx_rel hb i⟩

/-! ### The natives -/

theorem printAll_rel {vs ws : List Value} (hv : K.Lists vs ws) :
    K.Natives K.Values (printAll vs) (printAll ws) := by
  refine Simulates.bind (Q := Eq) (.modifyGet fun h k hk => ?_) ?_
  · rw [map_render_eq hv fun v w hvw => render_eq hk.heap hvw, hk.console]
    exact ⟨rfl, hk.heap, rfl⟩
  · rintro refusal? _ rfl
    cases refusal? with
    | none => exact .pure .nil
    | some reason => exact .throw rfl

theorem readLine_rel : K.Natives K.Values readLine readLine := by
  refine Simulates.bind (Q := Eq) (.modifyGet fun h k hk => ⟨?_, ⟨hk.heap, ?_⟩⟩) ?_
  · simp only [hk.console]
  · simp only [hk.console]
  · rintro taken _ rfl
    split
    · exact .throw rfl
    · exact .pure .nil
    · split
      · exact newText_rel _
      · exact .throw rfl

theorem clock_rel (args args' : List Value) :
    K.Natives K.Values (Native.call .clock args) (Native.call .clock args') := by
  refine .modifyGet fun h k hk => ⟨?_, ⟨hk.heap, ?_⟩⟩
  · simp only [hk.console]
    exact .float _
  · simp only [hk.console]

theorem length_rel {v w : Value} (hv : K.Values v w) :
    K.Natives K.Values (length v) (length w) := by
  refine (sequence_rel _ hv).bind fun s t hs => ?_
  cases hs with
  | text r =>
    refine (text_rel r).bind fun b c hb => .pure ?_
    rw [hb]
    exact .float _
  | array r =>
    refine (items_rel r).bind fun b c hb => .pure ?_
    rw [← Buffer.length_toList b, ← Buffer.length_toList c, hb.length_eq]
    exact .float _

theorem appendAll_rel {v w : Value} {vs ws : List Value} (hv : K.Values v w)
    (hvs : K.Lists vs ws) : K.Natives K.Values (appendAll v vs) (appendAll w ws) := by
  refine (sequence_rel _ hv).bind fun s t hs => ?_
  cases hs with
  | text r =>
    refine (charsOfAll_rel _ hvs).bind ?_
    rintro cs _ rfl
    exact (appendText_rel r cs).bind fun _ _ _ => .pure hv
  | array r => exact (appendArray_rel r hvs).bind fun _ _ _ => .pure hv

theorem extendAll_rel {v w : Value} {vs ws : List Value} (hv : K.Values v w)
    (hvs : K.Lists vs ws) : K.Natives K.Values (extendAll v vs) (extendAll w ws) := by
  refine (sequence_rel _ hv).bind fun s t hs => ?_
  cases hs with
  | text r =>
    refine (charsOfAll_rel _ hvs).bind ?_
    rintro cs _ rfl
    exact (appendText_rel r cs).bind fun _ _ _ => .pure hv
  | array r =>
    exact (itemsOfAll_rel _ hvs).bind fun xs ys hx =>
      (appendArray_rel r hx).bind fun _ _ _ => .pure hv

theorem mergeAll_rel {v w : Value} {vs ws : List Value} (hv : K.Values v w)
    (hvs : K.Lists vs ws) : K.Natives K.Values (mergeAll v vs) (mergeAll w ws) := by
  refine (sequence_rel _ hv).bind fun s t hs => ?_
  cases hs with
  | text r =>
    refine (text_rel r).bind ?_
    rintro b _ rfl
    refine (charsOfAll_rel _ hvs).bind ?_
    rintro cs _ rfl
    exact newText_rel _
  | array r =>
    exact (items_rel r).bind fun b c hb => (itemsOfAll_rel _ hvs).bind fun xs ys hx =>
      newArray_rel (append_rel hb hx)

theorem insertAt_rel {v w i j x y : Value} (hv : K.Values v w) (hi : K.Values i j)
    (hx : K.Values x y) : K.Natives K.Values (insertAt v i x) (insertAt w j y) := by
  refine (position_rel _ hi).bind ?_
  rintro i _ rfl
  refine (sequence_rel _ hv).bind fun s t hs => ?_
  cases hs with
  | text r =>
    refine (chars_rel _ hx).bind ?_
    rintro cs _ rfl
    refine (text_rel r).bind ?_
    rintro b _ rfl
    cases b.insert? i cs with
    | some b => exact (setText_rel r b).bind fun _ _ _ => .pure hv
    | none => exact .throw rfl
  | array r =>
    refine (items_rel r).bind fun b c hb => ?_
    have h := insert?_rel hb i (.cons hx .nil)
    have hs : b.size = c.size := hb.length_eq
    rw [hs]
    generalize b.insert? i [x] = b' at h ⊢
    generalize c.insert? i [y] = c' at h ⊢
    cases h with
    | some hb => exact (setArray_rel r hb).bind fun _ _ _ => .pure hv
    | none => exact .throw rfl

theorem findIdx?_rel {xs ys : List Value} (h : K.Lists xs ys) {p q : Value → Bool}
    (hpq : ∀ v w, K.Values v w → p v = q w) : xs.findIdx? p = ys.findIdx? q := by
  induction h with
  | nil => rfl
  | cons hv _ ih => rw [List.findIdx?_cons, List.findIdx?_cons, hpq _ _ hv, ih]

theorem countP_rel {xs ys : List Value} (h : K.Lists xs ys) {p q : Value → Bool}
    (hpq : ∀ v w, K.Values v w → p v = q w) : xs.countP p = ys.countP q := by
  induction h with
  | nil => rfl
  | cons hv _ ih => rw [List.countP_cons, List.countP_cons, hpq _ _ hv, ih]

theorem positionOf?_rel (r : ArrayRef) {x y : Value} (hx : K.Values x y) :
    K.Natives Eq (positionOf? (K.arrayRef r) x) (positionOf? r y) := by
  refine Simulates.get.bind fun h k hk => .pure ?_
  exact findIdx?_rel (hk.heap.items r) fun v w hvw => equal_eq hk.heap hvw hx

theorem indexOf_rel {v w x y : Value} (hv : K.Values v w) (hx : K.Values x y) :
    K.Natives K.Values (indexOf v x) (indexOf w y) := by
  refine (sequence_rel _ hv).bind fun s t hs => ?_
  cases hs with
  | text r =>
    refine (chars_rel _ hx).bind ?_
    rintro cs _ rfl
    refine (text_rel r).bind ?_
    rintro b _ rfl
    refine (Simulates.pure (Q := Eq) rfl).bind ?_
    rintro i _ rfl
    cases i with
    | some i => exact .pure (.float _)
    | none => exact .pure (.float _)
  | array r =>
    refine (positionOf?_rel r hx).bind ?_
    rintro i _ rfl
    cases i with
    | some i => exact .pure (.float _)
    | none => exact .pure (.float _)

theorem countOf_rel {v w x y : Value} (hv : K.Values v w) (hx : K.Values x y) :
    K.Natives K.Values (countOf v x) (countOf w y) := by
  refine (sequence_rel _ hv).bind fun s t hs => ?_
  cases hs with
  | text r =>
    refine (chars_rel _ hx).bind ?_
    rintro cs _ rfl
    split
    · exact .throw rfl
    · refine (text_rel r).bind ?_
      rintro b _ rfl
      exact .pure (.float _)
  | array r =>
    refine Simulates.get.bind fun h k hk => .pure ?_
    rw [countP_rel (hk.heap.items r) fun v w hvw => equal_eq hk.heap hvw hx]
    exact .float _

theorem popOne_rel {s t : Sequence} (hs : K.Sequences s t) {v w : Value} (hv : K.Values v w) :
    K.Natives K.Values (popOne s v) (popOne t w) := by
  refine (position_rel _ hv).bind ?_
  rintro i _ rfl
  cases hs with
  | text r =>
    refine (text_rel r).bind ?_
    rintro b _ rfl
    cases b.erase? i with
    | some p => exact (setText_rel r _).bind fun _ _ _ => newText_rel _
    | none => exact .throw rfl
  | array r =>
    refine (items_rel r).bind fun b c hb => ?_
    have h := erase?_rel hb i
    have hs : b.size = c.size := hb.length_eq
    rw [hs]
    generalize b.erase? i = b' at h ⊢
    generalize c.erase? i = c' at h ⊢
    cases h with
    | some h => exact (setArray_rel r h.2).bind fun _ _ _ => .pure h.1
    | none => exact .throw rfl

theorem popEach_rel {s t : Sequence} (hs : K.Sequences s t) {vs ws : List Value}
    (hv : K.Lists vs ws) : K.Natives K.Lists (popEach s vs) (popEach t ws) := by
  induction hv with
  | nil => exact .pure .nil
  | cons hv _ ih =>
    exact (popOne_rel hs hv).bind fun x y hx => ih.bind fun xs ys hxs => .pure (.cons hx hxs)

theorem popAll_rel {v w : Value} {vs ws : List Value} (hv : K.Values v w)
    (hvs : K.Lists vs ws) : K.Natives K.Values (popAll v vs) (popAll w ws) := by
  refine (sequence_rel _ hv).bind fun s t hs => ?_
  refine (popEach_rel hs hvs).bind fun xs ys hx => ?_
  cases hx with
  | nil => exact newArray_rel .nil
  | cons hx hxs =>
    cases hxs with
    | nil => exact .pure hx
    | cons hx' hxs => exact newArray_rel (.cons hx (.cons hx' hxs))

theorem removeOne_rel {s t : Sequence} (hs : K.Sequences s t) {x y : Value} (hx : K.Values x y) :
    K.Natives Eq (removeOne s x) (removeOne t y) := by
  cases hs with
  | text r =>
    refine (chars_rel _ hx).bind ?_
    rintro cs _ rfl
    refine (text_rel r).bind ?_
    rintro b _ rfl
    cases b.find? cs with
    | some i =>
      dsimp only
      cases b.eraseRange? i (i + cs.length) with
      | some b => exact setText_rel r b
      | none => exact .pure rfl
    | none =>
      refine (renderAction_rel hx).bind ?_
      rintro s _ rfl
      exact .throw rfl
  | array r =>
    refine (positionOf?_rel r hx).bind ?_
    rintro i _ rfl
    cases i with
    | some i =>
      refine (items_rel r).bind fun b c hb => ?_
      have h := erase?_rel hb i
      generalize b.erase? i = b' at h ⊢
      generalize c.erase? i = c' at h ⊢
      cases h with
      | some h => exact setArray_rel r h.2
      | none => exact .pure rfl
    | none =>
      refine (renderAction_rel hx).bind ?_
      rintro s _ rfl
      exact .throw rfl

theorem removeEach_rel {s t : Sequence} (hs : K.Sequences s t) {vs ws : List Value}
    (hv : K.Lists vs ws) : K.Natives Eq (removeEach s vs) (removeEach t ws) := by
  induction hv with
  | nil => exact .pure rfl
  | cons hv _ ih => exact (removeOne_rel hs hv).bind fun _ _ _ => ih

theorem removeAll_rel {v w : Value} {vs ws : List Value} (hv : K.Values v w)
    (hvs : K.Lists vs ws) : K.Natives K.Values (removeAll v vs) (removeAll w ws) := by
  exact (sequence_rel _ hv).bind fun s t hs => (removeEach_rel hs hvs).bind fun _ _ _ => .pure hv

theorem clearAll_rel {v w : Value} (hv : K.Values v w) :
    K.Natives K.Values (clearAll v) (clearAll w) := by
  refine (sequence_rel _ hv).bind fun s t hs => ?_
  cases hs with
  | text r => exact (setText_rel r _).bind fun _ _ _ => .pure hv
  | array r =>
    exact (setArray_rel (b := Buffer.empty) (c := Buffer.empty) r .nil).bind fun _ _ _ => .pure hv

theorem toNumber_rel {v w : Value} (hv : K.Values v w) :
    K.Natives K.Values (toNumber v) (toNumber w) := by
  cases hv with
  | float x => exact .pure (.float x)
  | text r =>
    refine (text_rel r).bind ?_
    rintro b _ rfl
    split
    · exact .pure (.float _)
    · exact .pure .nil
  | _ => exact .throw rfl

/-- Natives give corresponding answers to corresponding arguments. -/
theorem call_native (n : Native) {vs ws : List Value} (hv : K.Lists vs ws) :
    K.Natives K.Values (n.call vs) (n.call ws) := by
  cases n with
  | print => exact printAll_rel hv
  | input => exact readLine_rel
  | clock => exact clock_rel vs ws
  | append =>
    cases hv with
    | nil => exact .pure .nil
    | cons h hs => exact appendAll_rel h hs
  | extend =>
    cases hv with
    | nil => exact .pure .nil
    | cons h hs => exact extendAll_rel h hs
  | merge =>
    cases hv with
    | nil => exact .pure .nil
    | cons h hs => exact mergeAll_rel h hs
  | pop =>
    cases hv with
    | nil => exact .pure .nil
    | cons h hs => exact popAll_rel h hs
  | remove =>
    cases hv with
    | nil => exact .pure .nil
    | cons h hs => exact removeAll_rel h hs
  | len =>
    rcases hv with _ | ⟨h, _ | _⟩
    · exact .pure .nil
    · exact length_rel h
    · exact .pure .nil
  | clear =>
    rcases hv with _ | ⟨h, _ | _⟩
    · exact .pure .nil
    · exact clearAll_rel h
    · exact .pure .nil
  | number =>
    rcases hv with _ | ⟨h, _ | _⟩
    · exact .pure .nil
    · exact toNumber_rel h
    · exact .pure .nil
  | index =>
    rcases hv with _ | ⟨h, _ | ⟨h', _ | _⟩⟩
    · exact .pure .nil
    · exact .pure .nil
    · exact indexOf_rel h h'
    · exact .pure .nil
  | count =>
    rcases hv with _ | ⟨h, _ | ⟨h', _ | _⟩⟩
    · exact .pure .nil
    · exact .pure .nil
    · exact countOf_rel h h'
    · exact .pure .nil
  | insert =>
    rcases hv with _ | ⟨h, _ | ⟨h', _ | ⟨h'', _ | _⟩⟩⟩
    · exact .pure .nil
    · exact .pure .nil
    · exact .pure .nil
    · exact insertAt_rel h h' h''
    · exact .pure .nil

end Scriptlet.Correspondence
