import Scriptlet.Proofs.Atomicity
import Scriptlet.Proofs.Elements

/-!
What a native leaves behind when it fails.

A native that is atomic leaves nothing half-done. `pop` and `remove` handle their arguments one after
the other: a call with several of them is the calls with one each, in that order and up to the first
that is refused (`Native.pop_eq_mapM`, `Native.remove_eq_mapM`), and what the calls before that one
did stays done (`Native.call_leaves`).
-/
namespace Scriptlet

/-! ### Actions in a row -/

namespace NativeAction

open Actions

variable {α : Type} {host host' : Host} {e : NativeError}

/-- The actions for some values succeed one after the other, with these results. -/
inductive Turns (one : Value → NativeAction α) : List Value → Host → List α → Host → Prop
  | nil (host : Host) : Turns one [] host [] host
  | cons {x : Value} {xs : List Value} {y : α} {ys : List α} {host mid host' : Host}
    (first : one x host = .ok y mid) (rest : Turns one xs mid ys host') :
    Turns one (x :: xs) host (y :: ys) host'

variable {one : Value → NativeAction α} {xs : List Value}

theorem mapM_eq_ok_iff {ys : List α} :
    (xs.mapM one : NativeAction (List α)) host = .ok ys host' ↔ Turns one xs host ys host' := by
  induction xs generalizing host ys with
  | nil =>
    rw [List.mapM_nil]
    constructor
    · intro h
      cases h
      exact .nil _
    · intro h
      cases h
      rfl
  | cons x xs ih =>
    rw [List.mapM_cons, bind_eq_ok]
    constructor
    · rintro ⟨y, mid, hfirst, h⟩
      obtain ⟨zs, _, hrest, h⟩ := bind_eq_ok.mp h
      cases h
      exact .cons hfirst (ih.mp hrest)
    · intro h
      cases h with
      | cons first rest => exact ⟨_, _, first, bind_eq_ok.mpr ⟨_, _, ih.mpr rest, rfl⟩⟩

/-- A row of actions fails at the first one that does, when those before it have been done. -/
theorem mapM_eq_error_iff :
    (xs.mapM one : NativeAction (List α)) host = .error e host' ↔
      ∃ done x rest ys mid, xs = done ++ x :: rest ∧ Turns one done host ys mid ∧
        one x mid = .error e host' := by
  induction xs generalizing host with
  | nil =>
    rw [List.mapM_nil]
    constructor
    · intro h
      cases h
    · rintro ⟨done, x, rest, ys, mid, hxs, -⟩
      cases done <;> cases hxs
  | cons x xs ih =>
    rw [List.mapM_cons, bind_eq_error]
    constructor
    · rintro (hfirst | ⟨y, mid, hfirst, h⟩)
      · exact ⟨[], x, xs, [], host, rfl, .nil host, hfirst⟩
      · rcases bind_eq_error.mp h with h | ⟨zs, _, -, h⟩
        · obtain ⟨done, z, rest, ys, last, rfl, hdone, hz⟩ := ih.mp h
          exact ⟨x :: done, z, rest, y :: ys, last, rfl, .cons hfirst hdone, hz⟩
        · cases h
    · rintro ⟨done, z, rest, ys, mid, hxs, hdone, hz⟩
      cases hdone with
      | nil =>
        cases hxs
        exact .inl hz
      | cons first hdone =>
        cases hxs
        exact .inr ⟨_, _, first,
          bind_eq_error.mpr (.inl (ih.mpr ⟨_, z, rest, _, mid, rfl, hdone, hz⟩))⟩

end NativeAction

/-! ### Natives that handle their arguments one after the other -/

namespace Native

open Actions NativeAction

/-- What several results of `pop` are returned as. -/
def gather : List Value → NativeAction Value
  | [x] => pure x
  | xs => newArray (.ofList xs)

theorem popEach_eq_mapM (s : Sequence) (xs : List Value) : popEach s xs = xs.mapM (popOne s) := by
  induction xs with
  | nil => rfl
  | cons x xs ih => rw [popEach, ih, List.mapM_cons]

theorem pop_value (s : Sequence) (xs : List Value) :
    pop.call (s.value :: xs) = popEach s xs >>= gather := by
  cases s <;> rfl

theorem pop_value_one (s : Sequence) (x : Value) : pop.call [s.value, x] = popOne s x := by
  rw [pop_value, popEach_eq_mapM, List.mapM_cons, List.mapM_nil]
  simp only [bind_assoc, pure_bind]
  exact bind_pure (popOne s x)

theorem pop_eq_mapM (v : Value) {xs : List Value} (hxs : xs ≠ []) :
    pop.call (v :: xs) = (xs.mapM fun x => pop.call [v, x]) >>= gather := by
  have hvalue : ∀ s : Sequence, pop.call (s.value :: xs) =
      (xs.mapM fun x => pop.call [s.value, x]) >>= gather := by
    intro s
    rw [pop_value, popEach_eq_mapM]
    simp only [pop_value_one]
  cases v with
  | text r => exact hvalue (.text r)
  | array r => exact hvalue (.array r)
  | _ =>
    obtain ⟨x, xs, rfl⟩ := List.exists_cons_of_ne_nil hxs
    rw [List.mapM_cons]
    rfl

theorem remove_value (s : Sequence) (xs : List Value) :
    remove.call (s.value :: xs) = removeEach s xs >>= fun _ => pure s.value := by
  cases s <;> rfl

theorem remove_value_one (s : Sequence) (x : Value) :
    remove.call [s.value, x] = removeOne s x >>= fun _ => pure s.value := by
  rw [remove_value, removeEach, removeEach, bind_assoc]
  rfl

theorem remove_eq_mapM (v : Value) {xs : List Value} (hxs : xs ≠ []) :
    remove.call (v :: xs) = (xs.mapM fun x => remove.call [v, x]) >>= fun _ => pure v := by
  have hvalue : ∀ s : Sequence, remove.call (s.value :: xs) =
      (xs.mapM fun x => remove.call [s.value, x]) >>= fun _ => pure s.value := by
    intro s
    rw [remove_value]
    clear hxs
    induction xs with
    | nil => rfl
    | cons x xs ih =>
      rw [removeEach, bind_assoc, ih, List.mapM_cons, remove_value_one]
      simp only [bind_assoc, pure_bind]
  cases v with
  | text r => exact hvalue (.text r)
  | array r => exact hvalue (.array r)
  | _ =>
    obtain ⟨x, xs, rfl⟩ := List.exists_cons_of_ne_nil hxs
    rw [List.mapM_cons]
    rfl

/-! ### One argument -/

theorem popOne_isAtomic (s : Sequence) (x : Value) : IsAtomic (popOne s x) := by
  refine (position_onlyReads _ x).bind_isAtomic fun i => ?_
  cases s with
  | array r =>
    refine (items_onlyReads r).bind_isAtomic fun b => ?_
    rcases b.erase? i with _ | ⟨y, b'⟩
    · exact isAtomic_throw _
    · exact isAtomic_of_ok fun host => ⟨_, _, rfl⟩
  | text r =>
    refine (text_onlyReads r).bind_isAtomic fun b => ?_
    rcases b.erase? i with _ | ⟨c, b'⟩
    · exact isAtomic_throw _
    · exact isAtomic_of_ok fun host => ⟨_, _, rfl⟩

theorem removeOne_isAtomic (s : Sequence) (x : Value) : IsAtomic (removeOne s x) := by
  cases s with
  | array r =>
    have hreads : OnlyReads (positionOf? r x) := fun host => .inl ⟨_, rfl⟩
    refine hreads.bind_isAtomic fun found? => ?_
    cases found? with
    | none =>
      intro host e host' h
      cases h
      rfl
    | some i =>
      refine (items_onlyReads r).bind_isAtomic fun b => ?_
      rcases b.erase? i with _ | ⟨_, b'⟩
      · exact isAtomic_of_ok fun host => ⟨_, _, rfl⟩
      · exact isAtomic_of_ok fun host => ⟨_, _, rfl⟩
  | text r =>
    refine (chars_onlyReads _ x).bind_isAtomic fun needle => ?_
    refine (text_onlyReads r).bind_isAtomic fun b => ?_
    cases b.find? needle with
    | none =>
      intro host e host' h
      cases h
      rfl
    | some i =>
      dsimp only
      cases b.eraseRange? i (i + needle.length) <;> exact isAtomic_of_ok fun host => ⟨_, _, rfl⟩

variable {host host' : Host} {s : Sequence} {x y : Value}

theorem position_eq_ok {param : String} {i : Nat} (h : position param x host = .ok i host') :
    x.toIndex? = some i ∧ host = host' := by
  rw [position] at h
  cases hi : x.toIndex? with
  | none =>
    rw [hi] at h
    cases h
  | some j =>
    rw [hi] at h
    cases h
    exact ⟨rfl, rfl⟩

/-- `pop` takes out the element at the position that it is given. -/
theorem popOne_eq_ok (hpop : popOne s x host = .ok y host') :
    host.heap.TakesOut s.value x y host'.heap ∧ host.heap.AltersOnly s.value host'.heap := by
  obtain ⟨i, mid, hposition, htake⟩ := bind_eq_ok.mp hpop
  obtain ⟨hi, rfl⟩ := position_eq_ok hposition
  cases s with
  | array r =>
    obtain ⟨b, _, hb, htake⟩ := bind_eq_ok.mp htake
    cases hb
    cases herase : (host.heap.items r).erase? i with
    | none =>
      rw [herase] at htake
      cases htake
    | some taken =>
      rw [herase] at htake
      cases htake
      obtain ⟨hget, hrest⟩ := Buffer.erase?_eq_some.mp herase
      have hr := Heap.lt_of_items (List.ne_nil_of_mem (List.mem_of_getElem? hget))
      have hbecomes := Heap.becomes_modifyArray hr fun _ => taken.2
      rw [hrest] at hbecomes
      refine ⟨⟨i, _, .item taken.1, _, hi, rfl, ?_, hbecomes, rfl, ?_⟩,
        Heap.altersOnly_modifyArray r _⟩
      · rw [Contents.get?, hget]
        rfl
      · rw [← hrest]
  | text r =>
    obtain ⟨b, _, hb, htake⟩ := bind_eq_ok.mp htake
    cases hb
    cases herase : (host.heap.text r).erase? i with
    | none =>
      rw [herase] at htake
      cases htake
    | some taken =>
      rw [herase] at htake
      cases htake
      obtain ⟨hget, hrest⟩ := Buffer.erase?_eq_some.mp herase
      have hr := Heap.lt_of_text (List.ne_nil_of_mem (List.mem_of_getElem? hget))
      have hbecomes := Heap.becomes_modifyText hr fun _ => taken.2
      have hgains := Heap.gains_newText (h := host.heap.modifyText r fun _ => taken.2)
        (.ofList [taken.1])
      rw [hrest] at hbecomes
      refine ⟨⟨i, _, .char taken.1, _, hi, rfl, ?_, hbecomes, ?_⟩,
        (Heap.altersOnly_modifyText r _).trans (Heap.altersOnly_newText _ _)⟩
      · rw [Contents.get?, hget]
        rfl
      · rw [← hrest]
        exact hgains

theorem removeOne_altersOnly {u : Unit} (hremove : removeOne s x host = .ok u host') :
    host.heap.AltersOnly s.value host'.heap := by
  cases s with
  | array r =>
    obtain ⟨found?, _, hfound, htake⟩ := bind_eq_ok.mp hremove
    cases hfound
    cases hi : (host.heap.items r).toList.findIdx? (host.heap.equal · x) with
    | none =>
      rw [hi] at htake
      cases htake
    | some i =>
      rw [hi] at htake
      obtain ⟨b, _, hb, htake⟩ := bind_eq_ok.mp htake
      cases hb
      cases herase : (host.heap.items r).erase? i with
      | none =>
        rw [herase] at htake
        cases htake
        exact .refl _ _
      | some taken =>
        rw [herase] at htake
        cases htake
        exact Heap.altersOnly_modifyArray r _
  | text r =>
    obtain ⟨needle, mid, hneedle, htake⟩ := bind_eq_ok.mp hremove
    obtain rfl := (chars_onlyReads _ x).eq_of_ok hneedle
    obtain ⟨b, _, hb, htake⟩ := bind_eq_ok.mp htake
    cases hb
    cases hi : (host.heap.text r).find? needle with
    | none =>
      rw [hi] at htake
      cases htake
    | some i =>
      rw [hi] at htake
      dsimp only at htake
      cases herase : (host.heap.text r).eraseRange? i (i + needle.length) with
      | none =>
        rw [herase] at htake
        cases htake
        exact .refl _ _
      | some b =>
        rw [herase] at htake
        cases htake
        exact Heap.altersOnly_modifyText r _

/-- A call with one argument that is refused changes nothing. -/
theorem call_one_isAtomic {n : Native} (hn : n ∈ [pop, remove]) (v x : Value) :
    IsAtomic (n.call [v, x]) := by
  have hremove : ∀ s : Sequence, IsAtomic (remove.call [s.value, x]) := by
    intro s host e host' h
    rw [remove_value_one] at h
    rcases bind_eq_error.mp h with h | ⟨_, mid, -, h⟩
    · exact removeOne_isAtomic s x host e host' h
    · cases h
  rcases List.mem_pair.mp hn with rfl | rfl
  · cases v with
    | text r => exact pop_value_one (.text r) x ▸ popOne_isAtomic (.text r) x
    | array r => exact pop_value_one (.array r) x ▸ popOne_isAtomic (.array r) x
    | _ => exact isAtomic_throw _
  · cases v with
    | text r => exact hremove (.text r)
    | array r => exact hremove (.array r)
    | _ => exact isAtomic_throw _

theorem pop_one_eq_ok {v : Value} (h : pop.call [v, x] host = .ok y host') :
    ∃ s : Sequence, s.value = v ∧ popOne s x host = .ok y host' := by
  cases v with
  | text r => exact ⟨.text r, rfl, pop_value_one (.text r) x ▸ h⟩
  | array r => exact ⟨.array r, rfl, pop_value_one (.array r) x ▸ h⟩
  | _ => cases h

theorem remove_one_eq_ok {v : Value} (h : remove.call [v, x] host = .ok y host') :
    y = v ∧ ∃ (s : Sequence) (u : Unit), s.value = v ∧ removeOne s x host = .ok u host' := by
  have hvalue : ∀ s : Sequence, remove.call [s.value, x] host = .ok y host' →
      y = s.value ∧ ∃ u : Unit, removeOne s x host = .ok u host' := by
    intro s h
    rw [remove_value_one] at h
    obtain ⟨u, _, hremove, h⟩ := bind_eq_ok.mp h
    cases h
    exact ⟨rfl, u, hremove⟩
  cases v with
  | text r =>
    obtain ⟨rfl, u, hremove⟩ := hvalue (.text r) h
    exact ⟨rfl, .text r, u, rfl, hremove⟩
  | array r =>
    obtain ⟨rfl, u, hremove⟩ := hvalue (.array r) h
    exact ⟨rfl, .array r, u, rfl, hremove⟩
  | _ => cases h

theorem call_one_altersOnly {n : Native} (hn : n ∈ [pop, remove]) {v : Value}
    (h : n.call [v, x] host = .ok y host') : host.heap.AltersOnly v host'.heap := by
  rcases List.mem_pair.mp hn with rfl | rfl
  · obtain ⟨s, rfl, hpop⟩ := pop_one_eq_ok h
    exact (popOne_eq_ok hpop).2
  · obtain ⟨-, s, u, rfl, hremove⟩ := remove_one_eq_ok h
    exact removeOne_altersOnly hremove

/-! ### Several arguments -/

/-- Calls of a native for the sequence `v`, with one further argument each, that succeed one after
the other and return these values. -/
def InTurn (n : Native) (v : Value) : List Value → Host → List Value → Host → Prop :=
  Turns fun x => n.call [v, x]

theorem InTurn.altersOnly {n : Native} (hn : n ∈ [pop, remove]) {v : Value} {xs ys : List Value}
    (h : n.InTurn v xs host ys host') : host.heap.AltersOnly v host'.heap := by
  induction h with
  | nil host => exact .refl _ _
  | cons first rest ih => exact (call_one_altersOnly hn first).trans ih

/-- What `pop` returns for the elements that it has taken out one after the other: the only one, or
a new array of them in that order. -/
def Gathers (ys : List Value) (mid : Host) (y : Value) (host' : Host) : Prop :=
  ys = [y] ∧ host' = mid ∨ ys.length ≠ 1 ∧ mid.heap.Gains (.items ys) y host'.heap

theorem gather_eq_ok (ys : List Value) (mid : Host) :
    ∃ y host', gather ys mid = .ok y host' ∧ Gathers ys mid y host' := by
  rcases ys with _ | ⟨y, _ | ⟨z, zs⟩⟩
  · exact ⟨_, _, rfl, .inr ⟨by simp, Heap.gains_newArray .empty⟩⟩
  · exact ⟨y, mid, rfl, .inl ⟨rfl, rfl⟩⟩
  · exact ⟨_, _, rfl, .inr ⟨by simp, Heap.gains_newArray (.ofList (y :: z :: zs))⟩⟩

/-- After the elements have been taken out, no buffer that was there before changes any more. -/
theorem gather_contents {ys : List Value} {mid : Host} (h : gather ys mid = .ok y host') :
    Gathers ys mid y host' ∧
      ∀ u, mid.heap.IsBuffer u → host'.heap.contents? u = mid.heap.contents? u := by
  obtain ⟨z, last, hgather, hz⟩ := gather_eq_ok ys mid
  cases hgather.symm.trans h
  refine ⟨hz, fun u hu => ?_⟩
  rcases hz with ⟨-, rfl⟩ | ⟨-, hgains⟩
  · rfl
  · exact hgains.others u hu

/-- A call that succeeds is the calls with one argument each, and nothing but these changes a buffer
that was there. -/
theorem call_eq_ok {n : Native} (hn : n ∈ [pop, remove]) {v : Value} {xs : List Value}
    (hxs : xs ≠ []) (h : n.call (v :: xs) host = .ok y host') :
    ∃ ys mid, n.InTurn v xs host ys mid ∧
      (∀ u, mid.heap.IsBuffer u → host'.heap.contents? u = mid.heap.contents? u) ∧
      (n = pop ∧ Gathers ys mid y host' ∨ n = remove ∧ y = v ∧ host' = mid) := by
  rcases List.mem_pair.mp hn with rfl | rfl
  · rw [pop_eq_mapM v hxs] at h
    obtain ⟨ys, mid, hturns, hgather⟩ := bind_eq_ok.mp h
    obtain ⟨hgathers, hcontents⟩ := gather_contents hgather
    exact ⟨ys, mid, mapM_eq_ok_iff.mp hturns, hcontents, .inl ⟨rfl, hgathers⟩⟩
  · rw [remove_eq_mapM v hxs] at h
    obtain ⟨ys, mid, hturns, hpure⟩ := bind_eq_ok.mp h
    cases hpure
    exact ⟨ys, host', mapM_eq_ok_iff.mp hturns, fun _ _ => rfl, .inr ⟨rfl, rfl, rfl⟩⟩

theorem exists_call_eq_ok {n : Native} (hn : n ∈ [pop, remove]) {v : Value} {xs ys : List Value}
    {mid : Host} (hxs : xs ≠ []) (h : n.InTurn v xs host ys mid) :
    ∃ y host', n.call (v :: xs) host = .ok y host' := by
  rcases List.mem_pair.mp hn with rfl | rfl
  · obtain ⟨y, host', hgather, -⟩ := gather_eq_ok ys mid
    refine ⟨y, host', ?_⟩
    rw [pop_eq_mapM v hxs]
    exact bind_eq_ok.mpr ⟨ys, mid, mapM_eq_ok_iff.mpr h, hgather⟩
  · refine ⟨v, mid, ?_⟩
    rw [remove_eq_mapM v hxs]
    exact bind_eq_ok.mpr ⟨ys, mid, mapM_eq_ok_iff.mpr h, rfl⟩

/-- A call fails at the first argument that is refused, and leaves what the calls for those before
it have left. -/
theorem call_eq_error_iff {n : Native} (hn : n ∈ [pop, remove]) {v : Value} {xs : List Value}
    (hxs : xs ≠ []) {e : NativeError} :
    n.call (v :: xs) host = .error e host' ↔
      ∃ done x rest ys, xs = done ++ x :: rest ∧ n.InTurn v done host ys host' ∧
        n.call [v, x] host' = .error e host' := by
  have hrow : n.call (v :: xs) host = .error e host' ↔
      (xs.mapM fun x => n.call [v, x] : NativeAction (List Value)) host = .error e host' := by
    rcases List.mem_pair.mp hn with rfl | rfl
    · rw [pop_eq_mapM v hxs, bind_eq_error]
      refine or_iff_left ?_
      rintro ⟨ys, mid, -, h⟩
      obtain ⟨y, last, hgather, -⟩ := gather_eq_ok ys mid
      cases hgather.symm.trans h
    · rw [remove_eq_mapM v hxs, bind_eq_error]
      refine or_iff_left ?_
      rintro ⟨ys, mid, -, h⟩
      cases h
  rw [hrow, mapM_eq_error_iff]
  constructor
  · rintro ⟨done, x, rest, ys, mid, hxs, hdone, hx⟩
    obtain rfl := call_one_isAtomic hn v x mid e host' hx
    exact ⟨done, x, rest, ys, hxs, hdone, hx⟩
  · rintro ⟨done, x, rest, ys, hxs, hdone, hx⟩
    exact ⟨done, x, rest, ys, host', hxs, hdone, hx⟩

theorem ne_nil_of_accepts {n : Native} (hn : n ∈ [pop, remove]) {v : Value} {xs : List Value}
    (h : n.arity.accepts (v :: xs).length = true) : xs ≠ [] := by
  rintro rfl
  rcases List.mem_pair.mp hn with rfl | rfl <;> cases h

/-- A sequence from which something could be taken is there. -/
theorem InTurn.isBuffer {v : Value} {xs ys : List Value} (hxs : xs ≠ [])
    (h : pop.InTurn v xs host ys host') : host.heap.IsBuffer v := by
  cases h with
  | nil => exact absurd rfl hxs
  | cons first rest =>
    obtain ⟨s, rfl, hpop⟩ := pop_one_eq_ok first
    obtain ⟨i, c, el, mid, -, hc, hget, -⟩ := (popOne_eq_ok hpop).1
    exact Heap.isBuffer_of_get? hc hget

/-- **A native that fails leaves nothing half-done**, but for `pop` and `remove`, which keep what
they have done for the arguments before the one that is refused. So for the sequence `v`, a call of
one of these fails exactly if the calls with one argument each succeed up to one that fails, and it
leaves what they leave. It succeeds exactly if they all do, leaves `v` as they do, and `pop` returns
the elements that they took out, in that order. In each case no other buffer changes. -/
theorem call_leaves (host : Host) :
    (∀ n ∈ [append, extend, insert, clear, merge, len, index, count, number], ∀ args e host',
      n.call args host = .error e host' → host' = host) ∧
    (∀ v x y host', pop.call [v, x] host = .ok y host' → host.heap.TakesOut v x y host'.heap) ∧
    ∀ n ∈ [pop, remove], ∀ v xs, n.arity.accepts (v :: xs).length = true →
      (∀ e host', n.call (v :: xs) host = .error e host' ↔
        ∃ done x rest ys, xs = done ++ x :: rest ∧ n.InTurn v done host ys host' ∧
          n.call [v, x] host' = .error e host') ∧
      ((∃ y host', n.call (v :: xs) host = .ok y host') ↔ ∃ ys mid, n.InTurn v xs host ys mid) ∧
      (∀ y host', n.call (v :: xs) host = .ok y host' →
        ∃ ys mid, n.InTurn v xs host ys mid ∧ host'.heap.contents? v = mid.heap.contents? v ∧
          (n = pop ∧ Gathers ys mid y host' ∨ n = remove ∧ y = v ∧ host' = mid)) ∧
      ∀ host', (∃ e, n.call (v :: xs) host = .error e host') ∨
          (∃ y, n.call (v :: xs) host = .ok y host') →
        ∀ u, host.heap.IsBuffer u → u ≠ v → host'.heap.contents? u = host.heap.contents? u := by
  refine ⟨fun n hn args => call_isAtomic hn args host, ?_, ?_⟩
  · intro v x y host' h
    obtain ⟨s, rfl, hpop⟩ := pop_one_eq_ok h
    exact (popOne_eq_ok hpop).1
  intro n hn v xs haccepts
  have hxs := ne_nil_of_accepts hn haccepts
  refine ⟨fun e host' => call_eq_error_iff hn hxs, ⟨?_, ?_⟩, ?_, ?_⟩
  · rintro ⟨y, host', h⟩
    obtain ⟨ys, mid, hturns, -⟩ := call_eq_ok hn hxs h
    exact ⟨ys, mid, hturns⟩
  · rintro ⟨ys, mid, hturns⟩
    exact exists_call_eq_ok hn hxs hturns
  · intro y host' h
    obtain ⟨ys, mid, hturns, hcontents, hreturns⟩ := call_eq_ok hn hxs h
    refine ⟨ys, mid, hturns, ?_, hreturns⟩
    rcases hreturns with ⟨rfl, -⟩ | ⟨rfl, -, rfl⟩
    · exact hcontents v ((hturns.altersOnly hn).there v (hturns.isBuffer hxs))
    · rfl
  · rintro host' (⟨e, h⟩ | ⟨y, h⟩) u hu hne
    · obtain ⟨done, x, rest, ys, -, hdone, -⟩ := (call_eq_error_iff hn hxs).mp h
      exact (hdone.altersOnly hn).others u hu hne
    · obtain ⟨ys, mid, hturns, hcontents, -⟩ := call_eq_ok hn hxs h
      have halters := hturns.altersOnly hn
      exact (hcontents u (halters.there u hu)).trans (halters.others u hu hne)

/-- An array is removed from itself, then one of its items, and then a value that is not there; the
last argument is not looked at. The second index of `pop` is out of the array as the first has left
it. A text to which something else is appended stays as it is. -/
theorem call_leaves_half_done :
    let a : Value := .array ⟨0⟩
    let host : Host := ⟨⟨#[.ofList ['a']], #[.ofList [.bool true, a, .bool true]]⟩, .ofInput []⟩
    (∃ e, Native.append.call [.text ⟨0⟩, .text ⟨0⟩, .nil] host = .error e host) ∧
    (∃ e host', Native.remove.call [a, a, .bool true, .nil, .bool true] host = .error e host' ∧
      host'.heap.contents? a = some (.items [.bool true]) ∧
      host'.heap.contents? (.text ⟨0⟩) = some (.chars ['a'])) ∧
    ∃ e host', Native.pop.call [a, .float 2, .float 2] host = .error e host' ∧
      host'.heap.contents? a = some (.items [.bool true, a]) := by
  intro a host
  have hindex : (Value.float 2).toIndex? = some 2 := by decide +kernel
  obtain ⟨hatomic, -, hturns⟩ := call_leaves host
  refine ⟨?_, ?_, ?_⟩
  · have hrefused : ∃ e host', Native.append.call [.text ⟨0⟩, .text ⟨0⟩, .nil] host =
        .error e host' := ⟨_, _, rfl⟩
    obtain ⟨e, host', h⟩ := hrefused
    obtain rfl := hatomic _ (by simp) _ e host' h
    exact ⟨e, h⟩
  · obtain ⟨hfails, -, -, hothers⟩ := hturns remove (by simp) a [a, .bool true, .nil, .bool true] rfl
    have hremove := (hfails _ _).mpr
      ⟨[a, .bool true], .nil, [.bool true], _, rfl, .cons rfl (.cons rfl (.nil _)), rfl⟩
    have hne : Value.text ⟨0⟩ ≠ .array ⟨0⟩ := by
      intro heq
      cases heq
    exact ⟨_, _, hremove, rfl, hothers _ (.inl ⟨_, hremove⟩) (.text ⟨0⟩) Nat.one_pos hne⟩
  · obtain ⟨hfails, -⟩ := hturns pop (by simp) a [.float 2, .float 2] rfl
    let mid : Host := ⟨⟨#[.ofList ['a']], #[.ofList [.bool true, a]]⟩, .ofInput []⟩
    have hfirst : Native.pop.call [a, .float 2] host = .ok (.bool true) mid := by
      refine (congrFun (pop_value_one (.array ⟨0⟩) (.float 2)) host).trans ?_
      rw [popOne, position, hindex]
      rfl
    have hsecond : Native.pop.call [a, .float 2] mid = .error (.outOfBounds 2 2) mid := by
      refine (congrFun (pop_value_one (.array ⟨0⟩) (.float 2)) mid).trans ?_
      rw [popOne, position, hindex]
      rfl
    have hrefused := (hfails _ _).mpr
      ⟨[.float 2], .float 2, [], _, rfl, .cons hfirst (.nil mid), hsecond⟩
    exact ⟨_, _, hrefused, rfl⟩

end Native
end Scriptlet
