import Scriptlet.Proofs.Snapshots

/-!
Natives that are done as a whole or not at all.

Most natives look at all they need of their arguments before they change anything. So each of them is
an action that only reads (`Actions.OnlyReads`), followed by one that is not refused, and when
the call is refused it has changed nothing (`Actions.IsAtomic`, `Native.call_isAtomic`).
-/
namespace Scriptlet

namespace Actions

variable {ε σ α β : Type} {s s' : σ} {e : ε} {act : EStateM ε σ α} {k : α → EStateM ε σ β}

theorem bind_eq_ok {b : β} :
    (act >>= k) s = .ok b s' ↔ ∃ a t, act s = .ok a t ∧ k a t = .ok b s' := by
  show EStateM.bind act k s = .ok b s' ↔ _
  rw [EStateM.bind]
  cases act s with
  | ok a t => simp
  | error e t => simp

theorem bind_eq_error :
    (act >>= k) s = .error e s' ↔
      act s = .error e s' ∨ ∃ a t, act s = .ok a t ∧ k a t = .error e s' := by
  show EStateM.bind act k s = .error e s' ↔ _
  rw [EStateM.bind]
  cases act s with
  | ok a t => simp
  | error e t => simp

/-! ### Actions that are done as a whole or not at all -/

/-- An action that is refused has changed nothing. -/
def IsAtomic (act : EStateM ε σ α) : Prop :=
  ∀ s e s', act s = .error e s' → s' = s

/-- An action changes nothing, whether it is refused or not. -/
def OnlyReads (act : EStateM ε σ α) : Prop :=
  ∀ s, (∃ a, act s = .ok a s) ∨ ∃ e, act s = .error e s

theorem OnlyReads.isAtomic (hact : OnlyReads act) : IsAtomic act := by
  intro s e s' h
  rcases hact s with ⟨a, hok⟩ | ⟨d, herror⟩
  · cases hok.symm.trans h
  · cases herror.symm.trans h
    rfl

theorem OnlyReads.eq_of_ok (hact : OnlyReads act) {a : α} (h : act s = .ok a s') : s = s' := by
  rcases hact s with ⟨b, hok⟩ | ⟨d, herror⟩
  · cases hok.symm.trans h
    rfl
  · cases herror.symm.trans h

/-- What is not refused at all is not refused half-way. -/
theorem isAtomic_of_ok (h : ∀ s, ∃ a s', act s = .ok a s') : IsAtomic act := by
  intro s e s' herror
  obtain ⟨a, t, hok⟩ := h s
  cases hok.symm.trans herror

theorem isAtomic_throw (e : ε) : IsAtomic (throw e : EStateM ε σ α) := by
  intro s d s' h
  cases h
  rfl

/-- An action stays atomic when it looks at something first. -/
theorem OnlyReads.bind_isAtomic (hact : OnlyReads act) (hk : ∀ a, IsAtomic (k a)) :
    IsAtomic (act >>= k) := by
  intro s e s' h
  rcases bind_eq_error.mp h with h | ⟨a, t, hok, h⟩
  · exact hact.isAtomic s e s' h
  · obtain rfl := hact.eq_of_ok hok
    exact hk a s e s' h

end Actions

theorem NativeAction.onlyReads_of_reads {α : Type} {act : NativeAction α}
    {see? : Host → Option α} (h : ∀ host, act.Reads host (see? host)) : Actions.OnlyReads act := by
  intro host
  have hreads := h host
  cases hseen : see? host with
  | none =>
    rw [hseen] at hreads
    exact .inr hreads
  | some a =>
    rw [hseen] at hreads
    exact .inl ⟨a, hreads⟩

/-! ### Natives that look before they change anything -/

namespace Native

open Actions NativeAction

theorem sequence_onlyReads (param : String) (v : Value) : OnlyReads (sequence param v) := by
  intro host
  cases v with
  | text r => exact .inl ⟨_, rfl⟩
  | array r => exact .inl ⟨_, rfl⟩
  | _ => exact .inr ⟨_, rfl⟩

theorem chars_onlyReads (param : String) (v : Value) : OnlyReads (chars param v) :=
  onlyReads_of_reads fun _ => chars_reads param v

theorem charsOfAll_onlyReads (param : String) (vs : List Value) :
    OnlyReads (charsOfAll param vs) :=
  onlyReads_of_reads fun _ => charsOfAll_reads param vs

theorem itemsOfAll_onlyReads (param : String) (vs : List Value) :
    OnlyReads (itemsOfAll param vs) :=
  onlyReads_of_reads fun _ => itemsOfAll_reads param vs

theorem position_onlyReads (param : String) (v : Value) : OnlyReads (position param v) :=
  onlyReads_of_reads fun _ => position_reads param v

theorem text_onlyReads (r : TextRef) : OnlyReads (text r) :=
  fun _ => .inl ⟨_, rfl⟩

theorem items_onlyReads (r : ArrayRef) : OnlyReads (items r) :=
  fun _ => .inl ⟨_, rfl⟩

theorem length_isAtomic (v : Value) : IsAtomic (length v) := by
  refine (sequence_onlyReads _ v).bind_isAtomic fun s => ?_
  cases s <;> exact isAtomic_of_ok fun host => ⟨_, host, rfl⟩

theorem appendAll_isAtomic (v : Value) (vs : List Value) : IsAtomic (appendAll v vs) := by
  refine (sequence_onlyReads _ v).bind_isAtomic fun s => ?_
  cases s with
  | array r => exact isAtomic_of_ok fun host => ⟨_, _, rfl⟩
  | text r =>
    refine (charsOfAll_onlyReads _ vs).bind_isAtomic fun cs => ?_
    exact isAtomic_of_ok fun host => ⟨_, _, rfl⟩

theorem extendAll_isAtomic (v : Value) (vs : List Value) : IsAtomic (extendAll v vs) := by
  refine (sequence_onlyReads _ v).bind_isAtomic fun s => ?_
  cases s with
  | array r =>
    refine (itemsOfAll_onlyReads _ vs).bind_isAtomic fun xs => ?_
    exact isAtomic_of_ok fun host => ⟨_, _, rfl⟩
  | text r =>
    refine (charsOfAll_onlyReads _ vs).bind_isAtomic fun cs => ?_
    exact isAtomic_of_ok fun host => ⟨_, _, rfl⟩

theorem mergeAll_isAtomic (v : Value) (vs : List Value) : IsAtomic (mergeAll v vs) := by
  refine (sequence_onlyReads _ v).bind_isAtomic fun s => ?_
  cases s with
  | array r =>
    refine (items_onlyReads r).bind_isAtomic fun b => ?_
    refine (itemsOfAll_onlyReads _ vs).bind_isAtomic fun xs => ?_
    exact isAtomic_of_ok fun host => ⟨_, _, rfl⟩
  | text r =>
    refine (text_onlyReads r).bind_isAtomic fun b => ?_
    refine (charsOfAll_onlyReads _ vs).bind_isAtomic fun cs => ?_
    exact isAtomic_of_ok fun host => ⟨_, _, rfl⟩

theorem insertAt_isAtomic (v i x : Value) : IsAtomic (insertAt v i x) := by
  refine (position_onlyReads _ i).bind_isAtomic fun i => ?_
  refine (sequence_onlyReads _ v).bind_isAtomic fun s => ?_
  cases s with
  | array r =>
    refine (items_onlyReads r).bind_isAtomic fun b => ?_
    cases b.insert? i [x] with
    | none => exact isAtomic_throw _
    | some b => exact isAtomic_of_ok fun host => ⟨_, _, rfl⟩
  | text r =>
    refine (chars_onlyReads _ x).bind_isAtomic fun cs => ?_
    refine (text_onlyReads r).bind_isAtomic fun b => ?_
    cases b.insert? i cs with
    | none => exact isAtomic_throw _
    | some b => exact isAtomic_of_ok fun host => ⟨_, _, rfl⟩

theorem indexOf_isAtomic (v x : Value) : IsAtomic (indexOf v x) := by
  refine (sequence_onlyReads _ v).bind_isAtomic fun s => ?_
  cases s with
  | array r =>
    have hreads : OnlyReads (positionOf? r x) := fun host => .inl ⟨_, rfl⟩
    refine hreads.bind_isAtomic fun found? => ?_
    cases found? <;> exact isAtomic_of_ok fun host => ⟨_, host, rfl⟩
  | text r =>
    refine (chars_onlyReads _ x).bind_isAtomic fun needle => ?_
    refine (text_onlyReads r).bind_isAtomic fun b => ?_
    cases b.find? needle <;> exact isAtomic_of_ok fun host => ⟨_, host, rfl⟩

theorem countOf_isAtomic (v x : Value) : IsAtomic (countOf v x) := by
  refine (sequence_onlyReads _ v).bind_isAtomic fun s => ?_
  cases s with
  | array r => exact isAtomic_of_ok fun host => ⟨_, host, rfl⟩
  | text r =>
    refine (chars_onlyReads _ x).bind_isAtomic fun needle => ?_
    cases needle.isEmpty with
    | true => exact isAtomic_throw _
    | false => exact isAtomic_of_ok fun host => ⟨_, host, rfl⟩

theorem clearAll_isAtomic (v : Value) : IsAtomic (clearAll v) := by
  refine (sequence_onlyReads _ v).bind_isAtomic fun s => ?_
  cases s <;> exact isAtomic_of_ok fun host => ⟨_, _, rfl⟩

theorem toNumber_isAtomic (v : Value) : IsAtomic (toNumber v) := by
  cases v with
  | float x => exact isAtomic_of_ok fun host => ⟨_, host, rfl⟩
  | text r =>
    refine (text_onlyReads r).bind_isAtomic fun b => ?_
    cases Number.read? (Text.trim b.toList) <;> exact isAtomic_of_ok fun host => ⟨_, host, rfl⟩
  | _ => exact isAtomic_throw _

theorem call_isAtomic {n : Native}
    (hn : n ∈ [append, extend, insert, clear, merge, len, index, count, number])
    (args : List Value) : IsAtomic (n.call args) := by
  -- a list of another length than the native takes is answered by `nil`
  have hnil : IsAtomic (pure .nil : NativeAction Value) :=
    isAtomic_of_ok fun host => ⟨_, host, rfl⟩
  simp only [List.mem_cons, List.not_mem_nil, or_false] at hn
  rcases hn with rfl | rfl | rfl | rfl | rfl | rfl | rfl | rfl | rfl
  · rcases args with _ | ⟨v, vs⟩
    · exact hnil
    · exact appendAll_isAtomic v vs
  · rcases args with _ | ⟨v, vs⟩
    · exact hnil
    · exact extendAll_isAtomic v vs
  · rcases args with _ | ⟨v, _ | ⟨i, _ | ⟨x, _ | _⟩⟩⟩
    · exact hnil
    · exact hnil
    · exact hnil
    · exact insertAt_isAtomic v i x
    · exact hnil
  · rcases args with _ | ⟨v, _ | _⟩
    · exact hnil
    · exact clearAll_isAtomic v
    · exact hnil
  · rcases args with _ | ⟨v, vs⟩
    · exact hnil
    · exact mergeAll_isAtomic v vs
  · rcases args with _ | ⟨v, _ | _⟩
    · exact hnil
    · exact length_isAtomic v
    · exact hnil
  · rcases args with _ | ⟨v, _ | ⟨x, _ | _⟩⟩
    · exact hnil
    · exact hnil
    · exact indexOf_isAtomic v x
    · exact hnil
  · rcases args with _ | ⟨v, _ | ⟨x, _ | _⟩⟩
    · exact hnil
    · exact hnil
    · exact countOf_isAtomic v x
    · exact hnil
  · rcases args with _ | ⟨v, _ | _⟩
    · exact hnil
    · exact toNumber_isAtomic v
    · exact hnil

end Native
end Scriptlet
