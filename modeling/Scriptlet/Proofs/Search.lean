import Mathlib
import Scriptlet.Proofs.PartialEffects
import Scriptlet.Proofs.WholeNumbers

/-!
Search for a sequence inside another.

A needle occurs at a position if it stands there (`OccursAt`). `Buffer.find?` goes from left to right
and stops at the first occurrence. `Buffer.count` goes on behind each occurrence that it meets, and
so it never has two that overlap. That no other choice has more of them (`IsPacking.card_le`) is an
exchange argument: of the occurrences of another choice at most one begins inside the first that was
met, and all others are behind it, where the search goes on.
-/
namespace Scriptlet

/-! ### Occurrences -/

section

variable {α : Type}

/-- The needle stands in the list at this position. -/
def OccursAt (needle xs : List α) (i : Nat) : Prop :=
  ∃ before after, before.length = i ∧ xs = before ++ needle ++ after

variable {needle xs : List α} {i k : Nat} {x : α}

theorem occursAt_zero : OccursAt needle xs 0 ↔ needle <+: xs := by
  constructor
  · rintro ⟨before, after, hlength, rfl⟩
    rw [List.length_eq_zero_iff.mp hlength]
    exact ⟨after, rfl⟩
  · rintro ⟨after, rfl⟩
    exact ⟨[], after, rfl, rfl⟩

theorem occursAt_succ : OccursAt needle (x :: xs) (i + 1) ↔ OccursAt needle xs i := by
  constructor
  · rintro ⟨before, after, hlength, heq⟩
    obtain ⟨y, before, rfl⟩ := List.exists_cons_of_length_eq_add_one hlength
    rw [List.cons_append, List.cons_append, List.cons.injEq] at heq
    exact ⟨before, after, Nat.succ.inj hlength, heq.2⟩
  · rintro ⟨before, after, rfl, rfl⟩
    exact ⟨x :: before, after, rfl, rfl⟩

theorem not_occursAt_nil (hne : needle ≠ []) : ¬ OccursAt needle [] i := by
  rintro ⟨before, after, -, heq⟩
  simp at heq
  exact hne heq.2.1

theorem occursAt_drop (hk : k ≤ xs.length) :
    OccursAt needle (xs.drop k) i ↔ OccursAt needle xs (i + k) := by
  induction k generalizing xs with
  | zero => rfl
  | succ k ih =>
    cases xs with
    | nil => simp at hk
    | cons x xs =>
      rw [List.drop_succ_cons, ← Nat.add_assoc, occursAt_succ]
      exact ih (Nat.le_of_succ_le_succ hk)

/-! ### The first occurrence -/

namespace Buffer

variable [BEq α] [LawfulBEq α]

theorem firstMatch?_eq_none_iff :
    firstMatch? needle xs = none ↔ ∀ i, ¬ OccursAt needle xs i := by
  induction xs with
  | nil =>
    rw [firstMatch?]
    cases needle with
    | nil => simpa using ⟨0, occursAt_zero.mpr (List.nil_prefix)⟩
    | cons x needle => simpa using fun i => not_occursAt_nil (List.cons_ne_nil x needle)
  | cons x xs ih =>
    rw [firstMatch?]
    by_cases hprefix : needle <+: x :: xs
    · rw [if_pos (List.isPrefixOf_iff_prefix.mpr hprefix)]
      simpa using ⟨0, occursAt_zero.mpr hprefix⟩
    · rw [if_neg (mt List.isPrefixOf_iff_prefix.mp hprefix), Option.map_eq_none_iff, ih]
      constructor
      · intro hnone i
        cases i with
        | zero => exact mt occursAt_zero.mp hprefix
        | succ i => exact mt occursAt_succ.mp (hnone i)
      · intro hnone i
        exact mt occursAt_succ.mpr (hnone (i + 1))

theorem isLeast_firstMatch? (h : firstMatch? needle xs = some i) :
    IsLeast {i | OccursAt needle xs i} i := by
  induction xs generalizing i with
  | nil =>
    rw [firstMatch?] at h
    cases needle with
    | nil =>
      cases h
      exact ⟨occursAt_zero.mpr List.nil_prefix, fun _ _ => Nat.zero_le _⟩
    | cons x needle => cases h
  | cons x xs ih =>
    rw [firstMatch?] at h
    by_cases hprefix : needle <+: x :: xs
    · rw [if_pos (List.isPrefixOf_iff_prefix.mpr hprefix)] at h
      cases h
      exact ⟨occursAt_zero.mpr hprefix, fun _ _ => Nat.zero_le _⟩
    · rw [if_neg (mt List.isPrefixOf_iff_prefix.mp hprefix)] at h
      obtain ⟨j, hj, rfl⟩ := Option.map_eq_some_iff.mp h
      obtain ⟨hoccurs, hleast⟩ := ih hj
      refine ⟨occursAt_succ.mpr hoccurs, ?_⟩
      intro m hm
      cases m with
      | zero => exact absurd (occursAt_zero.mp hm) hprefix
      | succ m => exact Nat.succ_le_succ (hleast (occursAt_succ.mp hm))

theorem firstMatch?_eq_some_iff :
    firstMatch? needle xs = some i ↔ IsLeast {i | OccursAt needle xs i} i := by
  constructor
  · exact isLeast_firstMatch?
  · intro hleast
    cases hfirst : firstMatch? needle xs with
    | none => exact absurd hleast.1 (firstMatch?_eq_none_iff.mp hfirst i)
    | some j => rw [(isLeast_firstMatch? hfirst).unique hleast]

omit [BEq α] [LawfulBEq α] in
/-- An occurrence is cut out and what is around it stays. -/
theorem eraseRange?_occurrence {b : Buffer α} {before after : List α}
    (h : b.toList = before ++ needle ++ after) :
    b.eraseRange? before.length (before.length + needle.length) =
      some (.ofList (before ++ after)) := by
  have hsize : before.length + needle.length ≤ b.size := by
    rw [← length_toList, h]
    simp
  rw [eraseRange?, if_pos ⟨Nat.le_add_right _ _, hsize⟩, h]
  simp

/-! ### Counting from left to right -/

omit [LawfulBEq α] in
theorem countMatches_skip (xs : List α) (k : Nat) :
    countMatches needle k xs = countMatches needle 0 (xs.drop k) := by
  induction k generalizing xs with
  | zero => rfl
  | succ k ih =>
    cases xs with
    | nil => rfl
    | cons x xs => exact ih xs

/-- Behind an occurrence at the start the search goes on. -/
theorem countMatches_of_at_start (hne : needle ≠ []) (h : needle <+: xs) :
    countMatches needle 0 xs = countMatches needle 0 (xs.drop needle.length) + 1 := by
  cases xs with
  | nil => exact absurd (List.prefix_nil.mp h) hne
  | cons x xs =>
    obtain ⟨m, hm⟩ : ∃ m, needle.length = m + 1 :=
      ⟨needle.length - 1, by have := List.length_pos_of_ne_nil hne; omega⟩
    rw [countMatches, if_pos (List.isPrefixOf_iff_prefix.mpr h), countMatches_skip, hm]
    rfl

theorem countMatches_of_not_at_start (h : ¬ needle <+: x :: xs) :
    countMatches needle 0 (x :: xs) = countMatches needle 0 xs := by
  rw [countMatches, if_neg (mt List.isPrefixOf_iff_prefix.mp h)]

end Buffer

/-! ### Occurrences that do not overlap -/

/-- A choice of occurrences no two of which overlap. -/
structure IsPacking (needle xs : List α) (S : Finset Nat) : Prop where
  occurs : ∀ i ∈ S, OccursAt needle xs i
  apart : ∀ i ∈ S, ∀ j ∈ S, i < j → i + needle.length ≤ j

variable {S : Finset Nat}

/-- Occurrences that do not begin in the first `k` items are occurrences behind these. -/
theorem IsPacking.drop (h : IsPacking needle xs S) (hk : k ≤ xs.length) (hS : ∀ i ∈ S, k ≤ i) :
    IsPacking needle (xs.drop k) (S.image (· - k)) := by
  constructor
  · intro i hi
    obtain ⟨j, hj, rfl⟩ := Finset.mem_image.mp hi
    have hkj := hS j hj
    rw [occursAt_drop hk, Nat.sub_add_cancel hkj]
    exact h.occurs j hj
  · intro i hi j hj hlt
    obtain ⟨a, ha, rfl⟩ := Finset.mem_image.mp hi
    obtain ⟨b, hb, rfl⟩ := Finset.mem_image.mp hj
    have hka := hS a ha
    have hkb := hS b hb
    have hab := h.apart a ha b hb (by omega)
    omega

theorem card_image_sub (hS : ∀ i ∈ S, k ≤ i) : (S.image (· - k)).card = S.card := by
  refine Finset.card_image_of_injOn ?_
  intro i hi j hj heq
  have hki := hS i hi
  have hkj := hS j hj
  dsimp only at heq
  omega

theorem IsPacking.undrop (h : IsPacking needle (xs.drop k) S) (hk : k ≤ xs.length) :
    IsPacking needle xs (S.map (addRightEmbedding k)) := by
  constructor
  · intro i hi
    obtain ⟨j, hj, rfl⟩ := Finset.mem_map.mp hi
    exact (occursAt_drop hk).mp (h.occurs j hj)
  · intro i hi j hj hlt
    obtain ⟨a, ha, rfl⟩ := Finset.mem_map.mp hi
    obtain ⟨b, hb, rfl⟩ := Finset.mem_map.mp hj
    rw [addRightEmbedding_apply, addRightEmbedding_apply] at hlt ⊢
    have hab := h.apart a ha b hb (by omega)
    omega

/-- Of the occurrences of a packing at most one begins inside an occurrence at the start. -/
theorem IsPacking.card_inside (h : IsPacking needle xs S) :
    (S.filter (· < needle.length)).card ≤ 1 := by
  refine Finset.card_le_one.mpr ?_
  intro i hi j hj
  rw [Finset.mem_filter] at hi hj
  rcases lt_trichotomy i j with hlt | heq | hgt
  · have := h.apart i hi.1 j hj.1 hlt
    omega
  · exact heq
  · have := h.apart j hj.1 i hi.1 hgt
    omega

theorem IsPacking.filter (h : IsPacking needle xs S) (p : Nat → Prop) [DecidablePred p] :
    IsPacking needle xs (S.filter p) where
  occurs i hi := h.occurs i (Finset.mem_of_mem_filter i hi)
  apart i hi j hj := h.apart i (Finset.mem_of_mem_filter i hi) j (Finset.mem_of_mem_filter j hj)

section

variable [BEq α] [LawfulBEq α]

open Buffer

/-- **No choice has more occurrences than are met from left to right.** -/
theorem IsPacking.card_le (hne : needle ≠ []) (h : IsPacking needle xs S) :
    S.card ≤ countMatches needle 0 xs := by
  have hpos := List.length_pos_of_ne_nil hne
  -- what is searched gets shorter, by the needle or by one item
  induction hn : xs.length using Nat.strong_induction_on generalizing xs S with
  | _ n ih =>
    by_cases hprefix : needle <+: xs
    · rw [countMatches_of_at_start hne hprefix]
      have hle := hprefix.length_le
      have hbehind : ∀ i ∈ S.filter (¬ · < needle.length), needle.length ≤ i := by
        intro i hi
        exact Nat.le_of_not_lt (Finset.mem_filter.mp hi).2
      have hrest := ih (xs.drop needle.length).length (by rw [List.length_drop]; omega)
        ((h.filter _).drop hle hbehind) rfl
      rw [card_image_sub hbehind] at hrest
      have hinside := h.card_inside
      have hsum := Finset.card_filter_add_card_filter_not (s := S) (· < needle.length)
      omega
    · cases xs with
      | nil =>
        have hempty : S = ∅ := by
          refine Finset.eq_empty_of_forall_notMem fun i hi => ?_
          exact not_occursAt_nil hne (h.occurs i hi)
        rw [hempty]
        exact Nat.zero_le _
      | cons x xs =>
        rw [countMatches_of_not_at_start hprefix]
        have hbehind : ∀ i ∈ S, 1 ≤ i := by
          intro i hi
          refine Nat.one_le_iff_ne_zero.mpr ?_
          rintro rfl
          exact hprefix (occursAt_zero.mp (h.occurs 0 hi))
        have hrest := ih xs.length (by rw [← hn]; exact Nat.lt_succ_self _)
          (h.drop (k := 1) (Nat.succ_le_succ (Nat.zero_le _)) hbehind) rfl
        rwa [card_image_sub hbehind] at hrest

/-- The occurrences that are met from left to right do not overlap. -/
theorem exists_isPacking (hne : needle ≠ []) (xs : List α) :
    ∃ S, IsPacking needle xs S ∧ S.card = countMatches needle 0 xs := by
  have hpos := List.length_pos_of_ne_nil hne
  induction hn : xs.length using Nat.strong_induction_on generalizing xs with
  | _ n ih =>
    by_cases hprefix : needle <+: xs
    · rw [countMatches_of_at_start hne hprefix]
      have hle := hprefix.length_le
      obtain ⟨S, hS, hcard⟩ := ih _ (by rw [List.length_drop]; omega) (xs.drop needle.length) rfl
      have hbehind : ∀ i ∈ S.map (addRightEmbedding needle.length), needle.length ≤ i := by
        intro i hi
        obtain ⟨j, -, rfl⟩ := Finset.mem_map.mp hi
        exact Nat.le_add_left _ _
      have hS := hS.undrop hle
      refine ⟨insert 0 (S.map (addRightEmbedding needle.length)), ⟨?_, ?_⟩, ?_⟩
      · intro i hi
        rcases Finset.mem_insert.mp hi with rfl | hi
        · exact occursAt_zero.mpr hprefix
        · exact hS.occurs i hi
      · intro i hi j hj hlt
        rcases Finset.mem_insert.mp hj with rfl | hj
        · exact absurd hlt (Nat.not_lt_zero i)
        rcases Finset.mem_insert.mp hi with rfl | hi
        · rw [Nat.zero_add]
          exact hbehind j hj
        · exact hS.apart i hi j hj hlt
      · rw [Finset.card_insert_of_notMem, Finset.card_map, hcard]
        intro hzero
        have := hbehind 0 hzero
        omega
    · cases xs with
      | nil => exact ⟨∅, ⟨by simp, by simp⟩, rfl⟩
      | cons x xs =>
        rw [countMatches_of_not_at_start hprefix]
        obtain ⟨S, hS, hcard⟩ := ih _ (by rw [← hn]; exact Nat.lt_succ_self _) xs rfl
        have hS : IsPacking needle ((x :: xs).drop 1) S := hS
        refine ⟨_, hS.undrop (Nat.succ_le_succ (Nat.zero_le _)), ?_⟩
        rw [Finset.card_map, hcard]

namespace Buffer

variable (b : Buffer α)

theorem find?_eq_some_iff :
    b.find? needle = some i ↔ IsLeast {i | OccursAt needle b.toList i} i :=
  firstMatch?_eq_some_iff

theorem find?_eq_none_iff : b.find? needle = none ↔ ∀ i, ¬ OccursAt needle b.toList i :=
  firstMatch?_eq_none_iff

theorem count_isGreatest (hne : needle ≠ []) :
    IsGreatest {k | ∃ S, IsPacking needle b.toList S ∧ S.card = k} (b.count needle) := by
  rw [count, if_neg (mt List.isEmpty_iff.mp hne)]
  refine ⟨exists_isPacking hne b.toList, ?_⟩
  rintro k ⟨S, hS, rfl⟩
  exact hS.card_le hne

/-- Nothing is counted exactly if nothing is found. -/
theorem count_eq_zero_iff (hne : needle ≠ []) : b.count needle = 0 ↔ b.find? needle = none := by
  obtain ⟨⟨S, hS, hcard⟩, hgreatest⟩ := b.count_isGreatest hne
  rw [find?_eq_none_iff]
  constructor
  · intro hzero i hi
    -- one occurrence alone overlaps with none
    have hone : IsPacking needle b.toList {i} := by
      constructor
      · intro j hj
        rwa [Finset.mem_singleton.mp hj]
      · intro j hj k hk hlt
        rw [Finset.mem_singleton.mp hj, Finset.mem_singleton.mp hk] at hlt
        exact absurd hlt (Nat.lt_irrefl i)
    have hle := hgreatest ⟨_, hone, Finset.card_singleton i⟩
    omega
  · intro hnone
    have hempty : S = ∅ := Finset.eq_empty_of_forall_notMem fun i hi => hnone i (hS.occurs i hi)
    rw [← hcard, hempty, Finset.card_empty]

end Buffer

end

end

/-! ### Search in texts -/

namespace Native

open Actions NativeAction

variable {host : Host} {r q : TextRef}

theorem index_text (host : Host) (r q : TextRef) : Native.index.call [.text r, .text q] host =
    .ok (.float (((host.heap.text r).find? (host.heap.text q).toList).elim (-1) Number.ofIndex))
      host := by
  refine bind_eq_ok.mpr ⟨.text r, host, rfl, bind_eq_ok.mpr ⟨(host.heap.text q).toList, host, rfl,
    bind_eq_ok.mpr ⟨host.heap.text r, host, rfl, ?_⟩⟩⟩
  cases (host.heap.text r).find? (host.heap.text q).toList <;> rfl

theorem count_text (hne : (host.heap.text q).toList ≠ []) :
    Native.count.call [.text r, .text q] host =
      .ok (.float (Number.ofIndex ((host.heap.text r).count (host.heap.text q).toList))) host := by
  refine bind_eq_ok.mpr ⟨.text r, host, rfl, ?_⟩
  refine bind_eq_ok.mpr ⟨(host.heap.text q).toList, host, rfl, ?_⟩
  rw [if_neg (mt List.isEmpty_iff.mp hne)]
  rfl

/-- An occurrence that has been found is cut out. -/
theorem remove_text_of_some {i : Nat} (hne : (host.heap.text q).toList ≠ [])
    (hfind : (host.heap.text r).find? (host.heap.text q).toList = some i) :
    ∃ before after heap, (host.heap.text r).toList = before ++ (host.heap.text q).toList ++ after ∧
      before.length = i ∧
      Native.remove.call [.text r, .text q] host = .ok (.text r) { host with heap } ∧
      host.heap.Becomes (.text r) (.chars (before ++ after)) heap := by
  obtain ⟨⟨before, after, hlength, htext⟩, -⟩ := (Buffer.find?_eq_some_iff _).mp hfind
  have hr : r.index < host.heap.texts.size := by
    refine Heap.lt_of_text ?_
    rw [htext]
    simp [hne]
  have herase := Buffer.eraseRange?_occurrence htext
  rw [hlength] at herase
  refine ⟨before, after, _, htext, hlength, ?_,
    Heap.becomes_modifyText hr fun _ => .ofList (before ++ after)⟩
  refine (congrFun (remove_value_one (.text r) (.text q)) host).trans ?_
  refine bind_eq_ok.mpr ⟨(), _, bind_eq_ok.mpr ⟨(host.heap.text q).toList, host, rfl,
    bind_eq_ok.mpr ⟨host.heap.text r, host, rfl, ?_⟩⟩, rfl⟩
  rw [hfind]
  dsimp only
  rw [herase]
  rfl

theorem remove_text_of_none (hfind : (host.heap.text r).find? (host.heap.text q).toList = none) :
    Native.remove.call [.text r, .text q] host =
      .error (.noSuchText (host.heap.render (.text q))) host := by
  refine (congrFun (remove_value_one (.text r) (.text q)) host).trans ?_
  refine bind_eq_error.mpr (.inl (bind_eq_error.mpr (.inr ⟨(host.heap.text q).toList, host, rfl,
    bind_eq_error.mpr (.inr ⟨host.heap.text r, host, rfl, ?_⟩)⟩)))
  rw [hfind]
  rfl

end Native

/-- **Search is exact.** The first position at which a needle stands is found, the start for an empty
one, and nothing exactly if it stands nowhere. For a needle that is not empty, the count is the
greatest number of occurrences of which no two overlap, so it is zero exactly if nothing is found.
Hence a text can be removed from another exactly if `count` is above zero, which is to say that
`index` is not `-1`, and then it is its leftmost occurrence that is cut out. -/
theorem search_exact :
    (∀ (α : Type) [BEq α] [LawfulBEq α] (b : Buffer α) (needle : List α),
      (∀ i, b.find? needle = some i ↔ IsLeast {i | OccursAt needle b.toList i} i) ∧
      (b.find? needle = none ↔ ∀ i, ¬ OccursAt needle b.toList i) ∧ b.find? [] = some 0 ∧
      (needle ≠ [] →
        IsGreatest {k | ∃ S, IsPacking needle b.toList S ∧ S.card = k} (b.count needle) ∧
        (b.count needle = 0 ↔ b.find? needle = none))) ∧
    ∀ (host : Host) (r q : TextRef), (host.heap.text q).toList ≠ [] →
      ∃ found counted : Float,
        Native.index.call [.text r, .text q] host = .ok (.float found) host ∧
        Native.count.call [.text r, .text q] host = .ok (.float counted) host ∧
        ((∃ v host', Native.remove.call [.text r, .text q] host = .ok v host') ↔ 0 < counted) ∧
        (0 < counted ↔ found ≠ -1) ∧
        ∀ v host', Native.remove.call [.text r, .text q] host = .ok v host' → v = .text r ∧
          ∃ before after,
            (host.heap.text r).toList = before ++ (host.heap.text q).toList ++ after ∧
            IsLeast {i | OccursAt (host.heap.text q).toList (host.heap.text r).toList i}
              before.length ∧
            host.heap.Becomes (.text r) (.chars (before ++ after)) host'.heap := by
  refine ⟨?_, ?_⟩
  · intro α _ _ b needle
    refine ⟨fun i => b.find?_eq_some_iff, b.find?_eq_none_iff, ?_, ?_⟩
    · rw [b.find?_eq_some_iff]
      exact ⟨occursAt_zero.mpr List.nil_prefix, fun _ _ => Nat.zero_le _⟩
    · intro hne
      exact ⟨b.count_isGreatest hne, b.count_eq_zero_iff hne⟩
  intro host r q hne
  refine ⟨_, _, Native.index_text host r q, Native.count_text hne, ?_⟩
  have hzero := (host.heap.text r).count_eq_zero_iff hne
  rw [Number.ofIndex_pos_iff]
  cases hfind : (host.heap.text r).find? (host.heap.text q).toList with
  | none =>
    have hremove := Native.remove_text_of_none hfind
    have hcount := hzero.mpr hfind
    refine ⟨⟨?_, ?_⟩, ⟨?_, ?_⟩, ?_⟩
    · rintro ⟨v, host', h⟩
      cases hremove.symm.trans h
    · intro hpos
      omega
    · intro hpos
      omega
    · intro hfound
      exact absurd rfl hfound
    · intro v host' h
      cases hremove.symm.trans h
  | some i =>
    obtain ⟨before, after, heap, htext, hlength, hremove, hbecomes⟩ :=
      Native.remove_text_of_some hne hfind
    have hcount : (host.heap.text r).count (host.heap.text q).toList ≠ 0 := by
      intro hcount
      cases hfind.symm.trans (hzero.mp hcount)
    have hpos := Nat.pos_of_ne_zero hcount
    refine ⟨⟨fun _ => hpos, fun _ => ⟨_, _, hremove⟩⟩, ⟨?_, fun _ => hpos⟩, ?_⟩
    · intro _
      exact Number.ofIndex_ne_neg_one i
    · intro v host' h
      cases hremove.symm.trans h
      refine ⟨rfl, before, after, htext, ?_, hbecomes⟩
      rw [hlength]
      exact (host.heap.text r).find?_eq_some_iff.mp hfind

/-- Of the four occurrences of `aa` in `aaaaa` two do not overlap. The two of `ana` in `banana` do, so
that one is counted, and the first is removed. -/
theorem search_exact_overlapping :
    let host : Host := ⟨⟨#[.ofList ['b', 'a', 'n', 'a', 'n', 'a'], .ofList ['a', 'n', 'a']], #[]⟩,
      .ofInput []⟩
    IsGreatest {k | ∃ S, IsPacking ['a', 'a'] ['a', 'a', 'a', 'a', 'a'] S ∧ S.card = k} 2 ∧
    (host.heap.text ⟨1⟩).toList ≠ [] ∧ ∃ counted host',
      Native.count.call [.text ⟨0⟩, .text ⟨1⟩] host = .ok (.float counted) host ∧ 0 < counted ∧
      Native.remove.call [.text ⟨0⟩, .text ⟨1⟩] host = .ok (.text ⟨0⟩) host' ∧
      host'.heap.contents? (.text ⟨0⟩) = some (.chars ['b', 'n', 'a']) := by
  intro host
  obtain ⟨hbuffers, htexts⟩ := search_exact
  obtain ⟨-, -, -, hcount⟩ := hbuffers Char (.ofList ['a', 'a', 'a', 'a', 'a']) ['a', 'a']
  have hne : (host.heap.text ⟨1⟩).toList ≠ [] := List.cons_ne_nil _ _
  obtain ⟨found, counted, -, hcounted, hremove, -⟩ := htexts host ⟨0⟩ ⟨1⟩ hne
  exact ⟨(hcount (List.cons_ne_nil _ _)).1, hne, counted, _, hcounted, hremove.mp ⟨_, _, rfl⟩, rfl,
    rfl⟩

end Scriptlet
