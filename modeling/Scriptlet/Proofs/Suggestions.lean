import Mathlib.Data.List.Induction
import Scriptlet.NameOrder
import Scriptlet.Proofs.EditDistance

/-!
The name that is suggested for another one.

Only other names within the limit may be suggested (`Text.Near`), and of these the first of the nearest
is (`Text.IsNearest`): `Text.suggest?_eq_none_iff` and `Text.suggest?_eq_some_iff`. The invariant of
the fold says this of the candidates seen so far (`Text.Found`), and one more candidate preserves it
(`Text.Found.append`). The order of the candidates decides only between names at the same distance
(`Text.suggest?_perm`).

If the candidates come frame by frame, with the names of a frame in any order, then the names that may
be suggested are the best ones (`Text.isBest_iff`), and the order matters just if two names of one frame
are tied (`Text.tied_iff`).
-/
namespace Scriptlet.Text

/-! ### The first of the nearest -/

/-- The distance of a candidate from a name. -/
abbrev distance (name x : String) : Nat :=
  editDistance name.toList x.toList

/-- A candidate that may be suggested: another name that is near enough. -/
def Near (name x : String) : Prop :=
  x ≠ name ∧ distance name x ≤ suggestionLimit name.length

instance (name x : String) : Decidable (Near name x) :=
  inferInstanceAs (Decidable (_ ∧ _))

/-- The candidate may be suggested, none before it is as near, and none behind it is nearer. -/
def IsNearest (name : String) (candidates : List String) (x : String) : Prop :=
  Near name x ∧ ∃ before after, candidates = before ++ x :: after ∧
    (∀ y ∈ before, y ≠ name → distance name x < distance name y) ∧
    ∀ y ∈ after, y ≠ name → distance name x ≤ distance name y

variable {name x y c : String} {candidates : List String}

namespace IsNearest

theorem mem (h : IsNearest name candidates x) : x ∈ candidates := by
  obtain ⟨-, before, after, rfl, -⟩ := h
  simp

theorem le (h : IsNearest name candidates x) (hy : y ∈ candidates) (hne : y ≠ name) :
    distance name x ≤ distance name y := by
  obtain ⟨-, before, after, rfl, hbefore, hafter⟩ := h
  rcases List.mem_append.mp hy with hy | hy
  · exact Nat.le_of_lt (hbefore y hy hne)
  · rcases List.mem_cons.mp hy with rfl | hy
    · exact Nat.le_refl _
    · exact hafter y hy hne

theorem eq_or_of_append_eq {α : Type} {x y : α} {before after before' after' : List α}
    (heq : before ++ x :: after = before' ++ y :: after') :
    x = y ∨ x ∈ before' ∨ y ∈ before := by
  rcases List.append_eq_append_iff.mp heq with ⟨as, rfl, has⟩ | ⟨as, rfl, has⟩
  · cases as with
    | nil => exact .inl (List.cons.inj has).1
    | cons a as =>
      obtain ⟨rfl, -⟩ := List.cons.inj has
      exact .inr (.inl (by simp))
  · cases as with
    | nil => exact .inl (List.cons.inj has).1.symm
    | cons a as =>
      obtain ⟨rfl, -⟩ := List.cons.inj has
      exact .inr (.inr (by simp))

theorem unique (hx : IsNearest name candidates x) (hy : IsNearest name candidates y) : x = y := by
  have hxy := hx.le hy.mem hy.1.1
  have hyx := hy.le hx.mem hx.1.1
  obtain ⟨hnear, before, after, rfl, hbefore, -⟩ := hx
  obtain ⟨hnear', before', after', heq, hbefore', -⟩ := hy
  rcases eq_or_of_append_eq heq with heq | hmem | hmem
  · exact heq
  · have := hbefore' x hmem hnear.1
    omega
  · have := hbefore y hmem hnear'.1
    omega

/-- One more candidate that is not nearer changes nothing. -/
theorem append (h : IsNearest name candidates x) (hc : c ≠ name → distance name x ≤ distance name c) :
    IsNearest name (candidates ++ [c]) x := by
  obtain ⟨hx, before, after, rfl, hbefore, hafter⟩ := h
  refine ⟨hx, before, after ++ [c], by simp, hbefore, fun y hy => ?_⟩
  rcases List.mem_append.mp hy with hy | hy
  · exact hafter y hy
  · rw [List.mem_singleton.mp hy]
    exact hc

/-- One more candidate is the nearest if it is nearer than all before. -/
theorem last (hc : Near name c)
    (h : ∀ y ∈ candidates, y ≠ name → distance name c < distance name y) :
    IsNearest name (candidates ++ [c]) c :=
  ⟨hc, candidates, [], rfl, h, fun _ hy => absurd hy List.not_mem_nil⟩

end IsNearest

/-- The best of some candidates, with its distance. -/
def best? (name : String) (candidates : List String) : Option (Nat × String) :=
  (((candidates.filter (· != name)).map fun x => (distance name x, x)).filter
    (·.1 ≤ suggestionLimit name.length)).foldl nearer none

theorem suggest?_eq (name : String) (candidates : List String) :
    suggest? name candidates = (best? name candidates).map (·.2) := rfl

theorem best?_append (name : String) (candidates : List String) (c : String) :
    best? name (candidates ++ [c]) =
      if Near name c then nearer (best? name candidates) (distance name c, c)
      else best? name candidates := by
  unfold best?
  rw [List.filter_append, List.map_append, List.filter_append, List.foldl_append]
  by_cases hne : c = name
  · simp [Near, hne]
  · by_cases hle : distance name c ≤ suggestionLimit name.length
    · simp [Near, hne, hle]
    · simp [Near, hne, hle]

/-- What the fold has found among the candidates so far. -/
inductive Found (name : String) (candidates : List String) : Option (Nat × String) → Prop
  | none (h : ∀ y ∈ candidates, ¬ Near name y) : Found name candidates none
  | some {x : String} (h : IsNearest name candidates x) :
    Found name candidates (some (distance name x, x))

/-- One more candidate. -/
theorem Found.append {best : Option (Nat × String)} (h : Found name candidates best) (c : String) :
    Found name (candidates ++ [c])
      (if Near name c then nearer best (distance name c, c) else best) := by
  cases h with
  | none h =>
    by_cases hc : Near name c
    · rw [if_pos hc]
      -- all before were too far, and this one is not
      refine .some (.last hc fun y hy hne => ?_)
      have hfar : ¬ distance name y ≤ suggestionLimit name.length := fun hle => h y hy ⟨hne, hle⟩
      have := hc.2
      omega
    · rw [if_neg hc]
      refine .none fun y hy => ?_
      rcases List.mem_append.mp hy with hy | hy
      · exact h y hy
      · rw [List.mem_singleton.mp hy]
        exact hc
  | @some x h =>
    by_cases hc : Near name c
    · rw [if_pos hc, nearer]
      dsimp only
      split
      · -- a tie is left to the one that was found first
        rename_i hle
        exact .some (h.append fun _ => hle)
      · rename_i hlt
        refine .some (.last hc fun y hy hne => ?_)
        have := h.le hy hne
        omega
    · rw [if_neg hc]
      refine .some (h.append fun hne => ?_)
      have hfar : ¬ distance name c ≤ suggestionLimit name.length := fun hle => hc ⟨hne, hle⟩
      have := h.1.2
      omega

theorem found_best? (name : String) (candidates : List String) :
    Found name candidates (best? name candidates) := by
  induction candidates using List.reverseRecOn with
  | nil => exact .none fun y hy => absurd hy List.not_mem_nil
  | append_singleton candidates c ih =>
    rw [best?_append]
    exact ih.append c

theorem suggest?_eq_none_iff :
    suggest? name candidates = none ↔ ∀ y ∈ candidates, ¬ Near name y := by
  rw [suggest?_eq]
  generalize hbest : best? name candidates = best
  have h := found_best? name candidates
  rw [hbest] at h
  cases h with
  | none h => exact ⟨fun _ => h, fun _ => rfl⟩
  | @some x h => exact ⟨nofun, fun hnone => absurd h.1 (hnone x h.mem)⟩

theorem isNearest_of_suggest? (h : suggest? name candidates = some x) :
    IsNearest name candidates x := by
  rw [suggest?_eq] at h
  have hfound := found_best? name candidates
  obtain ⟨p, hp, rfl⟩ := Option.map_eq_some_iff.mp h
  rw [hp] at hfound
  cases hfound with
  | some hx => exact hx

theorem exists_suggest? (hx : x ∈ candidates) (h : Near name x) :
    ∃ y, suggest? name candidates = some y := by
  rw [← Option.isSome_iff_exists, Option.isSome_iff_ne_none]
  exact fun hnone => suggest?_eq_none_iff.mp hnone x hx h

theorem suggest?_eq_some_iff :
    suggest? name candidates = some x ↔ IsNearest name candidates x := by
  refine ⟨isNearest_of_suggest?, fun hx => ?_⟩
  obtain ⟨y, hy⟩ := exists_suggest? hx.mem hx.1
  rw [hy, (isNearest_of_suggest? hy).unique hx]

/-- If no other candidate is as near, their order does not matter. -/
theorem suggest?_perm {candidates' : List String} (h : suggest? name candidates = some x)
    (honly : ∀ y ∈ candidates, y ≠ name → distance name y = distance name x → y = x)
    (hperm : candidates'.Perm candidates) : suggest? name candidates' = some x := by
  have hx := isNearest_of_suggest? h
  obtain ⟨y, hy⟩ := exists_suggest? (hperm.mem_iff.mpr hx.mem) hx.1
  have hnearest := isNearest_of_suggest? hy
  have hmem := hperm.mem_iff.mp hnearest.mem
  have hyx := hnearest.le (hperm.mem_iff.mpr hx.mem) hx.1.1
  have hxy := hx.le hmem hnearest.1.1
  rw [hy, honly y hmem hnearest.1.1 (Nat.le_antisymm hyx hxy)]

/-! ### Candidates in frames -/

/-- The candidate may be suggested, none is nearer, and no frame further inside has one as near. -/
structure IsBest (name : String) (frames : List (List String)) (x : String) : Prop where
  near : Near name x
  least : ∀ names ∈ frames, ∀ y ∈ names, y ≠ name → distance name x ≤ distance name y
  innermost : ∃ inner names outer, frames = inner ++ names :: outer ∧ x ∈ names ∧
    ∀ ns ∈ inner, ∀ y ∈ ns, y ≠ name → distance name x < distance name y

/-- Two names of one frame are the best. -/
def Tied (name : String) (frames : List (List String)) : Prop :=
  ∃ names ∈ frames, ∃ x ∈ names, ∃ y ∈ names, x ≠ y ∧ IsBest name frames x ∧ IsBest name frames y

section Frames

variable {frames : List (List String)} {o o' : NameOrder}

theorem isBest_of_suggest? (h : suggest? name (o.list frames) = some x) : IsBest name frames x := by
  have hnearest := isNearest_of_suggest? h
  refine ⟨hnearest.1, fun names hnames y hy => ?_, ?_⟩
  · exact hnearest.le (NameOrder.mem_list.mpr ⟨names, hnames, hy⟩)
  · obtain ⟨-, before, after, heq, hbefore, -⟩ := hnearest
    obtain ⟨inner, names, outer, hframes, hx, hinner⟩ := NameOrder.exists_frame heq
    exact ⟨inner, names, outer, hframes, hx, fun ns hns y hy => hbefore y (hinner ns hns y hy)⟩

theorem suggest?_first (h : IsBest name frames x) :
    suggest? name ((NameOrder.first x).list frames) = some x := by
  obtain ⟨inner, names, outer, rfl, hx, hinner⟩ := h.innermost
  refine suggest?_eq_some_iff.mpr ⟨h.near, (NameOrder.first x).listFrom 0 inner,
    names.erase x ++ (NameOrder.first x).listFrom (0 + inner.length + 1) outer, ?_, ?_, ?_⟩
  · rw [NameOrder.list, NameOrder.listFrom_append, NameOrder.listFrom, NameOrder.arrange_first hx,
      List.cons_append]
  · -- what is listed before the name belongs to frames further inside
    intro y hy
    obtain ⟨ns, hns, hy⟩ := NameOrder.mem_listFrom.mp hy
    exact hinner ns hns y hy
  · intro y hy
    rcases List.mem_append.mp hy with hy | hy
    · exact h.least names (by simp) y (List.mem_of_mem_erase hy)
    · obtain ⟨ns, hns, hy⟩ := NameOrder.mem_listFrom.mp hy
      exact h.least ns (by simp [hns]) y hy

/-- The best names are those that some order of the names makes the suggestion. -/
theorem isBest_iff : IsBest name frames x ↔ ∃ o : NameOrder, suggest? name (o.list frames) = some x := by
  constructor
  · intro h
    exact ⟨.first x, suggest?_first h⟩
  · rintro ⟨o, h⟩
    exact isBest_of_suggest? h

theorem IsBest.tied (hx : IsBest name frames x) (hy : IsBest name frames y) (hne : x ≠ y) :
    Tied name frames := by
  obtain ⟨inner, names, outer, rfl, hmem, hinner⟩ := hx.innermost
  obtain ⟨inner', names', outer', heq, hmem', hinner'⟩ := hy.innermost
  have hxy := hx.least names' (by simp [heq]) y hmem' hy.near.1
  have hyx := hy.least names (by simp) x hmem hx.near.1
  -- neither of the two frames is inside the other
  rcases IsNearest.eq_or_of_append_eq heq with rfl | hin | hin
  · exact ⟨names, by simp, x, hmem, y, hmem', hne, hx, hy⟩
  · have := hinner' names hin x hmem hx.near.1
    omega
  · have := hinner names' hin y hmem' hy.near.1
    omega

theorem suggest?_eq_none_order (h : suggest? name (o.list frames) = none) (o' : NameOrder) :
    suggest? name (o'.list frames) = none := by
  refine suggest?_eq_none_iff.mpr fun y hy => ?_
  exact suggest?_eq_none_iff.mp h y (NameOrder.mem_list.mpr (NameOrder.mem_list.mp hy))

/-- The order of the names in the frames decides just between tied names. -/
theorem tied_of_ne (h : suggest? name (o.list frames) ≠ suggest? name (o'.list frames)) :
    Tied name frames := by
  cases hx : suggest? name (o.list frames) with
  | none => exact absurd (hx.trans (suggest?_eq_none_order hx o').symm) h
  | some x =>
    cases hy : suggest? name (o'.list frames) with
    | none => exact absurd ((suggest?_eq_none_order hy o).trans hy.symm) h
    | some y =>
      refine (isBest_of_suggest? hx).tied (isBest_of_suggest? hy) fun hxy => h ?_
      rw [hx, hy, hxy]

theorem tied_iff :
    Tied name frames ↔
      ∃ o o' : NameOrder, suggest? name (o.list frames) ≠ suggest? name (o'.list frames) := by
  constructor
  · rintro ⟨names, -, x, -, y, -, hne, hx, hy⟩
    refine ⟨.first x, .first y, ?_⟩
    rw [suggest?_first hx, suggest?_first hy]
    exact fun h => hne (Option.some.inj h)
  · rintro ⟨o, o', h⟩
    exact tied_of_ne h

example : Tied "totl" [["total", "tote"], ["tots"]] :=
  tied_iff.mpr ⟨.first "total", .first "tote", by decide +kernel⟩

end Frames

end Scriptlet.Text
