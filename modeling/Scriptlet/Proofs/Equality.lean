import Mathlib.Data.Finset.Prod
import Mathlib.Data.List.Forall2
import Scriptlet.Value.Equality

/-!
Equality of values on shared and cyclic heaps.

* `Heap.Related h R` are the clauses that equality has to satisfy, with `R` for the items of arrays.
* `Heap.Walk h opened ps b` is the comparison itself, as the walk that it is: the pairs `ps` are
  compared from left to right inside the pairs of arrays `opened`, and the answer is `b`. A walk is a
  finite tree, and no bound occurs in it.
* `Heap.walk_equalNested`: a bounded comparison is such a walk, provided that there is room for the
  pairs that can still be opened (`Heap.Room`). Hence it ends by itself, never at its bound, and as there
  is one walk only (`Heap.Walk.unique`), every greater bound gives the same answer
  (`Heap.equalNested_eq_equal`).
* `Heap.equal_isGreatest`: equality satisfies the clauses, and every relation that satisfies them is
  contained in it.

That a pair met again counts as equal is justified in `Walk.justified`: the pairs that a walk has
found equal, taken together with those that are still open, satisfy the clauses.
-/
namespace Scriptlet.Heap

/-! ### The clauses -/

/-- What makes two values equal, when `R` says so of items. -/
def Related (h : Heap) (R : Value → Value → Prop) : Value → Value → Prop
  | .nil, .nil => True
  | .bool a, .bool b => a = b
  | .float x, .float y => (x == y) = true
  | .text r, .text s => r = s ∨ (h.text r).toList = (h.text s).toList
  | .function f, .function g => f.id = g.id
  | .native m, .native n => m.name = n.name
  | .array r, .array s => r = s ∨ List.Forall₂ R (h.items r).toList (h.items s).toList
  | _, _ => False

variable {h : Heap} {R S : Value → Value → Prop} {x y : Value}

theorem Related.mono (hRS : ∀ u v, R u v → S u v) (hxy : h.Related R x y) : h.Related S x y := by
  unfold Related at hxy ⊢
  split at hxy <;> try exact hxy
  exact hxy.imp_right fun hitems => hitems.imp hRS

/-- Both values are arrays. -/
def BothArrays (x y : Value) : Prop :=
  ∃ r s, x = .array r ∧ y = .array s

/-- Unless both values are arrays, the clauses say nothing of items. -/
theorem Related.plain (hplain : ¬ BothArrays x y) (hxy : h.Related R x y) : h.Related S x y := by
  unfold Related at hxy ⊢
  split at hxy <;> try exact hxy
  exact absurd ⟨_, _, rfl, rfl⟩ hplain

theorem native_name_inj {m n : Native} : m.name = n.name ↔ m = n := by
  constructor
  · cases m <;> cases n <;> first | exact fun _ => rfl | exact fun hname => absurd hname (by decide)
  · rintro rfl
    rfl

/-! ### The walk -/

/-- The comparison of pairs of values, from left to right, up to the first that differ. -/
inductive Walk (h : Heap) : List (ArrayRef × ArrayRef) → List (Value × Value) → Bool → Prop
  | done {opened} : Walk h opened [] true
  | equal {opened x y ps b} (plain : ¬ BothArrays x y) (eq : h.Related (fun _ _ => False) x y)
      (rest : Walk h opened ps b) : Walk h opened ((x, y) :: ps) b
  | differ {opened x y ps} (plain : ¬ BothArrays x y) (ne : ¬ h.Related (fun _ _ => False) x y) :
      Walk h opened ((x, y) :: ps) false
  | met {opened r s ps b} (met : r = s ∨ (r, s) ∈ opened) (rest : Walk h opened ps b) :
      Walk h opened ((.array r, .array s) :: ps) b
  | lengths {opened r s ps} (new : ¬ (r = s ∨ (r, s) ∈ opened))
      (ne : (h.items r).toList.length ≠ (h.items s).toList.length) :
      Walk h opened ((.array r, .array s) :: ps) false
  | itemsDiffer {opened r s ps} (new : ¬ (r = s ∨ (r, s) ∈ opened))
      (eq : (h.items r).toList.length = (h.items s).toList.length)
      (items : Walk h ((r, s) :: opened) ((h.items r).toList.zip (h.items s).toList) false) :
      Walk h opened ((.array r, .array s) :: ps) false
  | itemsEqual {opened r s ps b} (new : ¬ (r = s ∨ (r, s) ∈ opened))
      (eq : (h.items r).toList.length = (h.items s).toList.length)
      (items : Walk h ((r, s) :: opened) ((h.items r).toList.zip (h.items s).toList) true)
      (rest : Walk h opened ps b) : Walk h opened ((.array r, .array s) :: ps) b

/-- There is one walk only. -/
theorem Walk.unique {opened : List (ArrayRef × ArrayRef)} {ps : List (Value × Value)} {b b' : Bool}
    (hwalk : h.Walk opened ps b) (hwalk' : h.Walk opened ps b') : b = b' := by
  -- the first pair, the pairs met and the lengths tell which rule comes next
  induction hwalk generalizing b' with
  | done =>
    cases hwalk'
    rfl
  | equal plain eq _ ih =>
    cases hwalk' with
    | equal _ _ rest => exact ih rest
    | differ _ ne => exact absurd eq ne
    | met | lengths | itemsDiffer | itemsEqual => exact absurd ⟨_, _, rfl, rfl⟩ plain
  | differ plain ne =>
    cases hwalk' with
    | equal _ eq => exact absurd eq ne
    | differ => rfl
    | met | lengths | itemsDiffer | itemsEqual => exact absurd ⟨_, _, rfl, rfl⟩ plain
  | met met _ ih =>
    cases hwalk' with
    | equal plain | differ plain => exact absurd ⟨_, _, rfl, rfl⟩ plain
    | met _ rest => exact ih rest
    | lengths new | itemsDiffer new | itemsEqual new => exact absurd met new
  | lengths new ne =>
    cases hwalk' with
    | equal plain | differ plain => exact absurd ⟨_, _, rfl, rfl⟩ plain
    | met met => exact absurd met new
    | lengths => rfl
    | itemsDiffer _ eq | itemsEqual _ eq => exact absurd eq ne
  | itemsDiffer new eq _ ih =>
    cases hwalk' with
    | equal plain | differ plain => exact absurd ⟨_, _, rfl, rfl⟩ plain
    | met met => exact absurd met new
    | lengths _ ne => exact absurd eq ne
    | itemsDiffer => rfl
    | itemsEqual _ _ items => cases ih items
  | itemsEqual new eq _ _ ih ih' =>
    cases hwalk' with
    | equal plain | differ plain => exact absurd ⟨_, _, rfl, rfl⟩ plain
    | met met => exact absurd met new
    | lengths _ ne => exact absurd eq ne
    | itemsDiffer _ _ items => cases ih items
    | itemsEqual _ _ _ rest => exact ih' rest

/-- A pair of arrays that is being compared. -/
def Opened (opened : List (ArrayRef × ArrayRef)) (x y : Value) : Prop :=
  ∃ r s, (r, s) ∈ opened ∧ x = .array r ∧ y = .array s

/-- A walk answers `true` if all its pairs are in a relation that satisfies the clauses. -/
theorem Walk.eq_true {opened : List (ArrayRef × ArrayRef)} {ps : List (Value × Value)} {b : Bool}
    (hwalk : h.Walk opened ps b) (hS : ∀ u v, S u v → h.Related S u v)
    (hps : ∀ p ∈ ps, S p.1 p.2) : b = true := by
  induction hwalk with
  | done => rfl
  | equal _ _ _ ih => exact ih fun p hp => hps p (List.mem_cons_of_mem _ hp)
  | differ plain ne => exact absurd ((hS _ _ (hps _ List.mem_cons_self)).plain plain) ne
  | met _ _ ih => exact ih fun p hp => hps p (List.mem_cons_of_mem _ hp)
  | lengths new ne =>
    rcases hS _ _ (hps _ List.mem_cons_self) with heq | hitems
    · exact absurd (.inl heq) new
    · exact absurd hitems.length_eq ne
  | itemsDiffer new _ _ ih =>
    rcases hS _ _ (hps _ List.mem_cons_self) with heq | hitems
    · exact absurd (.inl heq) new
    · exact ih fun p hp => (List.forall₂_iff_zip.mp hitems).2 hp
  | itemsEqual _ _ _ _ _ ih => exact ih fun p hp => hps p (List.mem_cons_of_mem _ hp)

/-- The pairs of a walk that answers `true` are found in a relation that satisfies the clauses, when
the open pairs are added to it. -/
theorem Walk.justified {opened : List (ArrayRef × ArrayRef)} {ps : List (Value × Value)} {b : Bool}
    (hwalk : h.Walk opened ps b) (hb : b = true) :
    ∃ R : Value → Value → Prop, (∀ p ∈ ps, R p.1 p.2 ∨ Opened opened p.1 p.2) ∧
      ∀ u v, R u v → h.Related (fun u v => R u v ∨ Opened opened u v) u v := by
  induction hwalk with
  | done => exact ⟨fun _ _ => False, nofun, nofun⟩
  | @equal opened x y ps b plain eq _ ih =>
    obtain ⟨R, hps, hR⟩ := ih hb
    refine ⟨fun u v => (u = x ∧ v = y) ∨ R u v, ?_, ?_⟩
    · intro p hp
      rcases List.mem_cons.mp hp with rfl | hp
      · exact .inl (.inl ⟨rfl, rfl⟩)
      · exact (hps p hp).imp_left .inr
    · rintro u v (⟨rfl, rfl⟩ | huv)
      · exact eq.plain plain
      · exact (hR u v huv).mono fun _ _ => .imp_left .inr
  | differ => cases hb
  | @met opened r s ps b met _ ih =>
    obtain ⟨R, hps, hR⟩ := ih hb
    rcases met with rfl | hmem
    · refine ⟨fun u v => (u = .array r ∧ v = .array r) ∨ R u v, ?_, ?_⟩
      · intro p hp
        rcases List.mem_cons.mp hp with rfl | hp
        · exact .inl (.inl ⟨rfl, rfl⟩)
        · exact (hps p hp).imp_left .inr
      · rintro u v (⟨rfl, rfl⟩ | huv)
        · exact .inl rfl
        · exact (hR u v huv).mono fun _ _ => .imp_left .inr
    · refine ⟨R, ?_, hR⟩
      intro p hp
      rcases List.mem_cons.mp hp with rfl | hp
      · exact .inr ⟨r, s, hmem, rfl, rfl⟩
      · exact hps p hp
  | lengths => cases hb
  | itemsDiffer => cases hb
  | @itemsEqual opened r s ps b _ eq _ _ ihitems ihrest =>
    obtain ⟨Q, hitems, hQ⟩ := ihitems rfl
    obtain ⟨R, hps, hR⟩ := ihrest hb
    let T : Value → Value → Prop := fun u v => (u = .array r ∧ v = .array s) ∨ Q u v ∨ R u v
    -- inside, the pair itself is open; outside, it is one of the pairs found equal
    have hinside : ∀ u v, Q u v ∨ Opened ((r, s) :: opened) u v → T u v ∨ Opened opened u v := by
      rintro u v (huv | ⟨r', s', hmem, rfl, rfl⟩)
      · exact .inl (.inr (.inl huv))
      · rcases List.mem_cons.mp hmem with heq | hmem
        · cases heq
          exact .inl (.inl ⟨rfl, rfl⟩)
        · exact .inr ⟨r', s', hmem, rfl, rfl⟩
    refine ⟨T, ?_, ?_⟩
    · intro p hp
      rcases List.mem_cons.mp hp with rfl | hp
      · exact .inl (.inl ⟨rfl, rfl⟩)
      · exact (hps p hp).imp_left fun hp => .inr (.inr hp)
    · rintro u v (⟨rfl, rfl⟩ | huv | huv)
      · refine .inr (List.forall₂_iff_zip.mpr ⟨eq, fun {a b} hab => ?_⟩)
        exact hinside a b (hitems (a, b) hab)
      · exact (hQ u v huv).mono hinside
      · exact (hR u v huv).mono fun _ _ => .imp_left fun huv => .inr (.inr huv)

/-! ### The bound -/

/-- The open pairs are different pairs of arrays of the heap, and with the fuel that is left all
others could be opened. -/
structure Room (h : Heap) (fuel : Nat) (opened : List (ArrayRef × ArrayRef)) : Prop where
  nodup : opened.Nodup
  inHeap : ∀ p ∈ opened, p.1.index < h.arrays.size ∧ p.2.index < h.arrays.size
  room : h.arrays.size * h.arrays.size < fuel + opened.length

namespace Room

variable {fuel : Nat} {opened : List (ArrayRef × ArrayRef)}

/-- There are no more open pairs than pairs of arrays. -/
theorem length_le (hroom : h.Room fuel opened) :
    opened.length ≤ h.arrays.size * h.arrays.size := by
  let index : ArrayRef × ArrayRef → Nat × Nat := fun p => (p.1.index, p.2.index)
  have hinj : Function.Injective index := by
    rintro ⟨⟨i⟩, ⟨j⟩⟩ ⟨⟨k⟩, ⟨l⟩⟩ heq
    cases heq
    rfl
  have hsubset : (opened.map index).toFinset ⊆
      Finset.range h.arrays.size ×ˢ Finset.range h.arrays.size := by
    intro q hq
    obtain ⟨p, hp, rfl⟩ := List.mem_map.mp (List.mem_toFinset.mp hq)
    have hin := hroom.inHeap p hp
    exact Finset.mem_product.mpr ⟨Finset.mem_range.mpr hin.1, Finset.mem_range.mpr hin.2⟩
  have hcard := Finset.card_le_card hsubset
  rwa [List.toFinset_card_of_nodup (hroom.nodup.map hinj), List.length_map, Finset.card_product,
    Finset.card_range] at hcard

theorem fuel_pos (hroom : h.Room fuel opened) : 0 < fuel := by
  have hle := hroom.length_le
  have hlt := hroom.room
  omega

theorem inHeap_of_mem {r : ArrayRef} {v : Value} (hv : v ∈ (h.items r).toList) :
    r.index < h.arrays.size := by
  by_contra hout
  have hempty : h.items r = .empty := by
    rw [items, Array.getD_eq_getD_getElem?, Array.getElem?_eq_none (Nat.not_lt.mp hout)]
    rfl
  rw [hempty, Buffer.toList_empty] at hv
  cases hv

/-- A pair with items can be opened. -/
theorem push {r s : ArrayRef} (hroom : h.Room (fuel + 1) opened)
    (hnew : ¬ (r = s ∨ (r, s) ∈ opened)) (hr : r.index < h.arrays.size)
    (hs : s.index < h.arrays.size) : h.Room fuel ((r, s) :: opened) where
  nodup := List.nodup_cons.mpr ⟨fun hmem => hnew (.inr hmem), hroom.nodup⟩
  inHeap := by
    intro p hp
    rcases List.mem_cons.mp hp with rfl | hp
    · exact ⟨hr, hs⟩
    · exact hroom.inHeap p hp
  room := by
    have hlt := hroom.room
    rw [List.length_cons]
    omega

end Room

/-- Unless both values are arrays, they are compared by the clauses. -/
theorem equalNested_plain (hplain : ¬ BothArrays x y) (fuel : Nat)
    (opened : List (ArrayRef × ArrayRef)) :
    h.equalNested fuel opened x y = true ↔ h.Related (fun _ _ => False) x y := by
  cases x <;> cases y <;> simp only [equalNested, Related, beq_iff_eq, native_name_inj,
    Bool.false_eq_true]
  · exact ⟨.inr, fun hrs => hrs.elim (fun heq => heq ▸ rfl) id⟩
  · exact absurd ⟨_, _, rfl, rfl⟩ hplain

theorem equalNested_array (fuel : Nat) (opened : List (ArrayRef × ArrayRef)) (r s : ArrayRef) :
    h.equalNested (fuel + 1) opened (.array r) (.array s) =
      if r = s ∨ (r, s) ∈ opened then true
      else
        (h.items r).toList.length == (h.items s).toList.length &&
          ((h.items r).toList.zip (h.items s).toList).all fun p =>
            h.equalNested fuel ((r, s) :: opened) p.1 p.2 := by
  rw [equalNested]

/-- **A comparison with room is a walk**, whatever its bound. -/
theorem walk_equalNested (fuel : Nat) (opened : List (ArrayRef × ArrayRef))
    (hroom : h.Room fuel opened) (ps : List (Value × Value)) :
    h.Walk opened ps (ps.all fun p => h.equalNested fuel opened p.1 p.2) := by
  induction fuel generalizing opened ps with
  | zero => exact absurd hroom.fuel_pos (Nat.lt_irrefl 0)
  | succ fuel ihfuel =>
    induction ps with
    | nil => exact .done
    | cons p ps ih =>
      obtain ⟨x, y⟩ := p
      rw [List.all_cons]
      by_cases hplain : BothArrays x y
      · obtain ⟨r, s, rfl, rfl⟩ := hplain
        rw [equalNested_array]
        split
        · rename_i hmet
          exact .met hmet ih
        · rename_i hnew
          by_cases hlen : (h.items r).toList.length = (h.items s).toList.length
          · rw [beq_iff_eq.mpr hlen, Bool.true_and]
            have hitems : h.Walk ((r, s) :: opened) ((h.items r).toList.zip (h.items s).toList)
                (((h.items r).toList.zip (h.items s).toList).all fun p =>
                  h.equalNested fuel ((r, s) :: opened) p.1 p.2) := by
              -- without items there is nothing to walk, and with items the pair is in the heap
              cases hzip : (h.items r).toList.zip (h.items s).toList with
              | nil => exact .done
              | cons q qs =>
                have hq : (q.1, q.2) ∈ (h.items r).toList.zip (h.items s).toList := by
                  rw [hzip]
                  exact List.mem_cons_self
                have hmem := List.of_mem_zip hq
                exact ihfuel _ (hroom.push hnew (Room.inHeap_of_mem hmem.1)
                  (Room.inHeap_of_mem hmem.2)) (q :: qs)
            revert hitems
            generalize ((h.items r).toList.zip (h.items s).toList).all _ = b
            intro hitems
            cases b with
            | true => exact .itemsEqual hnew hlen hitems ih
            | false => exact .itemsDiffer hnew hlen hitems
          · rw [beq_eq_false_iff_ne.mpr hlen, Bool.false_and, Bool.false_and]
            exact .lengths hnew hlen
      · cases heq : h.equalNested (fuel + 1) opened x y with
        | true => exact .equal hplain ((equalNested_plain hplain _ _).mp heq) ih
        | false =>
          refine .differ hplain fun hrel => ?_
          rw [(equalNested_plain hplain _ _).mpr hrel] at heq
          cases heq

/-! ### Equality -/

theorem walk_of_lt {fuel : Nat} (hfuel : h.arrays.size * h.arrays.size < fuel) (x y : Value) :
    h.Walk [] [(x, y)] (h.equalNested fuel [] x y) := by
  have hroom : h.Room fuel [] := ⟨List.nodup_nil, nofun, hfuel⟩
  have hwalk := walk_equalNested fuel [] hroom [(x, y)]
  rwa [List.all_cons, List.all_nil, Bool.and_true] at hwalk

theorem walk_equal (h : Heap) (x y : Value) : h.Walk [] [(x, y)] (h.equal x y) :=
  walk_of_lt (Nat.lt_succ_self _) x y

/-- The bound is not reached, so the answer is the same under every greater one. -/
theorem equalNested_eq_equal {fuel : Nat} (hfuel : h.arrays.size * h.arrays.size < fuel)
    (x y : Value) : h.equalNested fuel [] x y = h.equal x y :=
  (walk_of_lt hfuel x y).unique (walk_equal h x y)

/-- Equality contains every relation that satisfies the clauses. -/
theorem equal_of_related (hS : ∀ u v, S u v → h.Related S u v) (hxy : S x y) :
    h.equal x y = true :=
  (walk_equal h x y).eq_true hS fun p hp => by
    cases List.mem_singleton.mp hp
    exact hxy

theorem related_of_equal (hxy : h.equal x y = true) :
    h.Related (fun u v => h.equal u v = true) x y := by
  obtain ⟨R, hps, hR⟩ := (walk_equal h x y).justified hxy
  have hclosed : ∀ u v, R u v ∨ Opened [] u v → R u v :=
    fun u v huv => huv.resolve_right fun ⟨_, _, hmem, _⟩ => List.not_mem_nil hmem
  have hpost : ∀ u v, R u v → h.Related R u v := fun u v huv => (hR u v huv).mono hclosed
  have hRxy : R x y := hclosed x y (hps (x, y) List.mem_cons_self)
  exact (hpost x y hRxy).mono fun u v huv => equal_of_related hpost huv

theorem equal_of_related_equal (hxy : h.Related (fun u v => h.equal u v = true) x y) :
    h.equal x y = true := by
  -- equality together with this pair satisfies the clauses
  refine equal_of_related (S := fun u v => h.equal u v = true ∨ (u = x ∧ v = y)) ?_ (.inr ⟨rfl, rfl⟩)
  rintro u v (huv | ⟨rfl, rfl⟩)
  · exact (related_of_equal huv).mono fun _ _ => .inl
  · exact hxy.mono fun _ _ => .inl

/-- **Equality is the greatest relation that satisfies its clauses**, on every heap, and to compare
two values is a finite walk. -/
theorem equal_isGreatest (h : Heap) :
    (∀ x y, h.Walk [] [(x, y)] (h.equal x y)) ∧
      (∀ x y, h.equal x y = true ↔ h.Related (fun u v => h.equal u v = true) x y) ∧
      ∀ R : Value → Value → Prop, (∀ x y, R x y → h.Related R x y) →
        ∀ x y, R x y → h.equal x y = true :=
  ⟨walk_equal h, fun _ _ => ⟨related_of_equal, equal_of_related_equal⟩,
    fun _ hR _ _ => equal_of_related hR⟩

end Scriptlet.Heap
