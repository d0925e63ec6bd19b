import Scriptlet.Proofs.Data
import Scriptlet.Proofs.Numerals

/-!
Which arrays are written as dots.

Inside a value, an occurrence is named by the positions that lead to it (`Heap.at?`), and an array
encloses it if it is met on the way there (`Heap.Encloses`). `Heap.Writes h v p s` says how the
occurrence at `p` is written: an array that encloses itself as dots, and any other by its items. A
derivation is a finite tree without any bound on its depth, so that there is one for every
occurrence says that writing ends; the arrays that enclose an occurrence without dots are all
different, and there are only so many (`Heap.writes_renderNested`).

* `Heap.render_marks_cycles`: rendering writes the value so, there is one way to write each
  occurrence, and dots stand for exactly the arrays inside themselves.
* A value without such arrays is therefore written by recursion on items alone (`Heap.Spells`),
  however often an array occurs in it side by side.
-/
namespace Scriptlet.Heap

variable (h : Heap)

/-! ### Occurrences -/

/-- The item at a position of an array. -/
def item? (v : Value) (i : Nat) : Option Value :=
  match v with
  | .array r => (h.items r).toList[i]?
  | _ => none

/-- The value that positions lead to, from the outside in. -/
def at? (v : Value) : List Nat → Option Value
  | [] => some v
  | i :: p => (h.item? v i).bind fun x => at? x p

/-- An array is met on the way to an occurrence. -/
def Encloses (v : Value) (p : List Nat) (r : ArrayRef) : Prop :=
  ∃ q, q <+: p ∧ q ≠ p ∧ h.at? v q = some (.array r)

section

variable {h} {v x : Value} {p : List Nat} {r : ArrayRef} {i : Nat}

theorem at?_append (v : Value) (p q : List Nat) :
    h.at? v (p ++ q) = (h.at? v p).bind fun x => h.at? x q := by
  induction p generalizing v with
  | nil => rfl
  | cons i p ih =>
    rw [List.cons_append, at?, at?]
    cases h.item? v i with
    | none => rfl
    | some y => exact ih y

theorem at?_concat (v : Value) (p : List Nat) (i : Nat) :
    h.at? v (p ++ [i]) = (h.at? v p).bind fun x => h.item? x i := by
  rw [at?_append]
  congr 1
  funext x
  rw [at?]
  cases h.item? x i <;> rfl

/-- The way to an item goes through the array. -/
theorem encloses_concat (hx : h.at? v p = some x) :
    h.Encloses v (p ++ [i]) r ↔ h.Encloses v p r ∨ x = .array r := by
  constructor
  · rintro ⟨q, hq, hne, hr⟩
    rcases List.prefix_concat_iff.mp hq with heq | hq
    · exact absurd heq hne
    · by_cases heq : q = p
      · subst heq
        rw [hx] at hr
        exact .inr (Option.some.inj hr)
      · exact .inl ⟨q, hq, heq, hr⟩
  · rintro (⟨q, hq, hne, hr⟩ | rfl)
    · refine ⟨q, hq.trans (List.prefix_append p [i]), ?_, hr⟩
      rintro rfl
      exact absurd hq.length_le (by simp)
    · exact ⟨p, List.prefix_append p [i], by simp, hx⟩

theorem not_encloses_nil : ¬ h.Encloses v [] r := by
  rintro ⟨q, hq, hne, -⟩
  exact hne (List.prefix_nil.mp hq)

end

/-! ### Writing -/

/-- How a value that is no array is written. A text is quoted, unless it stands alone. -/
def leaf? (alone : Bool) : Value → Option String
  | .nil => some "nil"
  | .bool b => some (if b then "true" else "false")
  | .float f => some (Number.text f)
  | .text r =>
    let s := String.ofList (h.text r).toList
    some (if alone then s else Text.quote s)
  | .function f => some ("<fn(" ++ ", ".intercalate (f.params.map (·.val)) ++ ")>")
  | .native n => some ("<native fn " ++ n.name ++ ">")
  | .array _ => none

/-- Items that have been written, in brackets. -/
def bracketed (ts : List String) : String :=
  "[" ++ ", ".intercalate ts ++ "]"

/-- The occurrence at a path inside the value `v` is written so. -/
inductive Writes (v : Value) : List Nat → String → Prop
  | leaf {p : List Nat} {x : Value} {s : String} (here : h.at? v p = some x)
      (text : h.leaf? p.isEmpty x = some s) : Writes v p s
  | dots {p : List Nat} {r : ArrayRef} (here : h.at? v p = some (.array r))
      (inside : h.Encloses v p r) : Writes v p "[...]"
  | array {p : List Nat} {r : ArrayRef} {ts : List String} (here : h.at? v p = some (.array r))
      (new : ¬ h.Encloses v p r) (length : ts.length = (h.items r).size)
      (items : ∀ i t, ts[i]? = some t → Writes v (p ++ [i]) t) : Writes v p (bracketed ts)

section

variable {h} {v x : Value} {p : List Nat} {r : ArrayRef}

/-- An occurrence is written in one way. -/
theorem Writes.unique {s t : String} (hs : h.Writes v p s) (ht : h.Writes v p t) : s = t := by
  induction hs generalizing t with
  | leaf here text =>
    cases ht with
    | leaf here' text' =>
      cases here.symm.trans here'
      exact Option.some.inj (text.symm.trans text')
    | dots here' =>
      cases here.symm.trans here'
      cases text
    | array here' =>
      cases here.symm.trans here'
      cases text
  | dots here inside =>
    cases ht with
    | leaf here' text =>
      cases here.symm.trans here'
      cases text
    | dots => rfl
    | array here' new =>
      cases here.symm.trans here'
      exact absurd inside new
  | array here new length items ih =>
    cases ht with
    | leaf here' text =>
      cases here.symm.trans here'
      cases text
    | dots here' inside =>
      cases here.symm.trans here'
      exact absurd inside new
    | array here' _ length' items' =>
      cases here.symm.trans here'
      refine congrArg bracketed (List.ext_getElem (length.trans length'.symm) fun i hi hi' => ?_)
      exact ih i _ (List.getElem?_eq_getElem hi) (items' i _ (List.getElem?_eq_getElem hi'))

/-- A value that is no array is written as rendering writes it inside others, unless it is a text
that stands alone. -/
theorem leaf?_eq (hx : ∀ r, x ≠ .array r) {alone : Bool} (halone : alone = true → ∀ r, x ≠ .text r)
    (fuel : Nat) (opened : List ArrayRef) :
    h.leaf? alone x = some (h.renderNested fuel opened x) := by
  cases x with
  | array r => exact absurd rfl (hx r)
  | text r =>
    cases alone with
    | false => rw [renderNested]; rfl
    | true => exact absurd rfl (halone rfl r)
  | _ => rw [renderNested]; rfl

/-- **What rendering writes for an occurrence**, if the open arrays are those that enclose it, and
there is room for all others to be opened. A text that stands alone is the one exception. -/
theorem writes_renderNested (fuel : Nat) {opened : List ArrayRef} (hx : h.at? v p = some x)
    (halone : p = [] → ∀ r, x ≠ .text r) (hopened : ∀ r, r ∈ opened ↔ h.Encloses v p r)
    (hn : opened.Nodup) (hlt : ∀ r ∈ opened, r.index < h.arrays.size)
    (hroom : h.arrays.size < fuel + opened.length) :
    h.Writes v p (h.renderNested fuel opened x) := by
  induction fuel generalizing p x opened with
  | zero =>
    have hle := length_le_of_nodup hn hlt
    omega
  | succ fuel ih =>
    by_cases harray : ∃ r, x = .array r
    · obtain ⟨r, rfl⟩ := harray
      rw [renderNested]
      by_cases hr : r ∈ opened
      · rw [if_pos hr]
        exact .dots hx ((hopened r).mp hr)
      · rw [if_neg hr]
        refine .array hx (mt (hopened r).mpr hr) (by simp) ?_
        intro i t ht
        rw [List.getElem?_map] at ht
        obtain ⟨y, hy, rfl⟩ := Option.map_eq_some_iff.mp ht
        have hitem : h.at? v (p ++ [i]) = some y := by
          rw [at?_concat, hx]
          exact hy
        -- what encloses the item is what encloses the array, and the array
        refine ih hitem (by simp) ?_ (List.nodup_cons.mpr ⟨hr, hn⟩) ?_ ?_
        · intro s
          rw [encloses_concat hx, List.mem_cons, hopened s, or_comm, Value.array.injEq, eq_comm]
        · intro s hs
          rcases List.mem_cons.mp hs with rfl | hs
          · exact lt_of_mem_items (List.mem_of_getElem? hy)
          · exact hlt s hs
        · rw [List.length_cons]
          omega
    · have hplain : ∀ r, x ≠ .array r := fun r heq => harray ⟨r, heq⟩
      exact .leaf hx (leaf?_eq hplain (fun hp => halone (List.isEmpty_iff.mp hp)) _ _)

/-- The arrays that enclose an occurrence, each once. -/
theorem exists_enclosing (hx : h.at? v p = some x) :
    ∃ opened : List ArrayRef, (∀ r, r ∈ opened ↔ h.Encloses v p r) ∧ opened.Nodup ∧
      ∀ r ∈ opened, r.index < h.arrays.size := by
  induction p using List.reverseRecOn generalizing x with
  | nil =>
    refine ⟨[], fun r => ⟨nofun, fun hr => absurd hr not_encloses_nil⟩, List.nodup_nil, nofun⟩
  | append_singleton p i ih =>
    rw [at?_concat] at hx
    obtain ⟨y, hy, hitem⟩ := Option.bind_eq_some_iff.mp hx
    obtain ⟨opened, hmem, hn, hlt⟩ := ih hy
    obtain ⟨r, rfl⟩ : ∃ r, y = .array r := by
      cases y with
      | array r => exact ⟨r, rfl⟩
      | _ => cases hitem
    by_cases hr : r ∈ opened
    · refine ⟨opened, fun s => ?_, hn, hlt⟩
      rw [encloses_concat hy, hmem s, Value.array.injEq]
      refine ⟨.inl, ?_⟩
      rintro (hs | rfl)
      · exact hs
      · exact (hmem r).mp hr
    · refine ⟨r :: opened, fun s => ?_, List.nodup_cons.mpr ⟨hr, hn⟩, ?_⟩
      · rw [encloses_concat hy, List.mem_cons, hmem s, or_comm, Value.array.injEq, eq_comm]
      · intro s hs
        rcases List.mem_cons.mp hs with rfl | hs
        · exact lt_of_mem_items (List.mem_of_getElem? hitem)
        · exact hlt s hs

/-- Every occurrence is written in some way. -/
theorem exists_writes (hx : h.at? v p = some x) : ∃ s, h.Writes v p s := by
  by_cases htext : ∃ r, x = .text r
  · obtain ⟨r, rfl⟩ := htext
    exact ⟨_, .leaf hx rfl⟩
  · obtain ⟨opened, hopened, hn, hlt⟩ := exists_enclosing hx
    have hroom : h.arrays.size < h.arrays.size + 1 + opened.length := by omega
    exact ⟨_, writes_renderNested _ hx (fun _ r heq => htext ⟨r, heq⟩) hopened hn hlt hroom⟩

theorem writes_render (h : Heap) (v : Value) : h.Writes v [] (h.render v) := by
  have hnone : ∀ r, r ∈ ([] : List ArrayRef) ↔ h.Encloses v [] r :=
    fun r => ⟨nofun, fun hr => absurd hr not_encloses_nil⟩
  cases v with
  | text r => exact .leaf rfl rfl
  | _ => exact writes_renderNested _ rfl (fun _ _ => nofun) hnone List.nodup_nil nofun (by simp)

/-! ### Dots -/

/-- Between brackets there are dots only if an item starts with one. -/
theorem bracketed_ne_dots {ts : List String} (hts : ∀ t ∈ ts, t.toList.head? ≠ some '.') :
    bracketed ts ≠ "[...]" := by
  intro heq
  have hlist : '[' :: (", ".toList.intercalate (ts.map String.toList) ++ [']']) =
      ['[', '.', '.', '.', ']'] := by
    have hchars := congrArg String.toList heq
    rwa [bracketed, String.toList_append, String.toList_append, String.toList_intercalate] at hchars
  have hhead := congrArg List.head? (List.cons.inj hlist).2
  cases ts with
  | nil => simp at hhead
  | cons t ts =>
    have ht := hts t List.mem_cons_self
    -- the first item, or what follows it if it is empty
    cases hcs : t.toList with
    | nil => cases ts <;> simp [hcs] at hhead
    | cons c cs =>
      rw [hcs] at ht
      cases ts <;> simp [hcs] at hhead <;> exact ht (congrArg some hhead)

theorem numeral_head {cs : List Char} (hcs : Number.IsNumeral cs) : cs.head? ≠ some '.' := by
  obtain ⟨whole, fraction, hne, hwhole, -, hcs⟩ := hcs
  obtain ⟨c, rest, rfl⟩ := List.exists_cons_of_ne_nil hne
  have hdigit : c.isDigit = true := hwhole c List.mem_cons_self
  have hhead : cs.head? = some c := by
    rcases hcs with rfl | ⟨-, rfl⟩ <;> rfl
  rw [hhead]
  intro hc
  rw [Option.some.inj hc] at hdigit
  exact absurd hdigit (by decide)

theorem number_head (f : Float) : (Number.text f).toList.head? ≠ some '.' := by
  cases hfinite : Number.isFinite f with
  | true =>
    rcases Number.text_reads hfinite with ⟨hnumeral, -⟩ | ⟨cs, hcs, -⟩
    · exact numeral_head hnumeral
    · rw [hcs]
      simp
  | false =>
    rw [Number.text, Number.write]
    rw [Number.isFinite] at hfinite
    cases hparts : Number.parts f with
    | nan => decide
    | infinite negative => cases negative <;> decide
    | finite negative m e =>
      rw [hparts] at hfinite
      cases hfinite

/-- No item starts with a dot. -/
theorem Writes.head {s : String} (hs : h.Writes v p s) (hp : p ≠ []) :
    s.toList.head? ≠ some '.' := by
  cases hs with
  | @leaf _ x _ here text =>
    rw [List.isEmpty_eq_false_iff.mpr hp] at text
    cases x with
    | array r => cases text
    | nil =>
      rw [← Option.some.inj text]
      decide
    | bool b =>
      rw [← Option.some.inj text]
      cases b <;> decide
    | float f =>
      rw [← Option.some.inj text]
      exact number_head f
    | text r =>
      rw [← Option.some.inj text]
      simp [Text.quote, Text.quoteChars]
    | _ =>
      rw [← Option.some.inj text]
      simp
  | dots => decide
  | array => simp [bracketed]

/-- Dots stand for exactly the arrays that enclose themselves. -/
theorem Writes.dots_iff {s : String} (hs : h.Writes v p s) (hr : h.at? v p = some (.array r)) :
    s = "[...]" ↔ h.Encloses v p r := by
  constructor
  · rintro rfl
    by_contra hnew
    generalize hdots : "[...]" = s at hs
    cases hs with
    | leaf here text =>
      cases hr.symm.trans here
      cases text
    | dots here inside =>
      cases hr.symm.trans here
      exact hnew inside
    | array here _ length items =>
      refine bracketed_ne_dots (fun t ht => ?_) hdots.symm
      obtain ⟨i, hi⟩ := List.mem_iff_getElem?.mp ht
      exact (items i t hi).head (by simp)
  · intro hinside
    exact hs.unique (.dots hr hinside)

end

/-! ### Values without arrays inside themselves -/

/-- A value is written so by recursion on items alone. -/
inductive Spells : Bool → Value → String → Prop
  | leaf {alone : Bool} {x : Value} {s : String} (text : h.leaf? alone x = some s) :
      Spells alone x s
  | array {alone : Bool} {r : ArrayRef} {ts : List String} (length : ts.length = (h.items r).size)
      (items : ∀ (i : Nat) x t, (h.items r).toList[i]? = some x → ts[i]? = some t →
        Spells false x t) :
      Spells alone (.array r) (bracketed ts)

section

variable {h} {v x : Value} {p : List Nat} {r s : ArrayRef}

theorem Spells.unique {alone : Bool} {s t : String} (hs : h.Spells alone x s)
    (ht : h.Spells alone x t) : s = t := by
  induction hs generalizing t with
  | @leaf _ x _ text =>
    cases ht with
    | leaf text' => exact Option.some.inj (text.symm.trans text')
    | array => cases text
  | @array _ r ts length items ih =>
    cases ht with
    | leaf text => cases text
    | @array _ _ us length' items' =>
      refine congrArg bracketed (List.ext_getElem (length.trans length'.symm) fun i hi hi' => ?_)
      have hitem : i < (h.items r).toList.length := hi.trans_eq length
      exact ih i _ _ (List.getElem?_eq_getElem hitem) (List.getElem?_eq_getElem hi)
        (items' i _ _ (List.getElem?_eq_getElem hitem) (List.getElem?_eq_getElem hi'))

/-- Positions lead from an array to arrays inside it. -/
theorem inside_of_at? {i : Nat} (hs : h.at? (.array r) (i :: p) = some (.array s)) :
    Relation.TransGen h.Has r s := by
  induction p generalizing r i with
  | nil =>
    obtain ⟨y, hy, hs⟩ := Option.bind_eq_some_iff.mp hs
    cases hs
    exact .single (List.mem_of_getElem? hy)
  | cons j p ih =>
    obtain ⟨y, hy, hs⟩ := Option.bind_eq_some_iff.mp hs
    cases y with
    | array t => exact .head (List.mem_of_getElem? hy) (ih hs)
    | _ => cases hs

theorem reaches_of_at? (hs : h.at? (.array r) p = some (.array s)) : h.Reaches r s := by
  cases p with
  | nil =>
    cases hs
    exact .refl
  | cons i p => exact (inside_of_at? hs).to_reflTransGen

/-- An array that encloses itself contains itself. -/
theorem Encloses.not_isAcyclic {root : ArrayRef} (hr : h.at? (.array root) p = some (.array r))
    (hinside : h.Encloses (.array root) p r) : ¬ h.IsAcyclic root := by
  obtain ⟨q, ⟨t, rfl⟩, hne, hq⟩ := hinside
  rw [at?_append, hq] at hr
  intro hacyclic
  cases t with
  | nil => exact hne (List.append_nil q).symm
  | cons i t => exact hacyclic r (reaches_of_at? hq) (inside_of_at? hr)

/-- Where no array is inside itself, writing is recursion on items alone. -/
theorem Writes.spells {s : String} (hacyclic : ∀ r, v = .array r → h.IsAcyclic r)
    (hs : h.Writes v p s) (hx : h.at? v p = some x) : h.Spells p.isEmpty x s := by
  induction hs generalizing x with
  | leaf here text =>
    cases here.symm.trans hx
    exact .leaf text
  | @dots p r here inside =>
    -- only an array encloses anything
    cases v with
    | array root => exact absurd (hacyclic root rfl) (inside.not_isAcyclic here)
    | _ =>
      cases p with
      | nil => exact absurd inside not_encloses_nil
      | cons i p => cases here
  | @array p r ts here _ length items ih =>
    cases here.symm.trans hx
    refine .array length fun i y t hy ht => ?_
    have hitem : h.at? v (p ++ [i]) = some y := by
      rw [at?_concat, here]
      exact hy
    have hspells := ih i t ht hitem
    rwa [List.isEmpty_eq_false_iff.mpr (by simp)] at hspells

end

/-- **Rendering marks exactly the arrays that are inside themselves.** What it writes for a value
comes from a finite derivation, and is all that can be derived; and so it is for every occurrence in
the value. An array is written as dots if and only if the same array is met on the way to it, and
else as its items, with commas between them and in brackets. Hence a value without arrays inside
themselves is written as by recursion on items alone, however many arrays in it are the same. -/
theorem render_marks_cycles (h : Heap) (v : Value) :
    (∀ s, h.Writes v [] s ↔ s = h.render v) ∧
    (∀ p x, h.at? v p = some x → ∃! s, h.Writes v p s) ∧
    (∀ p r s, h.at? v p = some (.array r) → h.Writes v p s →
      (s = "[...]" ↔ h.Encloses v p r) ∧
      (¬ h.Encloses v p r → ∃ ts : List String, ts.length = (h.items r).size ∧
        (∀ i t, ts[i]? = some t → h.Writes v (p ++ [i]) t) ∧
        s = "[" ++ ", ".intercalate ts ++ "]")) ∧
    ((∀ r, v = .array r → h.IsAcyclic r) → ∀ s, h.Spells true v s ↔ s = h.render v) := by
  refine ⟨fun s => ⟨fun hs => hs.unique (writes_render h v), ?_⟩, fun p x hx => ?_,
    fun p r s hr hs => ⟨hs.dots_iff hr, fun hnew => ?_⟩, fun hacyclic s => ?_⟩
  · rintro rfl
    exact writes_render h v
  · obtain ⟨s, hs⟩ := exists_writes hx
    exact ⟨s, hs, fun t ht => ht.unique hs⟩
  · cases hs with
    | leaf here text =>
      cases hr.symm.trans here
      cases text
    | dots here inside =>
      cases hr.symm.trans here
      exact absurd inside hnew
    | @array _ _ ts here _ length items =>
      cases hr.symm.trans here
      exact ⟨ts, length, items, rfl⟩
  · have hspells := (writes_render h v).spells hacyclic rfl
    constructor
    · intro hs
      exact hs.unique hspells
    · rintro rfl
      exact hspells

/-- An array holds itself, and twice another that holds it in turn: it is written as dots wherever
it is met again, and the other in full both times. An array that holds another twice, and none of
them itself, is written without dots. -/
theorem render_marks_cycles_shared :
    let h : Heap := ⟨#[], #[.ofList [.array ⟨0⟩, .array ⟨1⟩, .array ⟨1⟩], .ofList [.array ⟨0⟩],
      .ofList [.array ⟨3⟩, .array ⟨3⟩], .ofList [.nil]]⟩
    h.Writes (.array ⟨0⟩) [] "[[...], [[...]], [[...]]]" ∧
      h.Encloses (.array ⟨0⟩) [2, 0] ⟨0⟩ ∧ h.Writes (.array ⟨0⟩) [2, 0] "[...]" ∧
      h.IsAcyclic ⟨2⟩ ∧ h.Spells true (.array ⟨2⟩) "[[nil], [nil]]" := by
  intro h
  obtain ⟨hroot, hall, hdots, -⟩ := render_marks_cycles h (.array ⟨0⟩)
  obtain ⟨-, -, -, hplain⟩ := render_marks_cycles h (.array ⟨2⟩)
  have hinside : h.Encloses (.array ⟨0⟩) [2, 0] ⟨0⟩ := ⟨[], List.nil_prefix, by simp, rfl⟩
  obtain ⟨s, hs, -⟩ := hall [2, 0] (.array ⟨0⟩) rfl
  have heq : s = "[...]" := (hdots [2, 0] ⟨0⟩ s rfl hs).1.mpr hinside
  -- what the last two arrays hold comes later in the heap
  have hlater : ∀ r t, 2 ≤ r.index → h.Has r t → r.index < t.index := by
    rintro ⟨_ | _ | _ | _ | n⟩ t hr ht
    · cases hr
    · cases hr with | step hr => cases hr
    · have hitems : Value.array t ∈ [.array ⟨3⟩, .array ⟨3⟩] := ht
      have heq : t = ⟨3⟩ := by simpa using hitems
      rw [heq]
      decide
    · have hitems : Value.array t ∈ [.nil] := ht
      simp at hitems
    · cases ht
  have hacyclic : h.IsAcyclic ⟨2⟩ := by
    intro s hs
    have hle : 2 ≤ s.index := by
      induction hs with
      | refl => exact Nat.le_refl 2
      | tail _ hst ih => exact ih.trans (hlater _ _ ih hst).le
    have hlt : ∀ t, Relation.TransGen h.Has s t → s.index < t.index := by
      intro t ht
      induction ht with
      | single hst => exact hlater _ _ hle hst
      | tail _ htu ih => exact ih.trans (hlater _ _ (hle.trans ih.le) htu)
    exact fun hss => Nat.lt_irrefl _ (hlt s hss)
  refine ⟨(hroot _).mpr (by decide +kernel), hinside, heq ▸ hs, hacyclic, ?_⟩
  refine (hplain fun r hr => ?_) _ |>.mpr (by decide +kernel)
  cases hr
  exact hacyclic

end Scriptlet.Heap
