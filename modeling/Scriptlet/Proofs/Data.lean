import Mathlib.Data.List.Nodup
import Mathlib.Data.List.Perm.Subperm
import Mathlib.Logic.Relation
import Scriptlet.Value.Rendering

/-!
Data, and how it is written.

An array that does not contain itself, and in which there are only numbers, truth values, `nil`,
texts and such arrays, shows a tree (`Data`). Rendering it writes down that tree and nothing else
(`Heap.render_eq_write`): the dots that stand for an array inside itself never appear, as the arrays
that are open are all different from the one that is written, and the bound on their number is not
reached.
-/
namespace Scriptlet

/-! ### Trees -/

/-- Data away from the heap: arrays are lists, and texts are their characters. -/
inductive Data where
  | nil
  | bool (b : Bool)
  | float (x : Float)
  | text (cs : List Char)
  | array (items : List Data)

namespace Data

mutual

/-- How data is written. -/
def write : Data → List Char
  | .nil => ['n', 'i', 'l']
  | .bool true => ['t', 'r', 'u', 'e']
  | .bool false => ['f', 'a', 'l', 's', 'e']
  | .float x => (Number.text x).toList
  | .text cs => Text.quoteChars cs
  | .array items => '[' :: (writeAll items ++ [']'])

def writeAll : List Data → List Char
  | [] => []
  | d :: ds => d.write ++ writeMore ds

/-- The items behind the first. -/
def writeMore : List Data → List Char
  | [] => []
  | d :: ds => ',' :: ' ' :: (d.write ++ writeMore ds)

end

theorem intercalate_cons_write (d : Data) (ds : List Data) :
    [',', ' '].intercalate ((d :: ds).map write) = d.write ++ writeMore ds := by
  induction ds generalizing d with
  | nil => simp [writeMore]
  | cons e ds ih =>
    rw [List.map_cons, List.map_cons, List.intercalate_cons_cons, ← List.map_cons, ih e, writeMore]
    simp

theorem intercalate_write (ds : List Data) :
    [',', ' '].intercalate (ds.map write) = writeAll ds := by
  cases ds with
  | nil => rfl
  | cons d ds => rw [intercalate_cons_write, writeAll]

end Data

/-! ### Values that show data -/

/-- A character that is written inside quotes as it is, or with one of the six short escapes. -/
def Text.IsPlain (c : Char) : Prop :=
  Text.quoteChar c = [c] ∨ ∃ e ∈ ['0', 't', 'r', 'n', '\\', '"'], Text.quoteChar c = ['\\', e]

mutual

/-- All numbers are finite, and all characters of texts are plain. -/
def Data.IsPlain : Data → Prop
  | .nil | .bool _ => True
  | .float x => Number.isFinite x = true
  | .text cs => ∀ c ∈ cs, Text.IsPlain c
  | .array items => Data.ArePlain items

def Data.ArePlain : List Data → Prop
  | [] => True
  | d :: ds => d.IsPlain ∧ Data.ArePlain ds

end

namespace Heap

variable (h : Heap)

mutual

/-- A value shows a tree. -/
inductive Shows : Value → Data → Prop
  | nil : Shows .nil .nil
  | bool {b : Bool} : Shows (.bool b) (.bool b)
  | float {x : Float} : Shows (.float x) (.float x)
  | text {r : TextRef} : Shows (.text r) (.text (h.text r).toList)
  | array {r : ArrayRef} {ds : List Data} (items : ShowsAll (h.items r).toList ds) :
    Shows (.array r) (.array ds)

inductive ShowsAll : List Value → List Data → Prop
  | nil : ShowsAll [] []
  | cons {v : Value} {vs : List Value} {d : Data} {ds : List Data} (first : Shows v d)
    (rest : ShowsAll vs ds) : ShowsAll (v :: vs) (d :: ds)

end

/-- One array is an item of another. -/
def Has (r s : ArrayRef) : Prop :=
  .array s ∈ (h.items r).toList

/-- An array that can be found inside another, or is that one. -/
def Reaches : ArrayRef → ArrayRef → Prop :=
  Relation.ReflTransGen h.Has

/-- No array that can be found inside this one is inside itself. -/
def IsAcyclic (r : ArrayRef) : Prop :=
  ∀ s, h.Reaches r s → ¬ Relation.TransGen h.Has s s

/-- Whether a value is data, apart from what an array holds: a finite number, a truth value, `nil`,
an array, or a text of plain characters. -/
def IsDatum : Value → Prop
  | .nil | .bool _ | .array _ => True
  | .float x => Number.isFinite x = true
  | .text r => ∀ c ∈ (h.text r).toList, Text.IsPlain c
  | .function _ | .native _ => False

/-- An array holds nothing but data, also inside the arrays in it. -/
def IsData (r : ArrayRef) : Prop :=
  ∀ s, h.Reaches r s → ∀ v ∈ (h.items s).toList, h.IsDatum v

variable {h}

/-! ### Rendering -/

/-- There are no more open arrays than there are arrays. -/
theorem length_le_of_nodup {rs : List ArrayRef} (hn : rs.Nodup)
    (hlt : ∀ r ∈ rs, r.index < h.arrays.size) : rs.length ≤ h.arrays.size := by
  have hinj : Function.Injective ArrayRef.index := by
    rintro ⟨i⟩ ⟨j⟩ rfl
    rfl
  have hsub : rs.map ArrayRef.index ⊆ List.range h.arrays.size := by
    intro i hi
    obtain ⟨r, hr, rfl⟩ := List.mem_map.mp hi
    exact List.mem_range.mpr (hlt r hr)
  have hle := (List.subperm_of_subset (hn.map hinj) hsub).length_le
  rwa [List.length_map, List.length_range] at hle

/-- An array with an item is there. -/
theorem lt_of_mem_items {r : ArrayRef} {v : Value} (hv : v ∈ (h.items r).toList) :
    r.index < h.arrays.size := by
  refine Nat.lt_of_not_le fun hle => ?_
  rw [items, Array.getD_eq_getD_getElem?, Array.getElem?_eq_none hle] at hv
  cases hv

/-- The bound on open arrays is not reached, so what is written does not depend on it. -/
theorem renderNested_fuel {fuel fuel' : Nat} {opened : List ArrayRef} (hn : opened.Nodup)
    (hlt : ∀ s ∈ opened, s.index < h.arrays.size) (hfuel : h.arrays.size < fuel + opened.length)
    (hfuel' : h.arrays.size < fuel' + opened.length) (v : Value) :
    h.renderNested fuel opened v = h.renderNested fuel' opened v := by
  have hle := length_le_of_nodup hn hlt
  induction fuel generalizing fuel' opened v with
  | zero => omega
  | succ fuel ih =>
    cases fuel' with
    | zero => omega
    | succ fuel' =>
      cases v with
      | array r =>
        rw [renderNested, renderNested]
        split
        · rfl
        · rename_i hnew
          have hitems : ∀ v ∈ (h.items r).toList,
              h.renderNested fuel (r :: opened) v = h.renderNested fuel' (r :: opened) v := by
            intro v hv
            have hn' := List.nodup_cons.mpr ⟨hnew, hn⟩
            have hlt' : ∀ s ∈ r :: opened, s.index < h.arrays.size :=
              List.forall_mem_cons.mpr ⟨lt_of_mem_items hv, hlt⟩
            refine ih hn' hlt' ?_ ?_ v (length_le_of_nodup hn' hlt')
            · rw [List.length_cons]
              omega
            · rw [List.length_cons]
              omega
          rw [List.map_congr_left hitems]
      | _ => simp only [renderNested]

/-- What is known of each value is known of a list of them. -/
theorem exists_showsAll {vs : List Value} {render : Value → String}
    (hvs : ∀ v ∈ vs, ∃ d, h.Shows v d ∧ d.IsPlain ∧ (render v).toList = d.write) :
    ∃ ds, h.ShowsAll vs ds ∧ Data.ArePlain ds ∧
      (vs.map render).map String.toList = ds.map Data.write := by
  induction vs with
  | nil => exact ⟨[], .nil, trivial, rfl⟩
  | cons v vs ih =>
    obtain ⟨d, hd, hplain, hwrite⟩ := hvs v List.mem_cons_self
    obtain ⟨ds, hds, hplains, hwrites⟩ := ih fun w hw => hvs w (List.mem_cons_of_mem v hw)
    refine ⟨d :: ds, .cons hd hds, ⟨hplain, hplains⟩, ?_⟩
    rw [List.map_cons, List.map_cons, List.map_cons, hwrite, hwrites]

section

variable {root : ArrayRef} (hacyclic : h.IsAcyclic root) (hdata : h.IsData root)

include hacyclic hdata

/-- What is written for a value inside open arrays. -/
theorem renderNested_eq_write (fuel : Nat) {opened : List ArrayRef} (hn : opened.Nodup)
    (hlt : ∀ s ∈ opened, s.index < h.arrays.size)
    (hfuel : fuel + opened.length = h.arrays.size + 1) {v : Value} (hv : h.IsDatum v)
    (harray : ∀ r, v = .array r →
      h.Reaches root r ∧ ∀ s ∈ opened, Relation.TransGen h.Has s r) :
    ∃ d, h.Shows v d ∧ d.IsPlain ∧ (h.renderNested fuel opened v).toList = d.write := by
  induction fuel generalizing opened v with
  | zero =>
    have hle := length_le_of_nodup hn hlt
    omega
  | succ fuel ih =>
    cases v with
    | nil =>
      refine ⟨.nil, .nil, trivial, ?_⟩
      rw [renderNested, Data.write]
      decide
    | bool b =>
      refine ⟨.bool b, .bool, trivial, ?_⟩
      cases b <;> rw [renderNested, Data.write] <;> decide
    | float x =>
      refine ⟨.float x, .float, hv, ?_⟩
      rw [renderNested, Data.write]
    | text r =>
      refine ⟨.text _, .text, hv, ?_⟩
      rw [renderNested, Data.write, Text.quote, String.toList_ofList, String.toList_ofList]
    | function f => exact hv.elim
    | native n => exact hv.elim
    | array r =>
      obtain ⟨hreach, hopened⟩ := harray r rfl
      have hnot : r ∉ opened := fun hr => hacyclic r hreach (hopened r hr)
      have hitem : ∀ v ∈ (h.items r).toList, ∃ d, h.Shows v d ∧ d.IsPlain ∧
          (h.renderNested fuel (r :: opened) v).toList = d.write := by
        intro v hmem
        apply ih (List.nodup_cons.mpr ⟨hnot, hn⟩)
        · intro s hs
          rcases List.mem_cons.mp hs with rfl | hs
          · exact lt_of_mem_items hmem
          · exact hlt s hs
        · rw [List.length_cons]
          omega
        · exact hdata r hreach v hmem
        · -- an array among the items is inside `r`, and inside all that is open around `r`
          rintro s rfl
          refine ⟨hreach.tail hmem, ?_⟩
          intro t ht
          rcases List.mem_cons.mp ht with rfl | ht
          · exact .single hmem
          · exact (hopened t ht).tail hmem
      obtain ⟨ds, hds, hplains, hwrites⟩ := exists_showsAll hitem
      refine ⟨.array ds, .array hds, hplains, ?_⟩
      rw [renderNested, if_neg hnot, String.toList_append, String.toList_append,
        String.toList_intercalate, hwrites, Data.write, ← Data.intercalate_write]
      rfl

/-- **An array of data is written as the tree that it shows.** -/
theorem render_eq_write :
    ∃ ds, h.Shows (.array root) (.array ds) ∧ Data.ArePlain ds ∧
      (h.render (.array root)).toList = Data.write (.array ds) := by
  obtain ⟨d, hshows, hplain, hwrite⟩ := renderNested_eq_write hacyclic hdata (h.arrays.size + 1)
    (List.nodup_nil : ([] : List ArrayRef).Nodup) nofun rfl (v := .array root) trivial (by
      rintro r heq
      cases heq
      exact ⟨.refl, nofun⟩)
  cases hshows with
  | array items => exact ⟨_, .array items, hplain, hwrite⟩

end

end Heap
end Scriptlet
