import Mathlib.Data.List.DropRight
import Mathlib.Data.Prod.Lex
import Scriptlet.Proofs.Scanning

/-!
Lines and columns.

The position of an offset is that of the end of the text before it (`Span.endPosition`), and this grows
with the text: a further line feed makes the line greater, and any other character leaves the line and
makes the column greater (`Span.endPosition_lt_append`). Of two offsets of one source that do not cut
through a character, the text before the smaller one is the beginning of the text before the other. So
positions are in the order of the offsets, and no two offsets share one.
-/
namespace Scriptlet.Span

open Token (byteSize byteSize_append byteSize_toList)

/-! ### The text before an offset -/

/-- An offset at which a text can be cut. -/
theorem charsBefore_byteSize (before after : List Char) :
    charsBefore (byteSize before) (before ++ after) = before := by
  induction before with
  | nil =>
    cases after with
    | nil => rfl
    | cons c cs => exact if_neg (Nat.not_le_of_lt c.utf8Size_pos)
  | cons c cs ih =>
    rw [List.cons_append, byteSize, charsBefore, if_pos (Nat.le_add_right _ _), Nat.add_sub_cancel_left,
      ih]

/-- An offset past the end. -/
theorem charsBefore_of_le {cs : List Char} {n : Nat} (h : byteSize cs ≤ n) : charsBefore n cs = cs := by
  induction cs generalizing n with
  | nil => rfl
  | cons c cs ih =>
    rw [byteSize] at h
    rw [charsBefore, if_pos (Nat.le_of_add_right_le h), ih (Nat.le_sub_of_add_le' h)]

/-! ### The position at the end of a text -/

/-- What follows the last line feed of a text, or the whole text if it has none. -/
def IsLastLine (line text : List Char) : Prop :=
  ∃ lines, text = lines ++ line ∧ '\n' ∉ line ∧ (lines = [] ∨ lines.getLast? = some '\n')

def lastLine (text : List Char) : List Char :=
  text.rtakeWhile (· != '\n')

theorem isLastLine_lastLine (text : List Char) : IsLastLine (lastLine text) text := by
  refine ⟨text.rdropWhile (· != '\n'), List.rdropWhile_append_rtakeWhile.symm, fun hmem => ?_, ?_⟩
  · exact absurd (List.mem_rtakeWhile_imp hmem) (by decide)
  · by_cases hlines : text.rdropWhile (· != '\n') = []
    · exact .inl hlines
    · have hlast := List.rdropWhile_last_not _ _ hlines
      rw [bne_iff_ne, ne_eq, not_not] at hlast
      rw [List.getLast?_eq_some_getLast hlines, hlast]
      exact .inr rfl

/-- The line and the column at the end of a text. -/
def endPosition (text : List Char) : Nat × Nat :=
  (text.count '\n' + 1, (lastLine text).length + 1)

theorem lineColumn_eq (source : List Char) (offset : Nat) :
    lineColumn source offset = endPosition (charsBefore offset source) := by
  rw [lineColumn, endPosition, lastLine, List.rtakeWhile, List.length_reverse]

/-- What is in the line of its end makes the line longer. -/
theorem lastLine_append {text more : List Char} (h : '\n' ∉ more) :
    lastLine (text ++ more) = lastLine text ++ more := by
  have hmore : ∀ c ∈ more.reverse, (c != '\n') = true := by
    intro c hc
    rw [bne_iff_ne]
    rintro rfl
    exact h (List.mem_reverse.mp hc)
  rw [lastLine, List.rtakeWhile, List.reverse_append, List.takeWhile_append_of_pos hmore,
    List.reverse_append, List.reverse_reverse]
  rfl

/-- **Positions grow with the text.** -/
theorem endPosition_lt_append (text : List Char) {more : List Char} (h : more ≠ []) :
    toLex (endPosition text) < toLex (endPosition (text ++ more)) := by
  rw [Prod.Lex.toLex_lt_toLex, endPosition, endPosition, List.count_append]
  by_cases hline : '\n' ∈ more
  · left
    have hcount : 0 < more.count '\n' := List.count_pos_iff.mpr hline
    dsimp only
    omega
  · right
    have hlength : 0 < more.length := List.length_pos_iff.mpr h
    rw [lastLine_append hline, List.count_eq_zero.mpr hline, List.length_append]
    dsimp only
    exact ⟨rfl, by omega⟩

/-! ### Positions in a source -/

variable {source : String}

/-- An offset that does not cut through a character has a text before it. -/
theorem exists_before {s : Span} (h : String.Pos.Raw.IsValid source ⟨s.start⟩) :
    ∃ before after, source = before ++ after ∧ before.utf8ByteSize = s.start ∧
      s.position source = endPosition before.toList := by
  obtain ⟨before, after, rfl, hstart⟩ := String.Pos.Raw.isValid_iff_exists_append.mp h
  have hsize : s.start = before.utf8ByteSize := congrArg String.Pos.Raw.byteIdx hstart
  refine ⟨before, after, rfl, hsize.symm, ?_⟩
  rw [position, lineColumn_eq, hsize, ← byteSize_toList, String.toList_append, charsBefore_byteSize]

theorem position_lt {s t : Span} (hs : String.Pos.Raw.IsValid source ⟨s.start⟩)
    (ht : String.Pos.Raw.IsValid source ⟨t.start⟩) (h : s.start < t.start) :
    toLex (s.position source) < toLex (t.position source) := by
  obtain ⟨before, after, heq, hsize, hposition⟩ := exists_before hs
  obtain ⟨before', after', heq', hsize', hposition'⟩ := exists_before ht
  rw [hposition, hposition']
  rw [← byteSize_toList] at hsize hsize'
  have hlists : before.toList ++ after.toList = before'.toList ++ after'.toList := by
    rw [← String.toList_append, ← String.toList_append, ← heq, heq']
  rcases List.append_eq_append_iff.mp hlists with ⟨more, hmore, -⟩ | ⟨more, hmore, -⟩
  · rw [hmore]
    refine endPosition_lt_append before.toList ?_
    rintro rfl
    rw [List.append_nil] at hmore
    rw [← hsize, ← hsize', hmore] at h
    exact Nat.lt_irrefl _ h
  · -- the text before the smaller offset would not be the smaller one
    rw [hmore, byteSize_append] at hsize
    omega

/-- **Positions identify offsets.** At an offset that does not cut through a character, the line is one
more than the number of line feeds before it, and the column one more than the number of characters
since the last of these. Positions are in the order of the offsets, so different offsets have different
ones. An offset past the end has the position of the end. -/
theorem position_identifies (source : String) :
    (∀ s : Span, String.Pos.Raw.IsValid source ⟨s.start⟩ →
      ∃ before after line, source = before ++ after ∧ before.utf8ByteSize = s.start ∧
        IsLastLine line before.toList ∧
        s.position source = (before.toList.count '\n' + 1, line.length + 1)) ∧
    (∀ s t : Span, String.Pos.Raw.IsValid source ⟨s.start⟩ → String.Pos.Raw.IsValid source ⟨t.start⟩ →
      (toLex (s.position source) < toLex (t.position source) ↔ s.start < t.start) ∧
      (s.position source = t.position source ↔ s.start = t.start)) ∧
    ∀ s : Span, source.utf8ByteSize ≤ s.start →
      s.position source = position ⟨source.utf8ByteSize, s.stop⟩ source := by
  refine ⟨fun s hs => ?_, fun s t hs ht => ?_, fun s hs => ?_⟩
  · obtain ⟨before, after, heq, hsize, hposition⟩ := exists_before hs
    exact ⟨before, after, lastLine before.toList, heq, hsize, isLastLine_lastLine _, hposition⟩
  · rcases Nat.lt_trichotomy s.start t.start with hlt | heq | hgt
    · have hposition := position_lt hs ht hlt
      exact ⟨iff_of_true hposition hlt,
        iff_of_false (fun h => (h ▸ hposition).false) (Nat.ne_of_lt hlt)⟩
    · have hposition : s.position source = t.position source := by rw [position, position, heq]
      rw [hposition, heq]
      exact ⟨iff_of_false (lt_irrefl _) (Nat.lt_irrefl _), iff_of_true rfl rfl⟩
    · have hposition := position_lt ht hs hgt
      exact ⟨iff_of_false hposition.asymm (Nat.lt_asymm hgt),
        iff_of_false (fun h => (h ▸ hposition).false) (Nat.ne_of_gt hgt)⟩
  · rw [position, position, lineColumn_eq, lineColumn_eq, ← byteSize_toList,
      charsBefore_of_le (Nat.le_refl _), charsBefore_of_le (by rwa [byteSize_toList])]

/-- Characters of two bytes, an empty line, and an offset past the line feed at the end. -/
theorem position_identifies_lines :
    let source := "é\n\nλx\n"
    String.Pos.Raw.IsValid source ⟨4⟩ ∧ String.Pos.Raw.IsValid source ⟨6⟩ ∧
      position ⟨4, 6⟩ source = (3, 1) ∧ position ⟨6, 7⟩ source = (3, 2) ∧
      toLex (position ⟨4, 6⟩ source) < toLex (position ⟨6, 7⟩ source) ∧
      position ⟨50, 51⟩ source = (4, 1) := by
  intro source
  have hvalid : String.Pos.Raw.IsValid source ⟨4⟩ :=
    String.Pos.Raw.isValid_iff_exists_append.mpr ⟨"é\n\n", "λx\n", by decide, by decide⟩
  have hvalid' : String.Pos.Raw.IsValid source ⟨6⟩ :=
    String.Pos.Raw.isValid_iff_exists_append.mpr ⟨"é\n\nλ", "x\n", by decide, by decide⟩
  obtain ⟨-, horder, hend⟩ := position_identifies source
  refine ⟨hvalid, hvalid', by decide +kernel, by decide +kernel, ?_, ?_⟩
  · exact (horder ⟨4, 6⟩ ⟨6, 7⟩ hvalid hvalid').1.mpr (by decide)
  · exact (hend ⟨50, 51⟩ (by decide)).trans (by decide +kernel)

end Scriptlet.Span
