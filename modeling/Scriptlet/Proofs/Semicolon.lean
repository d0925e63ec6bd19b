import Scriptlet.Proofs.Pointing
import Scriptlet.Session

/-!
A semicolon behind a source.

What is put behind a source may change how it splits into tokens. A semicolon does not: no longer match
takes it in but a comment (`Pattern.of_semicolon`). So it is a token of its own behind those of the
source, or the source ends in a comment and has the same tokens with it and without it
(`Splits.of_semicolon`). Hence an expression that is read with the semicolon has its places in the
source itself (`Expr.ofSource?_alike`).
-/
namespace Scriptlet

/-! ### Matches -/

namespace Pattern

theorem semicolon_not_mem_number {w : List Char} (hw : w ∈ number.language) : ';' ∉ w := by
  have hdigits : ∀ {ds}, ds ∈ digits → ';' ∉ ds := by
    intro ds hds hmem
    exact absurd ((mem_digits.mp hds).2 _ hmem) (by decide)
  obtain ⟨_, ⟨ds, hds, f, hf, rfl⟩, pw, hpw, rfl⟩ := hw
  have hfraction : ';' ∉ f := by
    rcases hf with rfl | hf
    · exact List.not_mem_nil
    · obtain ⟨fs, hfs, rfl⟩ := mem_fraction.mp hf
      exact List.not_mem_cons_of_ne_of_not_mem (by decide) (hdigits hfs)
  have hpower : ';' ∉ pw := by
    rcases hpw with rfl | hpw
    · exact List.not_mem_nil
    · obtain ⟨e, v, ps, he, hv, hps, rfl⟩ := mem_power.mp hpw
      have hsign : ';' ∉ v := by
        rcases hv with rfl | ⟨s, hs, rfl⟩
        · exact List.not_mem_nil
        · rintro (_ | ⟨_, ⟨⟩⟩)
          exact absurd hs (by decide)
      intro hmem
      rcases List.mem_cons.mp hmem with rfl | hmem
      · exact absurd he (by decide)
      · exact (List.mem_append.mp hmem).elim hsign (hdigits hps)
  intro hmem
  rcases List.mem_append.mp hmem with hmem | hmem
  · exact (List.mem_append.mp hmem).elim (hdigits hds) hfraction
  · exact hpower hmem

theorem semicolon_not_mem_name {w : List Char} (hw : w ∈ name.language) : ';' ∉ w := by
  obtain ⟨c, v, rfl, hc, hv⟩ := mem_name.mp hw
  intro hmem
  rcases List.mem_cons.mp hmem with rfl | hmem
  · exact absurd hc (by decide)
  · exact absurd (hv _ hmem) (by decide)

/-- A match that ends in a semicolon is this symbol, or a comment that is one without it too. -/
theorem of_semicolon {P : Pattern} {chars : List Char} (h : chars ++ [';'] ∈ P.language) :
    P = symbol .semicolon ∧ chars = [] ∨ P = comment ∧ chars ∈ comment.language := by
  have hmem : ';' ∈ chars ++ [';'] := List.mem_append_right chars (List.mem_singleton_self ';')
  cases P with
  | blank => exact absurd ((mem_blank.mp h).2 _ hmem) (by decide)
  | keyword k => exact absurd hmem (semicolon_not_mem_name (mem_name_of_keyword h))
  | number => exact absurd hmem (semicolon_not_mem_number h)
  | name => exact absurd hmem (semicolon_not_mem_name h)
  | literal =>
    obtain ⟨body, -, heq⟩ := mem_literal.mp h
    rw [← List.cons_append] at heq
    exact absurd (List.append_inj_right' heq rfl) (by decide)
  | symbol s =>
    have htext : chars ++ [';'] = s.text.toList := h
    have hlast : s.text.toList.getLast? = some ';' := by rw [← htext, List.getLast?_concat]
    have hs : s = .semicolon := by
      revert hlast
      cases s <;> decide
    subst hs
    have hsize := congrArg List.length htext
    rw [List.length_append] at hsize
    exact .inl ⟨rfl, List.length_eq_zero_iff.mp (Nat.succ.inj hsize)⟩
  | comment =>
    obtain ⟨v, heq, hv⟩ := mem_comment.mp h
    refine .inr ⟨rfl, mem_comment.mpr ?_⟩
    rcases chars with _ | ⟨c, _ | ⟨d, v'⟩⟩
    · cases heq
    · cases heq
    · cases heq
      exact ⟨v', rfl, fun e he => hv e (List.mem_append_left _ he)⟩

variable {chars rest : List Char} {P : Pattern}

/-- The longest match stays the longest when less follows it. -/
theorem Longest.of_append {more : List Char} (h : Longest (chars ++ (rest ++ more)) chars P) :
    Longest (chars ++ rest) chars P where
  starts := List.prefix_append chars rest
  mem := h.mem
  longest Q w hw hwt := by
    refine h.longest Q w hw (hwt.trans ?_)
    rw [← List.append_assoc]
    exact List.prefix_append (chars ++ rest) more
  priority := h.priority

/-- A comment that goes up to the end is the longest match. -/
theorem longest_comment_whole (h : chars ∈ comment.language) :
    Longest (chars ++ []) chars comment where
  starts := List.prefix_append chars []
  mem := h
  longest Q w _ hwt := by
    rw [List.append_nil] at hwt
    exact hwt.length_le
  priority k hk := by
    cases initial_unique h hk

end Pattern

/-! ### Tokens -/

theorem Splits.eq_nil {offset : Nat} {ts : List (Located Token)} {last : List Char}
    (h : Splits offset [] ts last) : ts = [] := by
  generalize htext : [] = text at h
  cases h with
  | stop => rfl
  | skip longest _ _ => exact absurd (List.append_eq_nil_iff.mp htext.symm).1 longest.ne_nil
  | token longest _ _ => exact absurd (List.append_eq_nil_iff.mp htext.symm).1 longest.ne_nil

/-- The last character of a text belongs to its first part, if nothing follows that part. -/
theorem concat_eq_append_cases {text chars rest : List Char} {c : Char}
    (h : text ++ [c] = chars ++ rest) :
    rest = [] ∧ chars = text ++ [c] ∨ ∃ rest', rest = rest' ++ [c] ∧ text = chars ++ rest' := by
  rcases List.eq_nil_or_concat rest with rfl | ⟨rest', d, rfl⟩
  · rw [List.append_nil] at h
    exact .inl ⟨rfl, h.symm⟩
  · rw [List.concat_eq_append, ← List.append_assoc] at h
    obtain ⟨htext, hlast⟩ := List.append_inj' h rfl
    cases hlast
    exact .inr ⟨rest', List.concat_eq_append, htext⟩

/-- A semicolon behind a text is a token of its own, or belongs to the comment that the text ends in;
then it changes nothing. -/
theorem Splits.of_semicolon {offset : Nat} {text : List Char} {us : List (Located Token)}
    (h : Splits offset (text ++ [';']) us []) :
    (∃ ts p, us = ts ++ [⟨.symbol .semicolon, p⟩] ∧ Splits offset text ts []) ∨
      Splits offset text us [] := by
  generalize hwhole : text ++ [';'] = whole at h
  generalize hlast : [] = last at h
  induction h generalizing text with
  | stop =>
    subst hlast
    exact absurd hwhole (by simp)
  | @skip offset _ _ _ _ _ longest means more ih =>
    rcases concat_eq_append_cases hwhole with ⟨rfl, rfl⟩ | ⟨rest, rfl, rfl⟩
    · rcases Pattern.of_semicolon longest.mem with ⟨rfl, -⟩ | ⟨rfl, hcomment⟩
      · cases means
      · cases more.eq_nil
        subst hlast
        have hskip : Splits offset (text ++ []) [] [] :=
          .skip (Pattern.longest_comment_whole hcomment) .comment .stop
        rw [List.append_nil] at hskip
        exact .inr hskip
    · rcases ih rfl hlast with ⟨ts, p, rfl, hsplits⟩ | hsplits
      · exact .inl ⟨ts, p, rfl, .skip longest.of_append means hsplits⟩
      · exact .inr (.skip longest.of_append means hsplits)
  | token longest means more ih =>
    rcases concat_eq_append_cases hwhole with ⟨rfl, rfl⟩ | ⟨rest, rfl, rfl⟩
    · rcases Pattern.of_semicolon longest.mem with ⟨rfl, rfl⟩ | ⟨rfl, -⟩
      · cases means
        cases more.eq_nil
        subst hlast
        exact .inl ⟨[], _, rfl, .stop⟩
      · cases means
    · rcases ih rfl hlast with ⟨ts, p, rfl, hsplits⟩ | hsplits
      · exact .inl ⟨_ :: ts, p, rfl, .token longest.of_append means hsplits⟩
      · exact .inr (.token longest.of_append means hsplits)

/-! ### Expressions -/

/-- A single expression statement that ends in a semicolon is an expression before it. -/
theorem Derives.of_semicolon {ts : List (Located Token)} {p span : Span} {e : Expr Unit}
    (h : Derives .statements (ts ++ [⟨.symbol .semicolon, p⟩]) [.expr span e]) :
    Derives (.expr .expression) ts e := by
  generalize hwhole : ts ++ [⟨.symbol .semicolon, p⟩] = ws at h
  cases h with
  | next first rest =>
    cases rest
    rw [List.append_nil] at hwhole
    cases first with
    | cond h => cases h
    | expr he split =>
      rw [split] at hwhole
      exact List.append_inj_left' hwhole rfl ▸ he
    | define params body split =>
      -- it ends in a brace
      cases body with
      | block _ =>
        have hlast := congrArg List.getLast? (hwhole.trans split)
        simp [List.getLast?_cons] at hlast

/-- An expression that is read with a semicolon behind it is read from tokens of the source: it is all
of them, or the source is a program already, and ends in a comment. -/
theorem Expr.ofSource?_derives {source : String} {e : Expr Unit}
    (h : Expr.ofSource? source = some e) :
    ∃ ts, tokenize source = .ok ts ∧
      (Derives (.expr .expression) ts e ∨ ∃ span, Derives .statements ts [.expr span e]) := by
  unfold Expr.ofSource? at h
  split at h
  · rename_i p hp
    obtain ⟨us, hus, hderives⟩ := Program.ofSource_eq_ok_derives hp
    obtain ⟨span, hbody⟩ : ∃ span, p.body = [.expr span e] := by
      unfold Program.expression? at h
      split at h
      · rename_i span e' hbody
        cases h
        exact ⟨span, hbody⟩
      · cases h
    rw [hbody] at hderives
    have hsplits : Splits 0 (source.toList ++ [';']) us [] := by
      have hsplits := tokenize_eq_ok.mp hus
      rwa [String.toList_append] at hsplits
    rcases hsplits.of_semicolon with ⟨ts, q, rfl, hts⟩ | hts
    · exact ⟨ts, tokenize_eq_ok.mpr hts, .inl hderives.of_semicolon⟩
    · exact ⟨us, tokenize_eq_ok.mpr hts, .inr ⟨span, hderives⟩⟩
  · cases h

/-- An expression that is read with a semicolon behind it has its places in the source. -/
theorem Expr.ofSource?_alike {source : String} {e : Expr Unit}
    (h : Expr.ofSource? source = some e) :
    ∃ (ts : List (Located Token)) (horder : InOrder ts), tokenize source = .ok ts ∧
      e.Alike horder.likeness .top e := by
  obtain ⟨ts, hts, hderives⟩ := Expr.ofSource?_derives h
  have horder := (tokenize_eq_ok.mp hts).tiled.inOrder
  refine ⟨ts, horder, hts, ?_⟩
  rcases hderives with hexpr | ⟨span, hstatement⟩
  · exact hexpr.alike_stretches horder List.infix_rfl .top
  · cases hstatement.alike_stretches horder List.infix_rfl .top with
    | cons hfirst _ =>
      cases hfirst with
      | expr _ he => exact he
    | ends hloose _ _ => exact hloose.elim

end Scriptlet
