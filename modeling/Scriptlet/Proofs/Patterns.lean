import Mathlib.Computability.Language
import Scriptlet.Proofs.Scanning

/-!
The patterns of lexemes, and the longest match.

`Pattern.language` declares what each kind of lexeme looks like, as a regular language. Of all
patterns that match at the start of a text the longest match counts, and a keyword counts before a
name of the same length: this is `Pattern.Longest`. `Lexeme.munch` takes that match
(`Lexeme.munch_longest`), and takes nothing only where no pattern matches (`Lexeme.munch_eq_none`).

The first character of a match tells what matches (`Pattern.initial_eq`), but for a slash, which may
be a symbol or open a comment, and for a word. So it remains to compare, for each kind of lexeme,
what is taken with the other words of its own language: runs of characters of one class
(`Pattern.run_le`), numbers, whose fraction and power may fail after their first characters
(`Pattern.number_le`), literals, which match in one way only (`Pattern.literalTail_eq`), and symbols
of one or two characters (`Pattern.symbol?_le`).
-/
namespace Scriptlet

open scoped Computability

/-- The kinds of lexemes as they are declared, each keyword and symbol by itself. -/
inductive Pattern where
  | blank
  | comment
  | keyword (k : Keyword)
  | number
  | literal
  | name
  | symbol (s : Symbol)

namespace Pattern

/-! ### The languages -/

/-- One character of a class. -/
def one (p : Char → Bool) : Language Char :=
  {w | ∃ c, p c = true ∧ w = [c]}

/-- This text only. -/
def just (s : String) : Language Char :=
  {w | w = s.toList}

/-- One word of the language, or several in a row. -/
def many (l : Language Char) : Language Char :=
  l * l∗

/-- A word of the language, or nothing. -/
def optional (l : Language Char) : Language Char :=
  1 + l

def digits : Language Char :=
  many (one Char.isDigit)

def fraction : Language Char :=
  just "." * digits

def power : Language Char :=
  one (fun c => c == 'e' || c == 'E') * optional (one fun c => c == '+' || c == '-') * digits

/-- A character of a text literal as it is written: a plain one, or a backslash and any character of
the same line. -/
def piece : Language Char :=
  one (fun c => c != '"' && c != '\\') + just "\\" * one (· != '\n')

def language : Pattern → Language Char
  | blank => many (one fun c => c == ' ' || c == '\t' || c == '\n' || c == '\r')
  | comment => just "//" * (one (· != '\n'))∗
  | keyword k => just k.text
  | number => digits * optional fraction * optional power
  | literal => just "\"" * piece∗ * just "\""
  | name => one (fun c => c.isAlpha || c == '_') * (one fun c => c.isAlphanum || c == '_')∗
  | symbol s => just s.text

/-- The longest start of a text that matches a pattern. A keyword counts before a name. -/
structure Longest (text chars : List Char) (P : Pattern) : Prop where
  starts : chars <+: text
  mem : chars ∈ P.language
  longest : ∀ (Q : Pattern), ∀ w ∈ Q.language, w <+: text → w.length ≤ chars.length
  priority : ∀ k, chars ∈ (keyword k).language → P = keyword k

variable {p : Char → Bool} {w cs : List Char}

theorem mem_kstar_one : w ∈ (one p)∗ ↔ ∀ c ∈ w, p c = true := by
  constructor
  · rintro ⟨L, rfl, hL⟩ c hc
    obtain ⟨y, hy, hcy⟩ := List.mem_flatten.mp hc
    obtain ⟨d, hd, rfl⟩ := hL y hy
    rwa [List.mem_singleton.mp hcy]
  · intro h
    refine ⟨w.map ([·]), ?_, ?_⟩
    · induction w with
      | nil => rfl
      | cons c cs ih =>
        rw [List.map_cons, List.flatten_cons, ← ih fun d hd => h d (List.mem_cons_of_mem c hd)]
        rfl
    · intro y hy
      obtain ⟨c, hc, rfl⟩ := List.mem_map.mp hy
      exact ⟨c, h c hc, rfl⟩

theorem mem_one_mul {l : Language Char} :
    w ∈ one p * l ↔ ∃ c v, w = c :: v ∧ p c = true ∧ v ∈ l := by
  constructor
  · rintro ⟨_, ⟨c, hc, rfl⟩, v, hv, rfl⟩
    exact ⟨c, v, rfl, hc, hv⟩
  · rintro ⟨c, v, rfl, hc, hv⟩
    exact ⟨[c], ⟨c, hc, rfl⟩, v, hv, rfl⟩

theorem mem_one_mul_kstar {q : Char → Bool} :
    w ∈ one p * (one q)∗ ↔ ∃ c v, w = c :: v ∧ p c = true ∧ ∀ d ∈ v, q d = true := by
  simp only [mem_one_mul, mem_kstar_one]

theorem mem_just_mul {s : String} {l : Language Char} :
    w ∈ just s * l ↔ ∃ v ∈ l, w = s.toList ++ v := by
  constructor
  · rintro ⟨_, rfl, v, hv, rfl⟩
    exact ⟨v, hv, rfl⟩
  · rintro ⟨v, hv, rfl⟩
    exact ⟨_, rfl, v, hv, rfl⟩

theorem mem_many_one : w ∈ many (one p) ↔ w ≠ [] ∧ ∀ c ∈ w, p c = true := by
  rw [many, mem_one_mul_kstar]
  constructor
  · rintro ⟨c, v, rfl, hc, hv⟩
    exact ⟨List.cons_ne_nil c v, List.forall_mem_cons.mpr ⟨hc, hv⟩⟩
  · rintro ⟨hne, hw⟩
    obtain ⟨c, v, rfl⟩ := List.exists_cons_of_ne_nil hne
    obtain ⟨hc, hv⟩ := List.forall_mem_cons.mp hw
    exact ⟨c, v, rfl, hc, hv⟩

theorem mem_digits : w ∈ digits ↔ w ≠ [] ∧ ∀ c ∈ w, c.isDigit = true :=
  mem_many_one

theorem mem_fraction : w ∈ fraction ↔ ∃ ds ∈ digits, w = '.' :: ds :=
  mem_just_mul

theorem mem_power : w ∈ power ↔ ∃ e v ds, (e == 'e' || e == 'E') = true ∧
    (v = [] ∨ ∃ s, (s == '+' || s == '-') = true ∧ v = [s]) ∧ ds ∈ digits ∧ w = e :: (v ++ ds) := by
  rw [power, mul_assoc, mem_one_mul]
  constructor
  · rintro ⟨e, _, rfl, he, v, hv, ds, hds, rfl⟩
    exact ⟨e, v, ds, he, hv, hds, rfl⟩
  · rintro ⟨e, v, ds, he, hv, hds, rfl⟩
    exact ⟨e, _, rfl, he, v, hv, ds, hds, rfl⟩

/-! ### Runs of one class -/

section

variable {ds text : List Char}

theorem run_le (hds : ∀ c ∈ ds, p c = true) (h : ds <+: text) :
    ds.length ≤ (text.takeWhile p).length := by
  obtain ⟨rest, rfl⟩ := h
  rw [List.takeWhile_append_of_pos hds, List.length_append]
  exact Nat.le_add_right _ _

/-- A run is all there is of it, if a character that is not of the class follows. -/
theorem run_eq {c : Char} {tail : List Char} (hds : ∀ c ∈ ds, p c = true) (hc : p c = false)
    (h : ds ++ c :: tail <+: text) :
    text.takeWhile p = ds ∧ c :: tail <+: text.dropWhile p := by
  obtain ⟨rest, rfl⟩ := h
  rw [List.append_assoc, List.takeWhile_append_of_pos hds, List.dropWhile_append_of_pos hds,
    List.cons_append, List.takeWhile_cons, List.dropWhile_cons, hc]
  exact ⟨List.append_nil ds, rest, rfl⟩

theorem run_cases {tail : List Char} (hds : ∀ c ∈ ds, p c = true)
    (htail : ∀ c ∈ tail.head?, p c = false) (h : ds ++ tail <+: text) :
    tail = [] ∧ ds.length ≤ (text.takeWhile p).length ∨
      text.takeWhile p = ds ∧ tail <+: text.dropWhile p := by
  cases tail with
  | nil =>
    rw [List.append_nil] at h
    exact .inl ⟨rfl, run_le hds h⟩
  | cons c tail => exact .inr (run_eq hds (htail c rfl) h)

theorem takeWhile_mem (p : Char → Bool) (cs : List Char) : ∀ c ∈ cs.takeWhile p, p c = true :=
  List.all_eq_true.mp List.all_takeWhile

end

/-! ### Numbers -/

theorem fraction_mem (cs : List Char) : (Lexeme.fraction cs).1 ∈ optional fraction := by
  unfold Lexeme.fraction
  split
  · rename_i c cs
    split
    · rename_i hc
      refine .inr (mem_fraction.mpr ⟨_, mem_digits.mpr ⟨List.cons_ne_nil _ _, ?_⟩, rfl⟩)
      exact List.forall_mem_cons.mpr ⟨hc, takeWhile_mem _ cs⟩
    · exact .inl rfl
  · exact .inl rfl

theorem power_mem (cs : List Char) : (Lexeme.power cs).1 ∈ optional power := by
  unfold Lexeme.power
  split
  · rename_i e s c cs
    split
    · rename_i h
      simp only [Bool.and_eq_true] at h
      refine .inr (mem_power.mpr ⟨e, [s], c :: cs.takeWhile Char.isDigit, h.1.1,
        .inr ⟨s, h.1.2, rfl⟩, mem_digits.mpr ⟨List.cons_ne_nil _ _, ?_⟩, rfl⟩)
      exact List.forall_mem_cons.mpr ⟨h.2, takeWhile_mem _ cs⟩
    · split
      · rename_i h
        simp only [Bool.and_eq_true] at h
        refine .inr (mem_power.mpr ⟨e, [], s :: (c :: cs).takeWhile Char.isDigit, h.1, .inl rfl,
          mem_digits.mpr ⟨List.cons_ne_nil _ _, ?_⟩, rfl⟩)
        exact List.forall_mem_cons.mpr ⟨h.2, takeWhile_mem _ (c :: cs)⟩
      · exact .inl rfl
  · rename_i e s
    split
    · rename_i h
      simp only [Bool.and_eq_true] at h
      refine .inr (mem_power.mpr ⟨e, [], [s], h.1, .inl rfl,
        mem_digits.mpr ⟨List.cons_ne_nil _ _, ?_⟩, rfl⟩)
      exact List.forall_mem_cons.mpr ⟨h.2, nofun⟩
    · exact .inl rfl
  · exact .inl rfl

theorem not_isDigit_of_power {e : Char} (he : (e == 'e' || e == 'E') = true) :
    e.isDigit = false := by
  rw [Bool.or_eq_true, beq_iff_eq, beq_iff_eq] at he
  rcases he with rfl | rfl <;> decide

theorem not_isDigit_of_sign {s : Char} (hs : (s == '+' || s == '-') = true) :
    s.isDigit = false := by
  rw [Bool.or_eq_true, beq_iff_eq, beq_iff_eq] at hs
  rcases hs with rfl | rfl <;> decide

section

variable {f pw : List Char}

theorem head_power (hpw : pw ∈ optional power) : ∀ c ∈ pw.head?, c.isDigit = false ∧ c ≠ '.' := by
  rintro c hc
  rcases hpw with rfl | hpw
  · cases hc
  · obtain ⟨e, v, ds, he, -, -, rfl⟩ := mem_power.mp hpw
    cases hc
    refine ⟨not_isDigit_of_power he, ?_⟩
    rintro rfl
    exact absurd he (by decide)

theorem head_fraction (hf : f ∈ optional fraction) (hpw : pw ∈ optional power) :
    ∀ c ∈ (f ++ pw).head?, c.isDigit = false := by
  rcases hf with rfl | hf
  · exact fun c hc => (head_power hpw c hc).1
  · obtain ⟨ds, -, rfl⟩ := mem_fraction.mp hf
    rintro _ ⟨⟩
    decide

theorem power_le (hpw : pw ∈ optional power) (h : pw <+: cs) :
    pw.length ≤ (Lexeme.power cs).1.length := by
  rcases hpw with rfl | hpw
  · exact Nat.zero_le _
  obtain ⟨e, v, ds, he, hv, hds, rfl⟩ := mem_power.mp hpw
  obtain ⟨hne, hds⟩ := mem_digits.mp hds
  obtain ⟨d, ds, rfl⟩ := List.exists_cons_of_ne_nil hne
  obtain ⟨hd, hds⟩ := List.forall_mem_cons.mp hds
  obtain ⟨rest, rfl⟩ := h
  have hrun : ds.length ≤ ((ds ++ rest).takeWhile Char.isDigit).length :=
    run_le hds (List.prefix_append ds rest)
  rcases hv with rfl | ⟨s, hs, rfl⟩
  · have hsign : (d == '+' || d == '-') = false :=
      Bool.eq_false_iff.mpr fun hs => by simp [not_isDigit_of_sign hs] at hd
    simp only [List.cons_append, List.nil_append]
    generalize ds ++ rest = cs at hrun ⊢
    cases cs with
    | nil =>
      rw [Lexeme.power, he, hd]
      exact Nat.add_le_add_right hrun 2
    | cons c cs =>
      rw [Lexeme.power, he, hd, hsign]
      exact Nat.add_le_add_right hrun 2
  · simp only [List.cons_append, List.nil_append]
    rw [Lexeme.power, he, hd, hs]
    exact Nat.add_le_add_right hrun 3

theorem fraction_le (hf : f ∈ optional fraction) (hpw : pw ∈ optional power) (h : f ++ pw <+: cs) :
    (f ++ pw).length ≤
      (Lexeme.fraction cs).1.length + (Lexeme.power (Lexeme.fraction cs).2).1.length := by
  rcases hf with rfl | hf
  · cases pw with
    | nil => exact Nat.zero_le _
    | cons c pw =>
      obtain ⟨rest, rfl⟩ := h
      rw [List.nil_append, List.cons_append, Lexeme.fraction_of_ne (head_power hpw c rfl).2]
      exact Nat.le_add_left_of_le (power_le hpw (List.prefix_append _ rest))
  · obtain ⟨ds, hds, rfl⟩ := mem_fraction.mp hf
    obtain ⟨hne, hds⟩ := mem_digits.mp hds
    obtain ⟨d, ds, rfl⟩ := List.exists_cons_of_ne_nil hne
    obtain ⟨hd, hds⟩ := List.forall_mem_cons.mp hds
    obtain ⟨rest, rfl⟩ := h
    have htext : '.' :: d :: ds ++ pw ++ rest = '.' :: d :: (ds ++ pw ++ rest) := rfl
    rw [htext, Lexeme.fraction, if_pos hd]
    dsimp only
    -- without a power more digits may follow, with one these are all
    rcases run_cases hds (fun c hc => (head_power hpw c hc).1) (List.prefix_append _ rest)
      with ⟨rfl, hle⟩ | ⟨htake, htail⟩
    · simp only [List.append_nil, List.length_cons] at hle ⊢
      omega
    · have hle := power_le hpw htail
      rw [htake]
      simp only [List.length_append, List.length_cons]
      omega

/-- What is taken of a number is as long as any number that stands there. -/
theorem number_le {c : Char} (hw : w ∈ number.language) (h : w <+: c :: cs) :
    w.length ≤ (c :: (Lexeme.numberTail cs).1).length := by
  obtain ⟨_, ⟨ds, hds, f, hf, rfl⟩, pw, hpw, rfl⟩ := hw
  obtain ⟨hne, hds⟩ := mem_digits.mp hds
  obtain ⟨d, ds, rfl⟩ := List.exists_cons_of_ne_nil hne
  obtain ⟨-, hds⟩ := List.forall_mem_cons.mp hds
  dsimp only [List.append_eq] at h ⊢
  rw [List.cons_append, List.cons_append, List.append_assoc] at h ⊢
  obtain ⟨-, h⟩ := List.cons_prefix_cons.mp h
  simp only [Lexeme.numberTail, List.length_cons, List.length_append]
  rcases run_cases hds (head_fraction hf hpw) h with ⟨hnil, hle⟩ | ⟨htake, htail⟩
  · obtain ⟨rfl, rfl⟩ := List.append_eq_nil_iff.mp hnil
    simp only [List.length_nil]
    omega
  · have hle := fraction_le hf hpw htail
    rw [htake]
    rw [List.length_append] at hle
    omega

end

theorem numberTail_mem {c : Char} (hc : c.isDigit = true) (cs : List Char) :
    c :: (Lexeme.numberTail cs).1 ∈ number.language := by
  refine ⟨_, ⟨c :: cs.takeWhile Char.isDigit, mem_digits.mpr ⟨List.cons_ne_nil _ _, ?_⟩,
    _, fraction_mem _, rfl⟩, _, power_mem _, rfl⟩
  exact List.forall_mem_cons.mpr ⟨hc, takeWhile_mem _ cs⟩

/-! ### Literals -/

theorem literalTail_eq {body : List Char} (hbody : body ∈ piece∗) (rest : List Char) :
    Lexeme.literalTail (body ++ '"' :: rest) = (body ++ ['"'], rest, true) := by
  obtain ⟨L, rfl, hL⟩ := hbody
  induction L with
  | nil => rfl
  | cons y L ih =>
    obtain ⟨hy, hL⟩ := List.forall_mem_cons.mp hL
    have ih := ih hL
    rw [List.flatten_cons, List.append_assoc]
    rcases hy with ⟨c, hc, rfl⟩ | hy
    · rw [Bool.and_eq_true, bne_iff_ne, bne_iff_ne] at hc
      rw [List.singleton_append, Lexeme.literalTail, ih]
      · rfl
      · exact hc.1
      · exact fun heq _ => hc.2 heq
      · exact fun _ _ heq _ => hc.2 heq
    · obtain ⟨_, ⟨c, hc, rfl⟩, rfl⟩ := mem_just_mul.mp hy
      have hesc : ("\\".toList ++ [c]) ++ (L.flatten ++ '"' :: rest) =
          '\\' :: c :: (L.flatten ++ '"' :: rest) := rfl
      rw [hesc, Lexeme.literalTail, if_neg (bne_iff_ne.mp hc), ih]
      rfl

theorem literalTail_mem {taken rest : List Char} (h : Lexeme.literalTail cs = (taken, rest, true)) :
    ∃ body ∈ piece∗, taken = body ++ ['"'] := by
  have hcons : ∀ {y body}, y ∈ piece → body ∈ piece∗ → y ++ body ∈ piece∗ := by
    rintro y _ hy ⟨L, rfl, hL⟩
    exact ⟨y :: L, rfl, List.forall_mem_cons.mpr ⟨hy, hL⟩⟩
  fun_induction Lexeme.literalTail cs generalizing taken rest with
  | case1 => cases h
  | case2 cs =>
    cases h
    exact ⟨[], Language.nil_mem_kstar _, rfl⟩
  | case3 => cases h
  | case4 => cases h
  | case5 c cs hc taken' rest' closed heq ih =>
    cases h
    obtain ⟨body, hbody, rfl⟩ := ih heq
    refine ⟨['\\', c] ++ body, hcons (.inr ?_) hbody, rfl⟩
    exact mem_just_mul.mpr ⟨[c], ⟨c, bne_iff_ne.mpr hc, rfl⟩, rfl⟩
  | case6 c cs hquote hend hpair taken' rest' closed heq ih =>
    cases h
    obtain ⟨body, hbody, rfl⟩ := ih heq
    have hc : c ≠ '\\' := by
      rintro rfl
      cases cs with
      | nil => exact hend rfl rfl
      | cons d cs => exact hpair d cs rfl rfl
    refine ⟨[c] ++ body, hcons (.inl ⟨c, ?_, rfl⟩) hbody, rfl⟩
    rw [Bool.and_eq_true, bne_iff_ne, bne_iff_ne]
    exact ⟨hquote, hc⟩

theorem mem_literal : w ∈ literal.language ↔ ∃ body ∈ piece∗, w = '"' :: (body ++ ['"']) := by
  rw [language, mul_assoc, mem_just_mul]
  constructor
  · rintro ⟨_, ⟨body, hbody, _, rfl, rfl⟩, rfl⟩
    exact ⟨body, hbody, rfl⟩
  · rintro ⟨body, hbody, rfl⟩
    exact ⟨_, ⟨body, hbody, _, rfl, rfl⟩, rfl⟩

/-! ### Symbols and keywords -/

theorem symbolOne?_eq_some {c : Char} {s : Symbol} :
    Lexeme.symbolOne? c = some s ↔ s.text.toList = [c] := by
  constructor
  · intro h
    unfold Lexeme.symbolOne? at h
    split at h <;> cases h <;> rfl
  · intro h
    cases s <;> cases h <;> rfl

theorem symbolTwo?_eq_some {c d : Char} {s : Symbol} :
    Lexeme.symbolTwo? c d = some s ↔ s.text.toList = [c, d] := by
  constructor
  · intro h
    unfold Lexeme.symbolTwo? at h
    split at h <;> cases h <;> rfl
  · intro h
    cases s <;> cases h <;> rfl

theorem symbol_text (s : Symbol) :
    (∃ c, s.text.toList = [c]) ∨ ∃ c d, s.text.toList = [c, d] := by
  cases s <;> first | exact .inl ⟨_, rfl⟩ | exact .inr ⟨_, _, rfl⟩

theorem symbol_injective {s t : Symbol} (h : s.text.toList = t.text.toList) : s = t := by
  rcases symbol_text t with ⟨c, ht⟩ | ⟨c, d, ht⟩
  · exact Option.some.inj
      ((symbolOne?_eq_some.mpr (h.trans ht)).symm.trans (symbolOne?_eq_some.mpr ht))
  · exact Option.some.inj
      ((symbolTwo?_eq_some.mpr (h.trans ht)).symm.trans (symbolTwo?_eq_some.mpr ht))

theorem symbol?_le {c : Char} {s : Symbol} (h : s.text.toList <+: c :: cs) :
    ∃ t taken rest, Lexeme.symbol? c cs = some (t, taken, rest) ∧
      s.text.toList.length ≤ taken.length := by
  rcases symbol_text s with ⟨d, hs⟩ | ⟨d, e, hs⟩
  · rw [hs] at h ⊢
    obtain ⟨rfl, -⟩ := List.cons_prefix_cons.mp h
    have hone : Lexeme.symbolOne? d = some s := symbolOne?_eq_some.mpr hs
    cases cs with
    | nil => exact ⟨s, [d], [], by rw [Lexeme.symbol?, hone]; rfl, Nat.le_refl 1⟩
    | cons e cs =>
      cases htwo : Lexeme.symbolTwo? d e with
      | none => exact ⟨s, [d], e :: cs, by rw [Lexeme.symbol?, htwo, hone]; rfl, Nat.le_refl 1⟩
      | some t => exact ⟨t, [d, e], cs, by rw [Lexeme.symbol?, htwo], Nat.le_succ 1⟩
  · rw [hs] at h ⊢
    obtain ⟨rfl, hcs⟩ := List.cons_prefix_cons.mp h
    obtain ⟨rest, hrest⟩ := hcs
    have htwo : Lexeme.symbolTwo? d e = some s := symbolTwo?_eq_some.mpr hs
    exact ⟨s, [d, e], rest, by rw [← hrest, List.cons_append, Lexeme.symbol?, htwo]; rfl,
      Nat.le_refl 2⟩

theorem symbol?_text {c : Char} {s : Symbol} {taken rest : List Char}
    (h : Lexeme.symbol? c cs = some (s, taken, rest)) : taken = s.text.toList := by
  have hone : ∀ {cs}, ((Lexeme.symbolOne? c).map fun s => (s, [c], cs)) = some (s, taken, rest) →
      taken = s.text.toList := by
    intro cs h
    obtain ⟨t, ht, heq⟩ := Option.map_eq_some_iff.mp h
    cases heq
    exact (symbolOne?_eq_some.mp ht).symm
  unfold Lexeme.symbol? at h
  split at h
  · split at h
    · rename_i htwo
      cases h
      exact (symbolTwo?_eq_some.mp htwo).symm
    · exact hone h
  · exact hone h

theorem mem_name : w ∈ name.language ↔
    ∃ c v, w = c :: v ∧ Lexeme.isWordStart c = true ∧ ∀ d ∈ v, Lexeme.isWordPart d = true :=
  mem_one_mul_kstar

theorem keyword_text (k : Keyword) : ∃ c v, k.text.toList = c :: v ∧
    Lexeme.isWordStart c = true ∧ v.all Lexeme.isWordPart = true := by
  cases k <;> exact ⟨_, _, rfl, by decide, by decide⟩

/-- Keywords are spelled like names. -/
theorem mem_name_of_keyword {k : Keyword} (h : w ∈ (keyword k).language) : w ∈ name.language := by
  obtain ⟨c, v, htext, hc, hv⟩ := keyword_text k
  exact mem_name.mpr ⟨c, v, h.trans htext, hc, List.all_eq_true.mp hv⟩

theorem mem_blank : w ∈ blank.language ↔ w ≠ [] ∧ ∀ c ∈ w, Lexeme.isBlank c = true :=
  mem_many_one

theorem mem_comment :
    w ∈ comment.language ↔ ∃ v, w = '/' :: '/' :: v ∧ ∀ c ∈ v, (c != '\n') = true := by
  rw [language, mem_just_mul]
  constructor
  · rintro ⟨v, hv, rfl⟩
    exact ⟨v, rfl, mem_kstar_one.mp hv⟩
  · rintro ⟨v, rfl, hv⟩
    exact ⟨v, mem_kstar_one.mpr hv, rfl⟩

/-! ### First characters -/

/-- The classes of characters that a lexeme can start with; a mark is what is left. -/
inductive Initial where
  | blank | digit | letter | quote | mark
  deriving DecidableEq

def Initial.of (c : Char) : Initial :=
  if Lexeme.isBlank c then blank
  else if c.isDigit then digit
  else if Lexeme.isWordStart c then letter
  else if c = '"' then quote
  else mark

def initial : Pattern → Initial
  | blank => .blank
  | comment => .mark
  | keyword _ => .letter
  | number => .digit
  | literal => .quote
  | name => .letter
  | symbol _ => .mark

theorem not_isBlank_of_isAlphanum {c : Char} (hc : c.isAlphanum = true) :
    Lexeme.isBlank c = false := by
  refine Bool.eq_false_iff.mpr fun hblank => ?_
  simp only [Lexeme.isBlank, Bool.or_eq_true, beq_iff_eq] at hblank
  rcases hblank with ((rfl | rfl) | rfl) | rfl <;> exact absurd hc (by decide)

theorem initial_digit {c : Char} (hc : c.isDigit = true) : Initial.of c = .digit := by
  have hblank := not_isBlank_of_isAlphanum (c := c) (by rw [Char.isAlphanum, hc, Bool.or_true])
  rw [Initial.of, hblank, hc]
  rfl

theorem not_isDigit_of_isAlpha {c : Char} (hc : c.isAlpha = true) : c.isDigit = false := by
  refine Bool.eq_false_iff.mpr fun hdigit => ?_
  have hletter : (decide (c.val ≥ 'A'.val ∧ c.val ≤ 'Z'.val) ||
      (decide (c.val ≥ 'a'.val) && decide (c.val ≤ 'z'.val))) = true := hc
  have hdigit : (decide (c.val ≥ '0'.val) && decide (c.val ≤ '9'.val)) = true := hdigit
  simp only [Bool.or_eq_true, Bool.and_eq_true, decide_eq_true_eq, UInt32.le_iff_toNat_le,
    ge_iff_le] at hletter hdigit
  have hA : 'A'.val.toNat = 65 := rfl
  have ha : 'a'.val.toNat = 97 := rfl
  have h9 : '9'.val.toNat = 57 := rfl
  omega

theorem initial_letter {c : Char} (hc : Lexeme.isWordStart c = true) : Initial.of c = .letter := by
  by_cases hline : c = '_'
  · subst hline
    decide
  · have halpha : c.isAlpha = true := by
      rw [Lexeme.isWordStart, Bool.or_eq_true, beq_iff_eq] at hc
      exact hc.resolve_right hline
    have hblank := not_isBlank_of_isAlphanum (c := c) (by rw [Char.isAlphanum, halpha, Bool.true_or])
    rw [Initial.of, hblank, not_isDigit_of_isAlpha halpha, hc]
    rfl

/-- The first character of a match tells what matches. -/
theorem initial_eq {P : Pattern} (hw : w ∈ P.language) :
    ∃ c v, w = c :: v ∧ Initial.of c = P.initial := by
  cases P with
  | blank =>
    obtain ⟨hne, hw⟩ := mem_blank.mp hw
    obtain ⟨c, v, rfl⟩ := List.exists_cons_of_ne_nil hne
    exact ⟨c, v, rfl, if_pos (hw c List.mem_cons_self)⟩
  | comment =>
    obtain ⟨v, rfl, -⟩ := mem_comment.mp hw
    exact ⟨_, _, rfl, by decide⟩
  | keyword k =>
    obtain ⟨c, v, rfl, hc, -⟩ := mem_name.mp (mem_name_of_keyword hw)
    exact ⟨c, v, rfl, initial_letter hc⟩
  | number =>
    obtain ⟨_, ⟨ds, hds, f, -, rfl⟩, pw, -, rfl⟩ := hw
    obtain ⟨hne, hds⟩ := mem_digits.mp hds
    obtain ⟨c, ds, rfl⟩ := List.exists_cons_of_ne_nil hne
    exact ⟨c, _, rfl, initial_digit (hds c List.mem_cons_self)⟩
  | literal =>
    obtain ⟨body, -, rfl⟩ := mem_literal.mp hw
    exact ⟨_, _, rfl, by decide⟩
  | name =>
    obtain ⟨c, v, rfl, hc, -⟩ := mem_name.mp hw
    exact ⟨c, v, rfl, initial_letter hc⟩
  | symbol s =>
    cases hw
    refine ⟨s.text.toList.head?.getD ' ', s.text.toList.tail, ?_⟩
    cases s <;> decide

theorem initial_of_starts {P : Pattern} {c : Char} (hw : w ∈ P.language) (h : w <+: c :: cs) :
    Initial.of c = P.initial ∧ ∃ v, w = c :: v ∧ v <+: cs := by
  obtain ⟨d, v, rfl, hd⟩ := initial_eq hw
  obtain ⟨rfl, hv⟩ := List.cons_prefix_cons.mp h
  exact ⟨hd, v, rfl, hv⟩

/-! ### The longest match -/

section

variable {text chars : List Char} {P Q : Pattern}

theorem initial_unique (hP : w ∈ P.language) (hQ : w ∈ Q.language) : P.initial = Q.initial := by
  obtain ⟨c, v, rfl, hc⟩ := initial_eq hP
  obtain ⟨d, u, heq, hd⟩ := initial_eq hQ
  cases heq
  exact hc.symm.trans hd

/-- Only patterns that start alike have to be compared. -/
theorem Longest.of_initial (starts : chars <+: text) (mem : chars ∈ P.language)
    (longest : ∀ Q : Pattern, Q.initial = P.initial → ∀ w ∈ Q.language, w <+: text →
      w.length ≤ chars.length)
    (priority : P.initial = .letter → ∀ k, chars ∈ (keyword k).language → P = keyword k) :
    Longest text chars P where
  starts := starts
  mem := mem
  longest := by
    intro Q w hw hwt
    obtain ⟨c, v, rfl, hc⟩ := initial_eq mem
    obtain ⟨rest, rfl⟩ := starts
    have hQ := (initial_of_starts hw hwt).1
    exact longest Q (hQ.symm.trans hc) w hw hwt
  priority := fun k hk => priority (initial_unique mem hk) k hk

/-- The longest match and its pattern are unique. -/
theorem Longest.unique {chars' : List Char} {P' : Pattern} (h : Longest text chars P)
    (h' : Longest text chars' P') : chars = chars' ∧ P = P' := by
  have hchars : chars = chars' := by
    have hle := h'.longest P chars h.mem h.starts
    have hge := h.longest P' chars' h'.mem h'.starts
    exact (List.prefix_of_prefix_length_le h.starts h'.starts hle).eq_of_length
      (Nat.le_antisymm hle hge)
  subst hchars
  refine ⟨rfl, ?_⟩
  -- patterns that start alike are the same, but for words, where keywords count first, and marks
  have hinitial := initial_unique h.mem h'.mem
  have hmark : ∀ {s : Symbol}, chars ∈ comment.language → chars ∈ (symbol s).language → False := by
    intro s hcomment hs
    obtain ⟨v, rfl, -⟩ := mem_comment.mp hcomment
    have hs : '/' :: '/' :: v = s.text.toList := hs
    cases s <;> cases hs
  cases P' with
  | keyword k => exact h.priority k h'.mem
  | blank => cases P <;> first | rfl | cases hinitial
  | number => cases P <;> first | rfl | cases hinitial
  | literal => cases P <;> first | rfl | cases hinitial
  | name =>
    cases P with
    | keyword k => exact (h'.priority k h.mem).symm
    | name => rfl
    | _ => cases hinitial
  | comment =>
    cases P with
    | comment => rfl
    | symbol s => exact (hmark h'.mem h.mem).elim
    | _ => cases hinitial
  | symbol t =>
    cases P with
    | comment => exact (hmark h.mem h'.mem).elim
    | symbol s =>
      have hs : chars = s.text.toList := h.mem
      rw [symbol_injective (hs.symm.trans h'.mem)]
    | _ => cases hinitial

end

section

variable {c : Char}

theorem longest_blank (hc : Lexeme.isBlank c = true) (cs : List Char) :
    Longest (c :: cs) (c :: cs.takeWhile Lexeme.isBlank) blank := by
  refine .of_initial (List.cons_prefix_cons.mpr ⟨rfl, List.takeWhile_prefix _⟩) ?_ ?_ nofun
  · exact mem_blank.mpr
      ⟨List.cons_ne_nil _ _, List.forall_mem_cons.mpr ⟨hc, takeWhile_mem _ cs⟩⟩
  · intro Q hQ w hw hwt
    cases Q with
    | blank =>
      obtain ⟨-, v, rfl, hv⟩ := initial_of_starts hw hwt
      have hall := (List.forall_mem_cons.mp (mem_blank.mp hw).2).2
      exact Nat.succ_le_succ (run_le hall hv)
    | _ => cases hQ

theorem longest_comment (cs : List Char) :
    Longest ('/' :: '/' :: cs) ('/' :: '/' :: cs.takeWhile (· != '\n')) comment := by
  refine .of_initial ?_ (mem_comment.mpr ⟨_, rfl, takeWhile_mem _ cs⟩) ?_ nofun
  · exact List.cons_prefix_cons.mpr
      ⟨rfl, List.cons_prefix_cons.mpr ⟨rfl, List.takeWhile_prefix _⟩⟩
  · intro Q hQ w hw hwt
    cases Q with
    | comment =>
      obtain ⟨v, rfl, hv⟩ := mem_comment.mp hw
      obtain ⟨rest, hrest⟩ := hwt
      cases hrest
      exact Nat.add_le_add_right (run_le hv (List.prefix_append v rest)) 2
    | symbol s =>
      cases hw
      rcases symbol_text s with ⟨d, hs⟩ | ⟨d, e, hs⟩
      · rw [hs]
        exact Nat.le_add_left 1 _
      · rw [hs]
        exact Nat.le_add_left 2 _
    | _ => cases hQ

theorem longest_number (hc : c.isDigit = true) (cs : List Char) :
    Longest (c :: cs) (c :: (Lexeme.numberTail cs).1) number := by
  refine .of_initial ?_ (numberTail_mem hc cs) ?_ nofun
  · exact ⟨(Lexeme.numberTail cs).2, by rw [List.cons_append, Lexeme.numberTail_split]⟩
  · intro Q hQ w hw hwt
    cases Q with
    | number => exact number_le hw hwt
    | _ => cases hQ

theorem word_le {Q : Pattern} (hQ : Q.initial = .letter) (hw : w ∈ Q.language) (h : w <+: c :: cs) :
    w.length ≤ (c :: cs.takeWhile Lexeme.isWordPart).length := by
  have hname : w ∈ name.language := by
    cases Q with
    | name => exact hw
    | keyword k => exact mem_name_of_keyword hw
    | _ => cases hQ
  obtain ⟨d, v, rfl, -, hv⟩ := mem_name.mp hname
  exact Nat.succ_le_succ (run_le hv (List.cons_prefix_cons.mp h).2)

/-- The pattern of a word. -/
def ofWord (chars : List Char) : Pattern :=
  match Keyword.ofText? (String.ofList chars) with
  | some k => keyword k
  | none => name

theorem mem_keyword {k : Keyword} :
    w ∈ (keyword k).language ↔ Keyword.ofText? (String.ofList w) = some k := by
  constructor
  · rintro rfl
    rw [String.ofList_toList]
    cases k <;> decide
  · intro h
    have htext : k.text = String.ofList w := beq_iff_eq.mp (List.find?_eq_some_iff_append.mp h).1
    exact (congrArg String.toList htext.symm).symm.trans String.toList_ofList |>.symm

theorem ofWord_keyword {k : Keyword} (h : w ∈ (keyword k).language) : ofWord w = keyword k := by
  rw [ofWord, mem_keyword.mp h]

theorem ofWord_mem (hw : w ∈ name.language) : w ∈ (ofWord w).language := by
  unfold ofWord
  split
  · rename_i k hk
    exact mem_keyword.mpr hk
  · exact hw

theorem ofWord_initial (w : List Char) : (ofWord w).initial = .letter := by
  unfold ofWord
  split <;> rfl

theorem longest_word (hc : Lexeme.isWordStart c = true) (cs : List Char) :
    Longest (c :: cs) (c :: cs.takeWhile Lexeme.isWordPart)
      (ofWord (c :: cs.takeWhile Lexeme.isWordPart)) := by
  refine .of_initial (List.cons_prefix_cons.mpr ⟨rfl, List.takeWhile_prefix _⟩) ?_ ?_ ?_
  · exact ofWord_mem (mem_name.mpr ⟨c, _, rfl, hc, takeWhile_mem _ cs⟩)
  · exact fun Q hQ w hw hwt => word_le (hQ.trans (ofWord_initial _)) hw hwt
  · exact fun _ k hk => ofWord_keyword hk

theorem longest_literal {taken rest : List Char}
    (h : Lexeme.literalTail cs = (taken, rest, true)) :
    Longest ('"' :: cs) ('"' :: taken) literal := by
  obtain ⟨body, hbody, rfl⟩ := literalTail_mem h
  refine .of_initial ?_ (mem_literal.mpr ⟨body, hbody, rfl⟩) ?_ nofun
  · have hsplit := Lexeme.literalTail_split cs
    rw [h] at hsplit
    exact List.cons_prefix_cons.mpr ⟨rfl, rest, hsplit⟩
  · intro Q hQ w hw hwt
    cases Q with
    | literal =>
      obtain ⟨body', hbody', rfl⟩ := mem_literal.mp hw
      obtain ⟨-, rest', rfl⟩ := List.cons_prefix_cons.mp hwt
      rw [List.append_assoc, List.singleton_append, literalTail_eq hbody'] at h
      rw [(Prod.mk.inj h).1]
    | _ => cases hQ

theorem longest_symbol {s : Symbol} {taken rest : List Char}
    (hc : ¬ (c = '/' ∧ cs.head? = some '/')) (h : Lexeme.symbol? c cs = some (s, taken, rest)) :
    Longest (c :: cs) taken (symbol s) := by
  have starts : taken <+: c :: cs := by
    obtain ⟨t, rfl, rfl⟩ := Lexeme.symbol?_split h
    exact ⟨rest, rfl⟩
  refine .of_initial starts (symbol?_text h) ?_ nofun
  intro Q hQ w hw hwt
  cases Q with
  | comment =>
    obtain ⟨v, rfl, -⟩ := mem_comment.mp hw
    obtain ⟨rest, hrest⟩ := hwt
    cases hrest
    exact absurd ⟨rfl, rfl⟩ hc
  | symbol t =>
    cases hw
    obtain ⟨s', taken', rest', h', hle⟩ := symbol?_le hwt
    cases h.symm.trans h'
    exact hle
  | _ => cases hQ

end

end Pattern

namespace Lexeme

variable {c : Char} {cs chars rest : List Char} {l : Lexeme}

/-- The pattern that a lexeme matches. -/
def pattern (chars : List Char) : Lexeme → Pattern
  | blank => .blank
  | comment => .comment
  | number => .number
  | word => .ofWord chars
  | literal => .literal
  | symbol s => .symbol s

/-- **The lexeme that is taken is the longest match.** -/
theorem munch_longest (h : munch c cs = some (l, chars, rest)) :
    Pattern.Longest (c :: cs) chars (l.pattern chars) := by
  unfold munch at h
  split at h
  · rename_i hblank
    cases h
    exact Pattern.longest_blank hblank cs
  split at h
  · rename_i hcomment
    cases h
    obtain ⟨rfl, hhead⟩ := hcomment
    obtain ⟨cs, rfl⟩ := List.head?_eq_some_iff.mp hhead
    exact Pattern.longest_comment cs
  rename_i hcomment
  split at h
  · rename_i hdigit
    cases h
    exact Pattern.longest_number hdigit cs
  split at h
  · rename_i hword
    cases h
    exact Pattern.longest_word hword cs
  split at h
  · rename_i hquote
    subst hquote
    split at h
    · rename_i htail
      cases h
      exact Pattern.longest_literal htail
    · cases h
  · obtain ⟨⟨s, taken, rest⟩, hs, heq⟩ := Option.map_eq_some_iff.mp h
    cases heq
    exact Pattern.longest_symbol hcomment hs

/-- No lexeme is taken only where no pattern matches. -/
theorem munch_eq_none (h : munch c cs = none) {P : Pattern} {w : List Char} (hw : w ∈ P.language) :
    ¬ w <+: c :: cs := by
  intro hwt
  obtain ⟨hinitial, v, rfl, hv⟩ := Pattern.initial_of_starts hw hwt
  unfold munch at h
  split at h
  · cases h
  rename_i hblank
  split at h
  · cases h
  rename_i hcomment
  split at h
  · cases h
  rename_i hdigit
  split at h
  · cases h
  rename_i hword
  -- what is left starts with a quote or a mark
  rw [Pattern.Initial.of, if_neg hblank, if_neg hdigit, if_neg hword] at hinitial
  split at h
  · -- a quote: a literal would have been found closed
    rename_i hquote
    rw [if_pos hquote] at hinitial
    split at h
    · cases h
    rename_i htail
    cases P with
    | literal =>
      obtain ⟨body, hbody, heq⟩ := Pattern.mem_literal.mp hw
      cases heq
      obtain ⟨rest, rfl⟩ := hv
      rw [List.append_assoc, List.singleton_append, Pattern.literalTail_eq hbody] at htail
      cases htail
    | _ => cases hinitial
  · rename_i hquote
    rw [if_neg hquote] at hinitial
    cases P with
    | comment =>
      obtain ⟨u, heq, -⟩ := Pattern.mem_comment.mp hw
      cases heq
      obtain ⟨rest, rfl⟩ := hv
      exact hcomment ⟨rfl, rfl⟩
    | symbol s =>
      have hw : c :: v = s.text.toList := hw
      rw [hw] at hwt
      obtain ⟨t, taken, rest, hs, -⟩ := Pattern.symbol?_le hwt
      rw [hs] at h
      cases h
    | _ => cases hinitial

end Lexeme
end Scriptlet
