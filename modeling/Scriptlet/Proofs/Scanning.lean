import Scriptlet.Token.Lexer

/-!
Texts that are split into tokens.

`Token.Scans offset cs ts` says that the text `cs`, whose first byte is at `offset`, splits from left
to right into longest lexemes, and that `ts` are the tokens among them. It holds of what
`Token.scan` gives and of nothing else (`Token.scan_eq_ok`), but has no bound in it.

A line feed ends every lexeme but a run of blanks (`Lexeme.munch_append`). So tokens do not run
together over it: a text, a line feed and another text have the tokens of the first followed by those
of the second (`Token.Scans.append`), the latter further on in the source (`Token.Scans.shift`).
-/
namespace Scriptlet

/-- The span `k` bytes further on. -/
def Span.shift (k : Nat) (s : Span) : Span := ⟨s.start + k, s.stop + k⟩

def Located.shift {α : Type} (k : Nat) (x : Located α) : Located α := ⟨x.val, x.span.shift k⟩

/-! ### Lexemes -/

namespace Lexeme

theorem takeWhile_dropWhile_stop {p : Char → Bool} {c : Char} (cs ds : List Char)
    (h : p c = false ∨ cs.dropWhile p ≠ []) :
    (cs ++ c :: ds).takeWhile p = cs.takeWhile p ∧
      (cs ++ c :: ds).dropWhile p = cs.dropWhile p ++ c :: ds := by
  induction cs with
  | nil =>
    have hc : p c = false := h.resolve_right fun hne => hne rfl
    constructor
    · rw [List.nil_append, List.takeWhile_cons, hc]; rfl
    · rw [List.nil_append, List.dropWhile_cons, hc]; rfl
  | cons d cs ih =>
    rw [List.cons_append, List.takeWhile_cons, List.dropWhile_cons, List.takeWhile_cons,
      List.dropWhile_cons]
    by_cases hd : p d = true
    · rw [List.dropWhile_cons, if_pos hd] at h
      obtain ⟨htake, hdrop⟩ := ih h
      rw [if_pos hd, if_pos hd, if_pos hd, if_pos hd, htake, hdrop]
      exact ⟨rfl, rfl⟩
    · rw [if_neg hd, if_neg hd, if_neg hd, if_neg hd]
      exact ⟨rfl, rfl⟩

section

variable (cs ds : List Char)

theorem digits_append :
    (cs ++ '\n' :: ds).takeWhile Char.isDigit = cs.takeWhile Char.isDigit ∧
      (cs ++ '\n' :: ds).dropWhile Char.isDigit = cs.dropWhile Char.isDigit ++ '\n' :: ds :=
  takeWhile_dropWhile_stop cs ds (.inl (by decide))

theorem fraction_append :
    fraction (cs ++ '\n' :: ds) = ((fraction cs).1, (fraction cs).2 ++ '\n' :: ds) := by
  match cs with
  | [] => rfl
  | [c] =>
    by_cases hc : c = '.'
    · subst hc
      rfl
    · simp [fraction, hc]
  | c :: d :: cs =>
    by_cases hc : c = '.'
    · subst hc
      have hcs := digits_append cs ds
      simp only [fraction, List.cons_append]
      split
      · rw [hcs.1, hcs.2]
      · rfl
    · simp [fraction, hc]

theorem power_append :
    power (cs ++ '\n' :: ds) = ((power cs).1, (power cs).2 ++ '\n' :: ds) := by
  have hdigit : '\n'.isDigit = false := by decide
  match cs with
  | [] => cases ds with
    | nil => rfl
    | cons d ds => cases ds <;> rfl
  | [e] => cases ds <;> simp [power, hdigit]
  | [e, s] =>
    simp only [power, List.cons_append, List.nil_append, hdigit, Bool.and_false, Bool.false_eq_true,
      if_false]
    split
    · rw [List.takeWhile_cons, List.dropWhile_cons, hdigit]
      rfl
    · rfl
  | e :: s :: c :: cs =>
    have hcs := digits_append cs ds
    have hccs := digits_append (c :: cs) ds
    simp only [List.cons_append] at hccs
    simp only [power, List.cons_append]
    split
    · rw [hcs.1, hcs.2]
    · split
      · rw [hccs.1, hccs.2]
      · rfl

theorem numberTail_append :
    numberTail (cs ++ '\n' :: ds) = ((numberTail cs).1, (numberTail cs).2 ++ '\n' :: ds) := by
  have hcs := digits_append cs ds
  simp only [numberTail, hcs.1, hcs.2, fraction_append, power_append]

theorem symbol?_append (c : Char) :
    symbol? c (cs ++ '\n' :: ds) =
      (symbol? c cs).map fun (s, taken, rest) => (s, taken, rest ++ '\n' :: ds) := by
  cases cs with
  | nil =>
    have htwo : symbolTwo? c '\n' = none := by
      unfold symbolTwo?
      split <;> first | rfl | contradiction
    simp only [symbol?, List.nil_append, htwo]
    cases symbolOne? c <;> rfl
  | cons d cs =>
    simp only [symbol?, List.cons_append]
    cases symbolTwo? c d with
    | some s => rfl
    | none => cases symbolOne? c <;> rfl

end

theorem literalTail_append {cs taken rest : List Char} (h : literalTail cs = (taken, rest, true))
    (ds : List Char) : literalTail (cs ++ ds) = (taken, rest ++ ds, true) := by
  fun_induction literalTail cs generalizing taken rest with
  | case1 => cases h
  | case2 cs =>
    cases h
    rfl
  | case3 => cases h
  | case4 => cases h
  | case5 c cs hc taken' rest' closed heq ih =>
    cases h
    rw [List.cons_append, List.cons_append, literalTail, if_neg hc, ih heq]
  | case6 c cs hquote hend hpair taken' rest' closed heq ih =>
    cases h
    have hc : c ≠ '\\' := by
      rintro rfl
      cases cs with
      | nil => exact hend rfl rfl
      | cons d cs => exact hpair d cs rfl rfl
    rw [List.cons_append, literalTail, ih heq]
    · exact hquote
    · exact fun heq _ => hc heq
    · exact fun _ _ heq _ => hc heq

/-- A line feed behind a text does not change its first lexeme, unless that is a run of blanks up to
the end. -/
theorem munch_append {c : Char} {cs chars rest : List Char} {l : Lexeme}
    (h : munch c cs = some (l, chars, rest)) (hl : ¬ (l = .blank ∧ rest = [])) (ds : List Char) :
    munch c (cs ++ '\n' :: ds) = some (l, chars, rest ++ '\n' :: ds) := by
  unfold munch at h ⊢
  split at h
  · rename_i hblank
    cases h
    obtain ⟨htake, hdrop⟩ :=
      takeWhile_dropWhile_stop (c := '\n') cs ds (.inr fun hrest => hl ⟨rfl, hrest⟩)
    rw [if_pos hblank, htake, hdrop]
  rename_i hblank
  have hslash : (cs ++ '\n' :: ds).head? = some '/' ↔ cs.head? = some '/' := by
    cases cs with
    | nil => exact ⟨nofun, nofun⟩
    | cons d cs => rfl
  rw [if_neg hblank]
  split at h
  · rename_i hcomment
    cases h
    obtain ⟨htake, hdrop⟩ :=
      takeWhile_dropWhile_stop (p := (· != '\n')) (c := '\n') cs ds (.inl (by decide))
    rw [if_pos ⟨hcomment.1, hslash.mpr hcomment.2⟩, htake, hdrop]
  rename_i hcomment
  rw [if_neg fun hc => hcomment ⟨hc.1, hslash.mp hc.2⟩]
  split at h
  · rename_i hdigit
    rw [if_pos hdigit, numberTail_append]
    generalize numberTail cs = tail at h ⊢
    cases h
    rfl
  rename_i hdigit
  rw [if_neg hdigit]
  split at h
  · rename_i hword
    cases h
    obtain ⟨htake, hdrop⟩ :=
      takeWhile_dropWhile_stop (p := isWordPart) (c := '\n') cs ds (.inl (by decide))
    rw [if_pos hword, htake, hdrop]
  rename_i hword
  rw [if_neg hword]
  split at h
  · rename_i hquote
    rw [if_pos hquote]
    split at h
    · rename_i taken rest htail
      cases h
      rw [literalTail_append htail]
    · cases h
  · rename_i hquote
    rw [if_neg hquote, symbol?_append, Option.map_map]
    obtain ⟨⟨s, taken, rest⟩, hs, heq⟩ := Option.map_eq_some_iff.mp h
    cases heq
    rw [hs]
    rfl

theorem fraction_of_ne {c : Char} (hc : c ≠ '.') (cs : List Char) :
    fraction (c :: cs) = ([], c :: cs) := by
  unfold fraction
  split
  · rename_i heq
    exact absurd (List.cons.inj heq).1 hc
  · rfl

theorem power_of_ne {c : Char} (he : c ≠ 'e') (hE : c ≠ 'E') (cs : List Char) :
    power (c :: cs) = ([], c :: cs) := by
  rcases cs with _ | ⟨d, _ | ⟨f, cs⟩⟩
  · rfl
  · simp [power, he, hE]
  · simp [power, he, hE]

theorem fraction_split (cs : List Char) : (fraction cs).1 ++ (fraction cs).2 = cs := by
  unfold fraction
  split
  · split
    · simp
    · rfl
  · rfl

theorem power_split (cs : List Char) : (power cs).1 ++ (power cs).2 = cs := by
  unfold power
  split
  · split
    · simp
    · split
      · simp
      · rfl
  · split <;> rfl
  · rfl

theorem numberTail_split (cs : List Char) : (numberTail cs).1 ++ (numberTail cs).2 = cs := by
  simp only [numberTail]
  rw [List.append_assoc, power_split, List.append_assoc, fraction_split,
    List.takeWhile_append_dropWhile]

theorem literalTail_split (cs : List Char) : (literalTail cs).1 ++ (literalTail cs).2.1 = cs := by
  fun_induction literalTail cs with
  | case1 | case2 | case3 | case4 => rfl
  | case5 c cs _ taken rest closed heq ih =>
    rw [heq] at ih
    exact congrArg (fun cs => '\\' :: c :: cs) ih
  | case6 c cs _ _ _ taken rest closed heq ih =>
    rw [heq] at ih
    exact congrArg (fun cs => c :: cs) ih

theorem symbol?_split {c : Char} {cs chars rest : List Char} {s : Symbol}
    (h : symbol? c cs = some (s, chars, rest)) : ∃ taken, chars = c :: taken ∧ taken ++ rest = cs := by
  unfold symbol? at h
  split at h
  · split at h
    · cases h
      exact ⟨_, rfl, rfl⟩
    · obtain ⟨_, _, heq⟩ := Option.map_eq_some_iff.mp h
      cases heq
      exact ⟨_, rfl, rfl⟩
  · obtain ⟨_, _, heq⟩ := Option.map_eq_some_iff.mp h
    cases heq
    exact ⟨_, rfl, rfl⟩

/-- A lexeme is the first piece of the text, and not empty. -/
theorem munch_split {c : Char} {cs chars rest : List Char} {l : Lexeme}
    (h : munch c cs = some (l, chars, rest)) : ∃ taken, chars = c :: taken ∧ taken ++ rest = cs := by
  unfold munch at h
  split at h
  · cases h
    exact ⟨_, rfl, List.takeWhile_append_dropWhile⟩
  split at h
  · cases h
    exact ⟨_, rfl, List.takeWhile_append_dropWhile⟩
  split at h
  · cases h
    exact ⟨_, rfl, numberTail_split cs⟩
  split at h
  · cases h
    exact ⟨_, rfl, List.takeWhile_append_dropWhile⟩
  split at h
  · have hcs := literalTail_split cs
    split at h
    · rename_i htail
      cases h
      rw [htail] at hcs
      exact ⟨_, rfl, hcs⟩
    · cases h
  · obtain ⟨⟨s, taken, rest⟩, hs, heq⟩ := Option.map_eq_some_iff.mp h
    cases heq
    exact symbol?_split hs

theorem isBlank_of_munch {c : Char} {cs chars rest : List Char}
    (h : munch c cs = some (.blank, chars, rest)) : ∀ d ∈ chars, isBlank d = true := by
  unfold munch at h
  split at h
  · rename_i hc
    cases h
    intro d hd
    rcases List.mem_cons.mp hd with rfl | hd
    · exact hc
    · exact List.all_eq_true.mp List.all_takeWhile d hd
  · repeat' split at h
    all_goals first | cases h | skip
    obtain ⟨_, _, heq⟩ := Option.map_eq_some_iff.mp h
    cases heq

end Lexeme

namespace Token

/-! ### Tokens -/

theorem byteSize_append (cs ds : List Char) : byteSize (cs ++ ds) = byteSize cs + byteSize ds := by
  induction cs with
  | nil => exact (Nat.zero_add _).symm
  | cons c cs ih => rw [List.cons_append, byteSize, byteSize, ih, Nat.add_assoc]

theorem byteSize_toList (s : String) : byteSize s.toList = s.utf8ByteSize := by
  have hofList : ∀ cs, byteSize cs = (String.ofList cs).utf8ByteSize := by
    intro cs
    induction cs with
    | nil => rfl
    | cons c cs ih =>
      rw [byteSize, ih, String.ofList_cons, String.utf8ByteSize_append, String.utf8ByteSize_singleton]
  rw [hofList, String.ofList_toList]

/-- A text splits into longest lexemes, and these are the tokens among them. -/
inductive Scans : Nat → List Char → List (Located Token) → Prop
  | done {offset} : Scans offset [] []
  | skip {offset c cs l chars rest ts} (munch : Lexeme.munch c cs = some (l, chars, rest))
      (lexeme : ofLexeme? chars l = some none) (rest : Scans (offset + byteSize chars) rest ts) :
      Scans offset (c :: cs) ts
  | token {offset c cs l chars rest t ts} (munch : Lexeme.munch c cs = some (l, chars, rest))
      (lexeme : ofLexeme? chars l = some (some t))
      (rest : Scans (offset + byteSize chars) rest ts) :
      Scans offset (c :: cs) (⟨t, ⟨offset, offset + byteSize chars⟩⟩ :: ts)

theorem scanFrom_eq_ok {fuel offset : Nat} {cs : List Char} {ts : List (Located Token)}
    (hfuel : cs.length ≤ fuel) : scanFrom fuel offset cs = .ok ts ↔ Scans offset cs ts := by
  induction fuel generalizing offset cs ts with
  | zero =>
    cases List.length_eq_zero_iff.mp (Nat.le_zero.mp hfuel)
    constructor
    · intro h
      cases h
      exact .done
    · intro h
      cases h
      rfl
  | succ fuel ih =>
    cases cs with
    | nil =>
      constructor
      · intro h
        cases h
        exact .done
      · intro h
        cases h
        rfl
    | cons c cs =>
      have hrest : ∀ {l chars rest}, Lexeme.munch c cs = some (l, chars, rest) →
          rest.length ≤ fuel := by
        intro l chars rest h
        obtain ⟨taken, -, rfl⟩ := Lexeme.munch_split h
        rw [List.length_cons, List.length_append] at hfuel
        omega
      constructor
      · intro h
        rw [scanFrom] at h
        split at h
        · cases h
        · rename_i munch
          dsimp only at h
          split at h
          · cases h
          · rename_i lexeme
            exact .skip munch lexeme ((ih (hrest munch)).mp h)
          · rename_i chars rest _ t lexeme
            cases hus : scanFrom fuel (offset + byteSize chars) rest with
            | error e => rw [hus] at h; cases h
            | ok us =>
              rw [hus] at h
              cases h
              exact .token munch lexeme ((ih (hrest munch)).mp hus)
      · intro h
        cases h with
        | skip munch lexeme rest =>
          rw [scanFrom, munch]
          dsimp only
          rw [lexeme]
          exact (ih (hrest munch)).mpr rest
        | token munch lexeme rest =>
          rw [scanFrom, munch]
          dsimp only
          rw [lexeme]
          dsimp only
          rw [(ih (hrest munch)).mpr rest]
          rfl

/-- What a scan gives, without its bound. -/
theorem scan_eq_ok {source : String} {ts : List (Located Token)} :
    scan source = .ok ts ↔ Scans 0 source.toList ts :=
  scanFrom_eq_ok (Nat.le_refl _)

namespace Scans

variable {offset : Nat} {cs ds : List Char} {ts us : List (Located Token)}

/-- The same text further on in a source has the same tokens, further on. -/
theorem shift (h : Scans offset cs ts) (k : Nat) :
    Scans (offset + k) cs (ts.map (Located.shift k)) := by
  induction h with
  | done => exact .done
  | @skip offset c cs l chars rest ts munch lexeme _ ih =>
    refine .skip munch lexeme ?_
    rwa [Nat.add_right_comm]
  | @token offset c cs l chars rest t ts munch lexeme _ ih =>
    have hspan : Located.shift k ⟨t, ⟨offset, offset + byteSize chars⟩⟩ =
        ⟨t, ⟨offset + k, offset + k + byteSize chars⟩⟩ := by
      rw [Nat.add_right_comm]
      rfl
    rw [List.map_cons, hspan]
    refine .token munch lexeme ?_
    rwa [Nat.add_right_comm]

theorem munch_blank {c : Char} (hc : Lexeme.isBlank c = true) (cs : List Char) :
    Lexeme.munch c cs = some (.blank, c :: cs.takeWhile Lexeme.isBlank, cs.dropWhile Lexeme.isBlank) := by
  rw [Lexeme.munch, if_pos hc]

/-- The blanks in front can be dropped. -/
theorem dropBlanks (h : Scans offset cs ts) :
    Scans (offset + byteSize (cs.takeWhile Lexeme.isBlank)) (cs.dropWhile Lexeme.isBlank) ts := by
  cases cs with
  | nil => exact h
  | cons c cs =>
    by_cases hc : Lexeme.isBlank c = true
    · rw [List.takeWhile_cons, List.dropWhile_cons, if_pos hc, if_pos hc]
      have hmunch := munch_blank hc cs
      cases h with
      | skip munch lexeme rest =>
        rw [hmunch] at munch
        cases munch
        exact rest
      | token munch lexeme rest =>
        rw [hmunch] at munch
        cases munch
        cases lexeme
    · rw [List.takeWhile_cons, List.dropWhile_cons, if_neg hc, if_neg hc]
      exact h

/-- Blanks can be put in front, and run together with those that are there. -/
theorem prependBlanks {bs : List Char} (hbs : ∀ c ∈ bs, Lexeme.isBlank c = true)
    (h : Scans (offset + byteSize bs) cs ts) : Scans offset (bs ++ cs) ts := by
  cases bs with
  | nil => exact h
  | cons b bs =>
    have hmunch := munch_blank (hbs b List.mem_cons_self) (bs ++ cs)
    have hall : ∀ c ∈ bs, Lexeme.isBlank c = true := fun c hc => hbs c (List.mem_cons_of_mem _ hc)
    rw [List.takeWhile_append_of_pos hall, List.dropWhile_append_of_pos hall] at hmunch
    refine .skip hmunch rfl ?_
    rw [← List.cons_append, byteSize_append, ← Nat.add_assoc]
    exact h.dropBlanks

/-- **Tokens do not run together over a line feed.** -/
theorem append (hcs : Scans offset cs ts) (hds : Scans (offset + byteSize cs + 1) ds us) :
    Scans offset (cs ++ '\n' :: ds) (ts ++ us) := by
  have hline : ∀ c ∈ ['\n'], Lexeme.isBlank c = true := by
    intro c hc
    cases List.mem_singleton.mp hc
    rfl
  induction hcs with
  | done =>
    have hblank : Scans _ (['\n'] ++ ds) us := prependBlanks hline hds
    exact hblank
  | @skip offset c cs l chars rest ts munch lexeme hrest ih =>
    obtain ⟨taken, rfl, rfl⟩ := Lexeme.munch_split munch
    by_cases hl : l = .blank ∧ rest = []
    · -- the text ends in blanks, and the line feed joins them
      obtain ⟨rfl, rfl⟩ := hl
      cases hrest
      have hall : ∀ d ∈ (c :: taken) ++ ['\n'], Lexeme.isBlank d = true := by
        intro d hd
        rcases List.mem_append.mp hd with hd | hd
        · exact Lexeme.isBlank_of_munch munch d hd
        · exact hline d hd
      have hblank : Scans offset ((c :: taken) ++ ['\n'] ++ ds) us := by
        refine prependBlanks hall ?_
        rw [List.append_nil] at hds
        rwa [byteSize_append, ← Nat.add_assoc]
      simpa using hblank
    · refine .skip (Lexeme.munch_append munch hl ds) lexeme (ih ?_)
      rwa [← List.cons_append, byteSize_append, ← Nat.add_assoc] at hds
  | @token offset c cs l chars rest t ts munch lexeme hrest ih =>
    obtain ⟨taken, rfl, rfl⟩ := Lexeme.munch_split munch
    have hl : ¬ (l = .blank ∧ rest = []) := by
      rintro ⟨rfl, -⟩
      cases lexeme
    refine .token (Lexeme.munch_append munch hl ds) lexeme (ih ?_)
    rwa [← List.cons_append, byteSize_append, ← Nat.add_assoc] at hds

end Scans
end Token
end Scriptlet
