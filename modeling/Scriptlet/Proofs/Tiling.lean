import Scriptlet.Program.Source
import Scriptlet.Proofs.Numerals
import Scriptlet.Proofs.Patterns

/-!
Tokens tile the source.

`Pattern.Means` says what a match stands for, if it stands for anything: a literal with an unknown
escape does not. `Splits offset text ts rest` says that a text splits from left to right into longest
matches that stand for something, down to `rest`, and that `ts` are the tokens among them. A source
has tokens just if it splits down to its end (`Scans.splits`, `Splits.scans`), and where it has none
the error is at the end of the longest split (`scanFrom_eq_error`).

The tokens of a split lie in the text one after another, and blanks and comments fill the gaps
(`Splits.tiled`); what there is to say about their spans follows from that (`Tiled.place`,
`Tiled.pairwise`).
-/
namespace Scriptlet

open scoped Computability

namespace Pattern

/-! ### What a match stands for -/

/-- The escapes, with the characters that they stand for. -/
def escapes : List (Char × Char) :=
  [('n', '\n'), ('t', '\t'), ('r', '\r'), ('0', '\x00'), ('\\', '\\'), ('"', '"')]

/-- What stands between the quotes of a literal, and the text that it stands for. -/
inductive Unescapes : List Char → List Char → Prop
  | nil : Unescapes [] []
  | plain {c cs ds} (quote : c ≠ '"') (backslash : c ≠ '\\') (rest : Unescapes cs ds) :
      Unescapes (c :: cs) (c :: ds)
  | escape {e c cs ds} (known : (e, c) ∈ escapes) (rest : Unescapes cs ds) :
      Unescapes ('\\' :: e :: cs) (c :: ds)

/-- The token that a match stands for; blanks and comments are skipped. -/
inductive Means : Pattern → List Char → Option Token → Prop
  | blank {chars} : Means blank chars none
  | comment {chars} : Means comment chars none
  | keyword {k chars} : Means (keyword k) chars (some (.keyword k))
  | number {chars d} (read : Number.readDigits? chars = some d) :
      Means number chars (some (.number d.toFloat))
  | literal {body text} (unescapes : Unescapes body text) :
      Means literal ('"' :: (body ++ ['"'])) (some (.text (String.ofList text)))
  | name {chars} : Means name chars (some (.name (String.ofList chars)))
  | symbol {s chars} : Means (symbol s) chars (some (.symbol s))

theorem escape?_eq_some {e c : Char} : Token.escape? e = some c ↔ (e, c) ∈ escapes := by
  constructor
  · intro h
    unfold Token.escape? at h
    split at h <;> cases h <;> decide
  · intro h
    fin_cases h <;> rfl

theorem unescape?_of_unescapes {body text : List Char} (h : Unescapes body text) :
    Token.unescape? (body ++ ['"']) = some text := by
  induction h with
  | nil => rfl
  | @plain c cs ds quote backslash _ ih =>
    rw [List.cons_append, Token.unescape?, ih]
    · rfl
    · exact fun heq _ => quote heq
    · exact fun _ _ heq _ => backslash heq
  | @escape e c cs ds known _ ih =>
    rw [List.cons_append, List.cons_append, Token.unescape?, escape?_eq_some.mpr known, ih]
    rfl

/-- Between the quotes of a literal there is no other quote, so what is read up to its end is all
of it. -/
theorem unescapes_of_unescape? {body text : List Char} (hbody : body ∈ piece∗)
    (h : Token.unescape? (body ++ ['"']) = some text) : Unescapes body text := by
  -- by induction on the pieces rather than the characters, as an escape has two of these
  obtain ⟨L, rfl, hL⟩ := hbody
  induction L generalizing text with
  | nil =>
    cases h
    exact .nil
  | cons y L ih =>
    obtain ⟨hy, hrest⟩ := List.forall_mem_cons.mp hL
    rw [List.flatten_cons] at h ⊢
    rcases hy with ⟨c, hc, rfl⟩ | hy
    · rw [Bool.and_eq_true, bne_iff_ne, bne_iff_ne] at hc
      have hplain : Token.unescape? (c :: (L.flatten ++ ['"'])) =
          (Token.unescape? (L.flatten ++ ['"'])).map (c :: ·) := by
        rw [Token.unescape?]
        · exact fun heq _ => hc.1 heq
        · exact fun _ _ heq _ => hc.2 heq
      rw [List.append_assoc, List.singleton_append, hplain] at h
      obtain ⟨ds, hds, rfl⟩ := Option.map_eq_some_iff.mp h
      exact .plain hc.1 hc.2 (ih hrest hds)
    · obtain ⟨_, ⟨e, -, rfl⟩, rfl⟩ := mem_just_mul.mp hy
      have hescape : Token.unescape? ('\\' :: e :: (L.flatten ++ ['"'])) =
          (Token.escape? e).bind fun c =>
            (Token.unescape? (L.flatten ++ ['"'])).bind fun cs => some (c :: cs) := rfl
      have h : Token.unescape? ('\\' :: e :: (L.flatten ++ ['"'])) = some text := h
      rw [hescape] at h
      obtain ⟨c, hc, h⟩ := Option.bind_eq_some_iff.mp h
      obtain ⟨ds, hds, heq⟩ := Option.bind_eq_some_iff.mp h
      cases heq
      exact .escape (escape?_eq_some.mp hc) (ih hrest hds)

theorem readPower?_power {pw : List Char} (hpw : pw ∈ optional power) :
    ∃ n, Number.readPower? pw = some n := by
  rcases hpw with rfl | hpw
  · exact ⟨0, rfl⟩
  obtain ⟨e, v, ds, he, hv, hds, rfl⟩ := mem_power.mp hpw
  obtain ⟨hne, hds⟩ := mem_digits.mp hds
  have hsign : ∃ negative, Number.takeSign (v ++ ds) = (negative, ds) := by
    rcases hv with rfl | ⟨s, hs, rfl⟩
    · obtain ⟨d, ds, rfl⟩ := List.exists_cons_of_ne_nil hne
      have hd := hds d List.mem_cons_self
      refine ⟨false, ?_⟩
      rw [List.nil_append, Number.takeSign]
      · rintro cs ⟨⟩
        exact absurd hd (by decide)
      · rintro cs ⟨⟩
        exact absurd hd (by decide)
    · rw [Bool.or_eq_true, beq_iff_eq, beq_iff_eq] at hs
      rcases hs with rfl | rfl
      · exact ⟨false, rfl⟩
      · exact ⟨true, rfl⟩
  obtain ⟨negative, hsign⟩ := hsign
  have he : (e = 'e' || e = 'E') = true := by simpa using he
  simp only [Number.readPower?]
  rw [if_pos he, hsign]
  dsimp only
  rw [Number.takeDigits_whole hds]
  simp [hne]

theorem takeDigits_of_head {cs : List Char} (hcs : ∀ c ∈ cs.head?, c.isDigit = false) :
    Number.takeDigits cs = ([], cs) := by
  cases cs with
  | nil => rfl
  | cons c cs => simp [Number.takeDigits, hcs c rfl]

/-- Every number that matches can be read. -/
theorem readDigits?_number {w : List Char} (hw : w ∈ number.language) :
    ∃ d, Number.readDigits? w = some d := by
  obtain ⟨_, ⟨ds, hds, f, hf, rfl⟩, pw, hpw, rfl⟩ := hw
  obtain ⟨hne, hds⟩ := mem_digits.mp hds
  obtain ⟨n, hn⟩ := readPower?_power hpw
  have hwhole : Number.takeDigits (ds ++ f ++ pw) = (ds, f ++ pw) := by
    rw [List.append_assoc, Number.takeDigits_append hds, takeDigits_of_head (head_fraction hf hpw),
      List.append_nil]
  have hpower : Number.takeDigits pw = ([], pw) :=
    takeDigits_of_head fun c hc => (head_power hpw c hc).1
  show ∃ d, Number.readDigits? (ds ++ f ++ pw) = some d
  rw [Number.readDigits?, hwhole]
  rcases hf with rfl | hf
  · dsimp only [List.nil_append]
    split
    · rename_i rest
      exact absurd rfl (head_power hpw '.' rfl).2
    · rw [hn]
      simp [hne]
  · obtain ⟨fs, hfs, rfl⟩ := mem_fraction.mp hf
    simp only [List.cons_append, Number.takeDigits_append (mem_digits.mp hfs).2, hpower]
    rw [hn]
    simp [hne]

/-- A lexeme stands for what its match does. -/
theorem ofLexeme?_eq_some {chars : List Char} {l : Lexeme} {t : Option Token}
    (h : chars ∈ (l.pattern chars).language) :
    Token.ofLexeme? chars l = some t ↔ (l.pattern chars).Means chars t := by
  cases l with
  | blank =>
    constructor
    · rintro ⟨⟩
      exact .blank
    · rintro ⟨⟩
      rfl
  | comment =>
    constructor
    · rintro ⟨⟩
      exact .comment
    · rintro ⟨⟩
      rfl
  | number =>
    obtain ⟨d, hd⟩ := readDigits?_number h
    have hnumber : Token.numberOf chars = d.toFloat := by
      rw [Token.numberOf, hd]
      rfl
    rw [Token.ofLexeme?, hnumber]
    constructor
    · rintro ⟨⟩
      exact .number hd
    · intro hmeans
      cases hmeans with
      | number read => rw [Option.some.inj (read.symm.trans hd)]
  | word =>
    rw [Token.ofLexeme?, Token.ofWord, Lexeme.pattern, ofWord]
    cases Keyword.ofText? (String.ofList chars) with
    | some k =>
      constructor
      · rintro ⟨⟩
        exact .keyword
      · rintro ⟨⟩
        rfl
    | none =>
      constructor
      · rintro ⟨⟩
        exact .name
      · rintro ⟨⟩
        rfl
  | literal =>
    obtain ⟨body, hbody, rfl⟩ := mem_literal.mp h
    rw [Token.ofLexeme?, List.drop_one, List.tail_cons, Option.map_eq_some_iff]
    constructor
    · rintro ⟨text, htext, rfl⟩
      exact .literal (unescapes_of_unescape? hbody htext)
    · intro hmeans
      generalize hchars : '"' :: (body ++ ['"']) = chars at hmeans
      cases hmeans with
      | literal unescapes =>
        rw [List.append_cancel_right (List.cons.inj hchars).2]
        exact ⟨_, unescape?_of_unescapes unescapes, rfl⟩
  | symbol s =>
    constructor
    · rintro ⟨⟩
      exact .symbol
    · rintro ⟨⟩
      rfl

end Pattern

/-! ### Splitting -/

open Token (byteSize byteSize_append)

/-- A text splits into longest matches that stand for something, down to `rest`, and these are the
tokens among them. -/
inductive Splits : Nat → List Char → List (Located Token) → List Char → Prop
  | stop {offset text} : Splits offset text [] text
  | skip {offset chars rest P ts last} (longest : Pattern.Longest (chars ++ rest) chars P)
      (means : P.Means chars none) (more : Splits (offset + byteSize chars) rest ts last) :
      Splits offset (chars ++ rest) ts last
  | token {offset chars rest P t ts last} (longest : Pattern.Longest (chars ++ rest) chars P)
      (means : P.Means chars (some t)) (more : Splits (offset + byteSize chars) rest ts last) :
      Splits offset (chars ++ rest) (⟨t, ⟨offset, offset + byteSize chars⟩⟩ :: ts) last

/-- The splitting of a text cannot go on: its longest match, if there is one, stands for nothing. -/
def Stuck (text : List Char) : Prop :=
  ∀ chars P t, Pattern.Longest text chars P → ¬ P.Means chars t

section

variable {c : Char} {cs chars rest text : List Char} {l : Lexeme} {offset : Nat}
  {ts : List (Located Token)}

theorem munch_append_eq (h : Lexeme.munch c cs = some (l, chars, rest)) :
    c :: cs = chars ++ rest := by
  obtain ⟨taken, rfl, rfl⟩ := Lexeme.munch_split h
  rfl

theorem Pattern.Longest.munch {P : Pattern} {t : Option Token}
    (h : Pattern.Longest (chars ++ rest) chars P) (hmeans : P.Means chars t) :
    ∃ c cs l, chars ++ rest = c :: cs ∧ Lexeme.munch c cs = some (l, chars, rest) ∧
      Token.ofLexeme? chars l = some t := by
  obtain ⟨c, v, rfl, -⟩ := Pattern.initial_eq h.mem
  refine ⟨c, v ++ rest, ?_⟩
  cases hmunch : Lexeme.munch c (v ++ rest) with
  | none => exact absurd h.starts (Lexeme.munch_eq_none hmunch h.mem)
  | some taken =>
    obtain ⟨l, chars, rest'⟩ := taken
    have hlongest := Lexeme.munch_longest hmunch
    obtain ⟨rfl, rfl⟩ := h.unique hlongest
    have hsplit : c :: v ++ rest = c :: v ++ rest' := munch_append_eq hmunch
    cases List.append_cancel_left hsplit
    exact ⟨l, rfl, rfl, (Pattern.ofLexeme?_eq_some h.mem).mpr hmeans⟩

theorem Token.Scans.splits (h : Token.Scans offset text ts) : Splits offset text ts [] := by
  induction h with
  | done => exact .stop
  | skip munch lexeme _ ih =>
    have longest := Lexeme.munch_longest munch
    rw [munch_append_eq munch] at longest ⊢
    exact .skip longest ((Pattern.ofLexeme?_eq_some longest.mem).mp lexeme) ih
  | token munch lexeme _ ih =>
    have longest := Lexeme.munch_longest munch
    rw [munch_append_eq munch] at longest ⊢
    exact .token longest ((Pattern.ofLexeme?_eq_some longest.mem).mp lexeme) ih

theorem Splits.scans (h : Splits offset text ts []) : Token.Scans offset text ts := by
  generalize hlast : [] = last at h
  induction h with
  | stop =>
    subst hlast
    exact .done
  | skip longest means _ ih =>
    obtain ⟨c, cs, l, htext, munch, lexeme⟩ := longest.munch means
    rw [htext]
    exact .skip munch lexeme (ih hlast)
  | token longest means _ ih =>
    obtain ⟨c, cs, l, htext, munch, lexeme⟩ := longest.munch means
    rw [htext]
    exact .token munch lexeme (ih hlast)

theorem Splits.suffix {last : List Char} (h : Splits offset text ts last) : last <:+ text := by
  induction h with
  | stop => exact List.suffix_rfl
  | skip _ _ _ ih => exact ih.trans (List.suffix_append _ _)
  | token _ _ _ ih => exact ih.trans (List.suffix_append _ _)

/-- No split goes past a place where the splitting cannot go on. -/
theorem Splits.suffix_of_stuck {last last' : List Char} {us : List (Located Token)}
    (hstuck : Stuck last) (h : Splits offset text ts last) (h' : Splits offset text us last') :
    last <:+ last' := by
  -- both splits take the same match first, as there is only one longest match
  have first : ∀ {offset chars rest P} {t : Option Token},
      Pattern.Longest (chars ++ rest) chars P → P.Means chars t →
      ∀ {ts}, Splits offset (chars ++ rest) ts last →
      ∃ vs, Splits (offset + byteSize chars) rest vs last := by
    intro offset chars rest P t longest means ts h
    generalize htext : chars ++ rest = text at longest h
    cases h with
    | stop => exact absurd means (hstuck _ _ _ longest)
    | skip longest' _ more =>
      obtain ⟨rfl, -⟩ := longest.unique longest'
      rw [List.append_cancel_left htext]
      exact ⟨_, more⟩
    | token longest' _ more =>
      obtain ⟨rfl, -⟩ := longest.unique longest'
      rw [List.append_cancel_left htext]
      exact ⟨_, more⟩
  induction h' generalizing ts with
  | stop => exact h.suffix
  | skip longest means _ ih =>
    obtain ⟨vs, hvs⟩ := first longest means h
    exact ih hvs
  | token longest means _ ih =>
    obtain ⟨vs, hvs⟩ := first longest means h
    exact ih hvs

theorem stuck_of_munch (h : Lexeme.munch c cs = none) : Stuck (c :: cs) :=
  fun _ _ _ longest _ => Lexeme.munch_eq_none h longest.mem longest.starts

theorem stuck_of_ofLexeme? (h : Lexeme.munch c cs = some (l, chars, rest))
    (hl : Token.ofLexeme? chars l = none) : Stuck (c :: cs) := by
  intro chars' P t longest means
  obtain ⟨rfl, rfl⟩ := longest.unique (Lexeme.munch_longest h)
  rw [(Pattern.ofLexeme?_eq_some longest.mem).mpr means] at hl
  cases hl

theorem Token.stuck_start (offset : Nat) (c : Char) (cs : List Char) :
    (Token.stuck offset c cs).span.start = offset := by
  unfold Token.stuck
  split <;> rfl

/-- A text splits down to a place where the splitting cannot go on, and this is where. -/
def StopsAt (offset : Nat) (text : List Char) (start : Nat) : Prop :=
  ∃ ts before rest, text = before ++ rest ∧ Splits offset text ts rest ∧ rest ≠ [] ∧ Stuck rest ∧
    start = offset + byteSize before

theorem Stuck.stopsAt (h : Stuck (c :: cs)) : StopsAt offset (c :: cs) offset :=
  ⟨[], [], c :: cs, rfl, .stop, List.cons_ne_nil c cs, h, rfl⟩

theorem StopsAt.after {P : Pattern} {t : Option Token} {start : Nat}
    (longest : Pattern.Longest (chars ++ rest) chars P) (means : P.Means chars t)
    (h : StopsAt (offset + byteSize chars) rest start) : StopsAt offset (chars ++ rest) start := by
  obtain ⟨ts, before, last, rfl, splits, hne, stuck, rfl⟩ := h
  have hsplits : ∃ us, Splits offset (chars ++ (before ++ last)) us last := by
    cases t with
    | none => exact ⟨_, .skip longest means splits⟩
    | some t => exact ⟨_, .token longest means splits⟩
  obtain ⟨us, hus⟩ := hsplits
  refine ⟨us, chars ++ before, last, (List.append_assoc ..).symm, hus, hne, stuck, ?_⟩
  rw [byteSize_append, Nat.add_assoc]

/-- An error is where the splitting cannot go on. -/
theorem Token.scanFrom_eq_error {fuel : Nat} {e : LexError}
    (h : Token.scanFrom fuel offset text = .error e) : StopsAt offset text e.span.start := by
  induction fuel generalizing offset text e with
  | zero => cases text <;> cases h
  | succ fuel ih =>
    cases text with
    | nil => cases h
    | cons c cs =>
      -- nothing matches, or the match stands for nothing, or the error comes after the match
      rw [Token.scanFrom] at h
      split at h
      · rename_i munch
        cases h
        rw [stuck_start]
        exact (stuck_of_munch munch).stopsAt
      · rename_i l chars rest munch
        have longest := Lexeme.munch_longest munch
        have means {t} := (Pattern.ofLexeme?_eq_some (t := t) longest.mem).mp
        have htext := munch_append_eq munch
        dsimp only at h
        split at h
        · rename_i lexeme
          cases h
          exact (stuck_of_ofLexeme? munch lexeme).stopsAt
        · rename_i lexeme
          rw [htext] at longest ⊢
          exact (ih h).after longest (means lexeme)
        · rename_i t lexeme
          rw [htext] at longest ⊢
          cases hrest : Token.scanFrom fuel (offset + byteSize chars) rest with
          | ok us =>
            rw [hrest] at h
            cases h
          | error e' =>
            rw [hrest] at h
            cases h
            exact (ih hrest).after longest (means lexeme)

end

/-! ### Tiling -/

/-- Runs of blanks and comments. -/
def Pattern.gaps : Language Char :=
  (blank.language + comment.language)∗

/-- Tokens that lie in a text one after another, none of them empty, with blanks and comments before,
between and behind them. -/
inductive Tiled : Nat → List Char → List (Located Token) → Prop
  | done {offset gap} (hgap : gap ∈ Pattern.gaps) : Tiled offset gap []
  | token {offset gap chars rest t ts} (hgap : gap ∈ Pattern.gaps) (hchars : chars ≠ [])
      (more : Tiled (offset + byteSize gap + byteSize chars) rest ts) :
      Tiled offset (gap ++ (chars ++ rest))
        (⟨t, ⟨offset + byteSize gap, offset + byteSize gap + byteSize chars⟩⟩ :: ts)

section

variable {offset : Nat} {text chars : List Char} {ts : List (Located Token)}

theorem Pattern.gaps_append {gap : List Char}
    (hchars : chars ∈ blank.language + comment.language) (hgap : gap ∈ gaps) :
    chars ++ gap ∈ gaps := by
  obtain ⟨L, rfl, hL⟩ := hgap
  exact ⟨chars :: L, rfl, List.forall_mem_cons.mpr ⟨hchars, hL⟩⟩

theorem Tiled.skip (hchars : chars ∈ Pattern.blank.language + Pattern.comment.language)
    (h : Tiled (offset + byteSize chars) text ts) : Tiled offset (chars ++ text) ts := by
  cases h with
  | done hgap => exact .done (Pattern.gaps_append hchars hgap)
  | token hgap hpiece more =>
    rw [Nat.add_assoc offset, ← byteSize_append] at more ⊢
    rw [← List.append_assoc]
    exact .token (Pattern.gaps_append hchars hgap) hpiece more

theorem Pattern.Longest.ne_nil {P : Pattern} (h : Longest text chars P) : chars ≠ [] := by
  obtain ⟨c, v, rfl, -⟩ := Pattern.initial_eq h.mem
  exact List.cons_ne_nil c v

theorem Splits.tiled (h : Splits offset text ts []) : Tiled offset text ts := by
  generalize hlast : [] = last at h
  induction h with
  | stop =>
    subst hlast
    exact .done (Language.nil_mem_kstar _)
  | skip longest means _ ih =>
    refine .skip ?_ (ih hlast)
    cases means with
    | blank => exact .inl longest.mem
    | comment => exact .inr longest.mem
  | token longest means _ ih =>
    have hnil : [] ∈ Pattern.gaps := Language.nil_mem_kstar _
    exact .token hnil longest.ne_nil (ih hlast)

/-- Where a token lies. -/
theorem Tiled.place (h : Tiled offset text ts) :
    ∀ t ∈ ts, ∃ before chars after, text = before ++ chars ++ after ∧ chars ≠ [] ∧
      t.span = ⟨offset + byteSize before, offset + byteSize (before ++ chars)⟩ := by
  induction h with
  | done => exact nofun
  | @token offset gap chars rest t ts hgap hchars _ ih =>
    refine List.forall_mem_cons.mpr ⟨⟨gap, chars, rest, (List.append_assoc ..).symm, hchars, ?_⟩, ?_⟩
    · rw [byteSize_append, ← Nat.add_assoc]
    · intro u hu
      obtain ⟨before, piece, after, rfl, hpiece, hspan⟩ := ih u hu
      refine ⟨gap ++ chars ++ before, piece, after, ?_, hpiece, ?_⟩
      · simp only [List.append_assoc]
      · rw [hspan]
        simp only [byteSize_append, Nat.add_assoc]

/-- Each token ends before the next ones start. -/
theorem Tiled.pairwise (h : Tiled offset text ts) :
    ts.Pairwise fun a b => a.span.stop ≤ b.span.start := by
  induction h with
  | done => exact .nil
  | token _ _ more ih =>
    refine .cons (fun u hu => ?_) ih
    obtain ⟨before, piece, after, -, -, hspan⟩ := more.place u hu
    rw [hspan]
    exact Nat.le_add_right _ _

end

theorem Token.byteSize_pos {cs : List Char} (hcs : cs ≠ []) : 0 < byteSize cs := by
  obtain ⟨c, cs, rfl⟩ := List.exists_cons_of_ne_nil hcs
  exact Nat.lt_of_lt_of_le c.utf8Size_pos (Nat.le_add_right _ _)

theorem Token.isValid_byteSize {source : String} {before rest : List Char}
    (h : source.toList = before ++ rest) : String.Pos.Raw.IsValid source ⟨byteSize before⟩ := by
  refine String.Pos.Raw.isValid_iff_exists_append.mpr
    ⟨String.ofList before, String.ofList rest, ?_, ?_⟩
  · rw [← String.ofList_append, ← h, String.ofList_toList]
  · have hsize := byteSize_toList (String.ofList before)
    rw [String.toList_ofList] at hsize
    rw [hsize]
    rfl

theorem tokenize_eq_ok {source : String} {ts : List (Located Token)} :
    tokenize source = .ok ts ↔ Splits 0 source.toList ts [] := by
  have hok : tokenize source = .ok ts ↔ Token.scan source = .ok ts := by
    unfold tokenize
    cases Token.scan source with
    | ok us =>
      constructor
      · rintro ⟨⟩
        rfl
      · rintro ⟨⟩
        rfl
    | error e => exact ⟨nofun, nofun⟩
  rw [hok, Token.scan_eq_ok]
  exact ⟨Token.Scans.splits, Splits.scans⟩

theorem scan_of_tokenize_eq_error {source : String} {e : CompileError}
    (h : tokenize source = .error e) :
    ∃ e', Token.scan source = .error e' ∧ e = .source .lexer e'.message e'.span := by
  unfold tokenize at h
  cases hscan : Token.scan source with
  | ok ts =>
    rw [hscan] at h
    cases h
  | error e' =>
    rw [hscan] at h
    cases h
    exact ⟨e', rfl, rfl⟩

/-- The span of a token is a part of the source that is not empty. -/
theorem Tiled.within {source : String} {ts : List (Located Token)} (h : Tiled 0 source.toList ts) :
    ∀ t ∈ ts, t.span.start < t.span.stop ∧ t.span.stop ≤ source.utf8ByteSize ∧
      String.Pos.Raw.IsValid source ⟨t.span.start⟩ ∧
      String.Pos.Raw.IsValid source ⟨t.span.stop⟩ := by
  intro t ht
  obtain ⟨before, chars, after, htext, hchars, hspan⟩ := h.place t ht
  have hpos := Token.byteSize_pos hchars
  have hsize := Token.byteSize_toList source
  rw [htext, byteSize_append] at hsize
  have hstart := Token.isValid_byteSize (htext.trans (List.append_assoc ..))
  have hstop := Token.isValid_byteSize htext
  rw [hspan, Nat.zero_add, Nat.zero_add]
  refine ⟨?_, ?_, hstart, hstop⟩
  · show byteSize before < byteSize (before ++ chars)
    rw [byteSize_append]
    exact Nat.lt_add_of_pos_right hpos
  · rw [← hsize]
    exact Nat.le_add_right _ _

/-- **The tokens of a source are its longest matches, and tile it.** A source has tokens just if it
splits into longest matches that stand for something, and they are the ones that are not skipped.
Their spans are not empty, come one after another and lie within the source, on boundaries of
characters; only blanks and comments stand outside them. An error is at the first place where the
splitting cannot go on. -/
theorem tokenize_tiles (source : String) :
    (∀ ts, tokenize source = .ok ts ↔ Splits 0 source.toList ts []) ∧
    (∀ ts, tokenize source = .ok ts →
      Tiled 0 source.toList ts ∧
      ts.Pairwise (fun a b => a.span.stop ≤ b.span.start) ∧
      ∀ t ∈ ts, t.span.start < t.span.stop ∧ t.span.stop ≤ source.utf8ByteSize ∧
        String.Pos.Raw.IsValid source ⟨t.span.start⟩ ∧
        String.Pos.Raw.IsValid source ⟨t.span.stop⟩) ∧
    (∀ e, tokenize source = .error e → ∃ ts before rest message stop,
      source.toList = before ++ rest ∧ Splits 0 source.toList ts rest ∧ rest ≠ [] ∧ Stuck rest ∧
      (∀ us last, Splits 0 source.toList us last → rest <:+ last) ∧
      e = .source .lexer message ⟨Token.byteSize before, stop⟩) := by
  refine ⟨fun ts => tokenize_eq_ok, fun ts h => ?_, fun e h => ?_⟩
  · have htiled := (tokenize_eq_ok.mp h).tiled
    exact ⟨htiled, htiled.pairwise, htiled.within⟩
  · obtain ⟨e', hscan, rfl⟩ := scan_of_tokenize_eq_error h
    obtain ⟨ts, before, rest, htext, splits, hne, stuck, hstart⟩ := Token.scanFrom_eq_error hscan
    refine ⟨ts, before, rest, e'.message, e'.span.stop, htext, splits, hne, stuck, ?_, ?_⟩
    · exact fun us last h' => splits.suffix_of_stuck stuck h'
    · rw [← Nat.zero_add (byteSize before), ← hstart]

theorem tokenize_tiles_keyword :
    (∃ ts, tokenize "iff if..//" = .ok ts ∧ ts.map (·.span) = [⟨0, 3⟩, ⟨4, 6⟩, ⟨6, 8⟩] ∧
      Tiled 0 "iff if..//".toList ts) ∧
    ∃ ts before rest, "x \"\\q\"".toList = before ++ rest ∧ Stuck rest ∧
      Splits 0 "x \"\\q\"".toList ts rest ∧ Token.byteSize before = 2 := by
  have herror : tokenize "x \"\\q\"" =
      .error (.source .lexer "malformed string literal: \"\\q\"" ⟨2, 6⟩) := rfl
  obtain ⟨ts, before, rest, message, stop, htext, splits, -, stuck, -, he⟩ :=
    (tokenize_tiles "x \"\\q\"").2.2 _ herror
  injection he with _ _ hspan
  refine ⟨⟨_, rfl, rfl, ((tokenize_tiles "iff if..//").2.1 _ rfl).1⟩, ts, before, rest, htext, stuck,
    splits, ?_⟩
  exact (Span.mk.inj hspan).1.symm

end Scriptlet
