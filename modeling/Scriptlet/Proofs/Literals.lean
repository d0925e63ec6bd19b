import Scriptlet.Proofs.Data
import Scriptlet.Proofs.Grammar.Basic
import Scriptlet.Proofs.Numerals
import Scriptlet.Proofs.Scanning

/-!
Data read as source.

What is written for data is split into tokens that stand for an expression of literals, whatever
follows, as long as it begins with a comma, a closing bracket or a semicolon (`Data.reads`). Inside
quotes anything may stand: a quote or a backslash is escaped, and no other plain character ends a
literal or is taken for an escape.
-/
namespace Scriptlet

/-! ### Lexemes -/

namespace Lexeme

/-- What may follow a piece of data. -/
def Delimited (cs : List Char) : Prop :=
  ∃ c ds, cs = c :: ds ∧ c ∈ [',', ']', ';']

theorem symbol?_one {c : Char} {s : Symbol} (hc : c ∈ ['[', ']', ',', ';', '-'])
    (hs : symbolOne? c = some s) (cs : List Char) : symbol? c cs = some (s, [c], cs) := by
  cases cs with
  | nil =>
    rw [symbol?, hs]
    rfl
  | cons d cs =>
    have hnone : symbolTwo? c d = none := by
      simp only [List.mem_cons, List.not_mem_nil, or_false] at hc
      rcases hc with rfl | rfl | rfl | rfl | rfl <;> rfl
    rw [symbol?, hnone, hs]
    rfl

theorem munch_symbol {c : Char} {s : Symbol} (hc : c ∈ ['[', ']', ',', ';', '-'])
    (hs : symbolOne? c = some s) (cs : List Char) :
    munch c cs = some (.symbol s, [c], cs) := by
  have hother : ∀ c ∈ ['[', ']', ',', ';', '-'], isBlank c = false ∧ c ≠ '/' ∧
      c.isDigit = false ∧ isWordStart c = false ∧ c ≠ '"' := by
    intro c hc
    fin_cases hc <;> decide
  obtain ⟨hblank, hslash, hdigit, hword, hquote⟩ := hother c hc
  rw [munch, hblank, hdigit, hword, symbol?_one hc hs]
  simp [hslash, hquote]

/-- The words of data end where they are followed by what may follow. -/
theorem munch_word {c : Char} {cs rest : List Char} (hc : c ∈ ['n', 't', 'f'])
    (hcs : ∀ d ∈ cs, isWordPart d = true) (hrest : Delimited rest) :
    munch c (cs ++ rest) = some (.word, c :: cs, rest) := by
  have hother : ∀ c ∈ ['n', 't', 'f'], isBlank c = false ∧ c ≠ '/' ∧ c.isDigit = false ∧
      isWordStart c = true := by
    intro c hc
    fin_cases hc <;> decide
  have hpart : ∀ d ∈ [',', ']', ';'], isWordPart d = false := by
    intro d hd
    fin_cases hd <;> rfl
  obtain ⟨hblank, hslash, hdigit, hword⟩ := hother c hc
  obtain ⟨d, ds, rfl, hd⟩ := hrest
  have htake : (d :: ds).takeWhile isWordPart = [] := by simp [hpart d hd]
  have hdrop : (d :: ds).dropWhile isWordPart = d :: ds := by simp [hpart d hd]
  rw [munch, hblank, hdigit, hword, List.takeWhile_append_of_pos hcs,
    List.dropWhile_append_of_pos hcs, htake, hdrop, List.append_nil]
  simp [hslash]

/-- A numeral ends where it is followed by what may follow. -/
theorem numberTail_delimited {ds fs rest : List Char} (hds : ∀ c ∈ ds, c.isDigit = true)
    (hfs : ∀ c ∈ fs, c.isDigit = true) (hrest : Delimited rest) :
    numberTail (ds ++ rest) = (ds, rest) ∧
      (fs ≠ [] → numberTail (ds ++ '.' :: fs ++ rest) = (ds ++ '.' :: fs, rest)) := by
  have hother : ∀ d ∈ [',', ']', ';'], d.isDigit = false ∧ d ≠ '.' ∧ d ≠ 'e' ∧ d ≠ 'E' := by
    intro d hd
    fin_cases hd <;> decide
  obtain ⟨d, es, rfl, hd⟩ := hrest
  obtain ⟨hdigit, hpoint, he, hE⟩ := hother d hd
  have htake : (d :: es).takeWhile Char.isDigit = [] := by simp [hdigit]
  have hdrop : (d :: es).dropWhile Char.isDigit = d :: es := by simp [hdigit]
  refine ⟨?_, fun hne => ?_⟩
  · rw [numberTail, List.takeWhile_append_of_pos hds, List.dropWhile_append_of_pos hds, htake,
      hdrop, fraction_of_ne hpoint, List.append_nil]
    dsimp only
    rw [power_of_ne he hE, List.append_nil, List.append_nil]
  · obtain ⟨f, fs, rfl⟩ := List.exists_cons_of_ne_nil hne
    have hf : f.isDigit = true := hfs f List.mem_cons_self
    have hfs' : ∀ c ∈ fs, c.isDigit = true := fun c hc => hfs c (List.mem_cons_of_mem f hc)
    have hdot : ('.' :: f :: fs ++ d :: es).takeWhile Char.isDigit = [] := by
      simp [show '.'.isDigit = false by decide]
    have hdot' : ('.' :: f :: fs ++ d :: es).dropWhile Char.isDigit =
        '.' :: f :: (fs ++ d :: es) := by
      simp [show '.'.isDigit = false by decide]
    have hfraction : fraction ('.' :: f :: (fs ++ d :: es)) = ('.' :: f :: fs, d :: es) := by
      rw [fraction, if_pos hf, List.takeWhile_append_of_pos hfs', List.dropWhile_append_of_pos hfs',
        htake, hdrop, List.append_nil]
    rw [List.append_assoc, numberTail, List.takeWhile_append_of_pos hds,
      List.dropWhile_append_of_pos hds, hdot, hdot', hfraction, List.append_nil]
    dsimp only
    rw [power_of_ne he hE, List.append_nil]

theorem munch_numeral {cs rest : List Char} (hcs : Number.IsNumeral cs) (hrest : Delimited rest) :
    ∃ c ds, cs = c :: ds ∧ munch c (ds ++ rest) = some (.number, cs, rest) := by
  obtain ⟨whole, fraction, hne, hwhole, hfraction, hsplit⟩ := hcs
  obtain ⟨c, ds, rfl⟩ := List.exists_cons_of_ne_nil hne
  have hc : c.isDigit = true := hwhole c List.mem_cons_self
  have hds : ∀ d ∈ ds, d.isDigit = true := fun d hd => hwhole d (List.mem_cons_of_mem c hd)
  have hblank : isBlank c = false := by
    refine Bool.eq_false_iff.mpr fun hblank => ?_
    simp only [isBlank, Bool.or_eq_true, beq_iff_eq] at hblank
    rcases hblank with ((rfl | rfl) | rfl) | rfl <;> exact absurd hc (by decide)
  have hslash : c ≠ '/' := by
    rintro rfl
    exact absurd hc (by decide)
  have hmunch : ∀ {taken rest : List Char} (es : List Char), numberTail es = (taken, rest) →
      munch c es = some (.number, c :: taken, rest) := by
    intro taken rest es hes
    rw [munch, hblank, hc, hes]
    simp [hslash]
  obtain ⟨hplain, hpoint⟩ := numberTail_delimited hds hfraction hrest
  rcases hsplit with rfl | ⟨hfne, rfl⟩
  · exact ⟨c, ds, rfl, hmunch _ hplain⟩
  · exact ⟨c, ds ++ '.' :: fraction, rfl, hmunch _ (hpoint hfne)⟩

end Lexeme

/-! ### Quoted text -/

namespace Text

/-- A plain character is written as it is, and is then no quote and no backslash, or it is written
as an escape that stands for it. -/
theorem IsPlain.quoteChar_eq {c : Char} (hc : IsPlain c) :
    (quoteChar c = [c] ∧ c ≠ '"' ∧ c ≠ '\\') ∨
      ∃ e, quoteChar c = ['\\', e] ∧ e ≠ '\n' ∧ Token.escape? e = some c := by
  have hescape : ∀ e ∈ ['0', 't', 'r', 'n', '\\', '"'], e ≠ '\n' := by
    intro e he
    fin_cases he <;> decide
  rcases hc with hc | ⟨e, he, hc⟩
  · refine .inl ⟨hc, ?_, ?_⟩
    · rintro rfl
      exact absurd hc (by decide)
    · rintro rfl
      exact absurd hc (by decide)
  · refine .inr ⟨e, hc, hescape e he, ?_⟩
    unfold quoteChar at hc
    split at hc
    case h_7 =>
      -- what is written by its number is longer than an escape, and all else is shorter
      split at hc
      · have hlength := congrArg List.length hc
        simp at hlength
      · cases hc
    all_goals
      obtain rfl : _ = e := by simpa using hc
      rfl

theorem literalTail_quoteChars {cs : List Char} (hcs : ∀ c ∈ cs, IsPlain c) (rest : List Char) :
    Lexeme.literalTail (cs.flatMap quoteChar ++ '"' :: rest) =
      (cs.flatMap quoteChar ++ ['"'], rest, true) := by
  induction cs with
  | nil => rfl
  | cons c cs ih =>
    have hrest := ih fun d hd => hcs d (List.mem_cons_of_mem c hd)
    rw [List.flatMap_cons, List.append_assoc]
    rcases (hcs c List.mem_cons_self).quoteChar_eq with ⟨hquote, hne, hne'⟩ | ⟨e, hquote, hline, -⟩
    · rw [hquote, List.cons_append, List.nil_append, Lexeme.literalTail, hrest]
      · rfl
      · exact hne
      · exact fun heq _ => hne' heq
      · exact fun _ _ heq _ => hne' heq
    · rw [hquote, List.cons_append, List.cons_append, List.nil_append, Lexeme.literalTail,
        if_neg hline, hrest]
      rfl

theorem unescape?_quoteChars {cs : List Char} (hcs : ∀ c ∈ cs, IsPlain c) :
    Token.unescape? (cs.flatMap quoteChar ++ ['"']) = some cs := by
  induction cs with
  | nil => rfl
  | cons c cs ih =>
    have hrest := ih fun d hd => hcs d (List.mem_cons_of_mem c hd)
    rw [List.flatMap_cons, List.append_assoc]
    rcases (hcs c List.mem_cons_self).quoteChar_eq with ⟨hquote, hne, hne'⟩ | ⟨e, hquote, -, he⟩
    · rw [hquote, List.cons_append, List.nil_append, Token.unescape?, hrest]
      · rfl
      · exact fun heq _ => hne heq
      · exact fun _ _ heq _ => hne' heq
    · rw [hquote, List.cons_append, List.cons_append, List.nil_append, Token.unescape?, he, hrest]
      rfl

end Text

/-! ### Expressions of literals -/

mutual

/-- An expression of literals that stands for data; a negative number is a number behind a minus. -/
inductive Expr.Writes {φ : Type} : Expr φ → Data → Prop
  | nil {p : Span} : Writes (.nil p) .nil
  | bool {p : Span} {b : Bool} : Writes (.bool p b) (.bool b)
  | number {p : Span} {x : Float} : Writes (.number p x) (.float x)
  | negative {p q : Span} {x : Float} : Writes (.unary p .neg (.number q x)) (.float (-x))
  | text {p : Span} {cs : List Char} : Writes (.text p (String.ofList cs)) (.text cs)
  | array {p : Span} {es : List (Expr φ)} {ds : List Data} (items : Expr.WritesAll es ds) :
    Writes (.array p es) (.array ds)

inductive Expr.WritesAll {φ : Type} : List (Expr φ) → List Data → Prop
  | nil : WritesAll [] []
  | cons {e : Expr φ} {es : List (Expr φ)} {d : Data} {ds : List Data} (first : e.Writes d)
    (rest : WritesAll es ds) : WritesAll (e :: es) (d :: ds)

end

/-- An operand is an expression. -/
theorem Derives.expression {ts : List (Located Token)} {e : Expr Unit}
    (h : Derives (.expr .unary) ts e) : Derives (.expr .expression) ts e := by
  have hproduct : Derives (.expr (.chain .product)) ts e := .operand h
  have hsum : Derives (.expr (.chain .sum)) ts e := .operand hproduct
  have hcomparison : Derives (.expr (.chain .comparison)) ts e := .operand hsum
  have hequality : Derives (.expr (.chain .equality)) ts e := .operand hcomparison
  have hand : Derives (.expr (.chain .and)) ts e := .operand hequality
  have hor : Derives (.expr (.chain .or)) ts e := .operand hand
  exact .plain (.unconditional hor)

theorem Derives.ofPrimary {ts : List (Located Token)} {e : Expr Unit}
    (h : Derives (.expr .primary) ts e) : Derives (.expr .unary) ts e :=
  .suffixed (.primary h)

/-! ### Reading -/

namespace Token.Scans

variable {offset : Nat} {rest : List Char} {us : List (Located Token)}

theorem symbol {c : Char} {s : Symbol} (hc : c ∈ ['[', ']', ',', ';', '-'])
    (hs : Lexeme.symbolOne? c = some s) (h : Scans (offset + byteSize [c]) rest us) :
    Scans offset (c :: rest) (⟨.symbol s, ⟨offset, offset + byteSize [c]⟩⟩ :: us) :=
  .token (Lexeme.munch_symbol hc hs rest) rfl h

theorem word {c : Char} {cs : List Char} {k : Keyword} (hc : c ∈ ['n', 't', 'f'])
    (hcs : ∀ d ∈ cs, Lexeme.isWordPart d = true) (hk : ofWord (c :: cs) = .keyword k)
    (hrest : Lexeme.Delimited rest) (h : Scans (offset + byteSize (c :: cs)) rest us) :
    Scans offset (c :: cs ++ rest)
      (⟨.keyword k, ⟨offset, offset + byteSize (c :: cs)⟩⟩ :: us) :=
  .token (Lexeme.munch_word hc hcs hrest) (by rw [ofLexeme?, hk]) h

theorem numeral {cs : List Char} (hcs : Number.IsNumeral cs) (hrest : Lexeme.Delimited rest)
    (h : Scans (offset + byteSize cs) rest us) :
    Scans offset (cs ++ rest)
      (⟨.number (numberOf cs), ⟨offset, offset + byteSize cs⟩⟩ :: us) := by
  obtain ⟨c, ds, rfl, hmunch⟩ := Lexeme.munch_numeral hcs hrest
  exact .token hmunch rfl h

theorem quoted {cs : List Char} (hcs : ∀ c ∈ cs, Text.IsPlain c)
    (h : Scans (offset + byteSize (Text.quoteChars cs)) rest us) :
    Scans offset (Text.quoteChars cs ++ rest)
      (⟨.text (String.ofList cs), ⟨offset, offset + byteSize (Text.quoteChars cs)⟩⟩ :: us) := by
  have hmunch : Lexeme.munch '"' (cs.flatMap Text.quoteChar ++ '"' :: rest) =
      some (.literal, Text.quoteChars cs, rest) := by
    rw [Lexeme.munch, if_neg (by decide), if_neg (fun hc => absurd hc.1 (by decide)),
      if_neg (by decide), if_neg (by decide), if_pos rfl, Text.literalTail_quoteChars hcs]
    rfl
  have hlexeme : ofLexeme? (Text.quoteChars cs) .literal = some (some (.text (String.ofList cs))) := by
    rw [ofLexeme?, Text.quoteChars, List.cons_append, List.drop_one, List.tail_cons,
      Text.unescape?_quoteChars hcs]
    rfl
  have hscans := Scans.token hmunch hlexeme h
  rwa [Text.quoteChars, List.cons_append, List.cons_append, List.append_assoc]

end Token.Scans

namespace Data

open Lexeme Token

theorem delimited_writeMore {rest : List Char} (hrest : Delimited rest) (ds : List Data) :
    Delimited (writeMore ds ++ rest) := by
  cases ds with
  | nil => exact hrest
  | cons d ds => exact ⟨',', _, rfl, by decide⟩

theorem reads_float {x : Float} (hx : Number.isFinite x = true) {offset : Nat} {rest : List Char}
    {us : List (Located Token)} (hrest : Delimited rest)
    (h : Scans (offset + byteSize (Number.text x).toList) rest us) :
    ∃ ts e, Scans offset ((Number.text x).toList ++ rest) (ts ++ us) ∧
      Derives (.expr .unary) ts e ∧ e.Writes (.float x) := by
  rcases Number.text_reads hx with ⟨hnumeral, hread⟩ | ⟨cs, htext, hnumeral, hread⟩
  · refine ⟨[_], .number _ _, h.numeral hnumeral hrest, .ofPrimary .number, ?_⟩
    rw [hread]
    exact .number
  · rw [htext] at h ⊢
    rw [← List.singleton_append, byteSize_append, ← Nat.add_assoc] at h
    have hscans := (h.numeral hnumeral hrest).symbol (c := '-') (s := .minus) (by decide) rfl
    refine ⟨[_, _], .unary _ .neg (.number _ _), hscans, .unary rfl (.ofPrimary .number) rfl, ?_⟩
    rw [← hread]
    exact .negative

mutual

/-- **What is written for data is read as an expression of literals for it.** -/
theorem reads : (d : Data) → d.IsPlain → ∀ {offset : Nat} {rest : List Char}
    {us : List (Located Token)}, Delimited rest → Scans (offset + byteSize d.write) rest us →
    ∃ ts e, Scans offset (d.write ++ rest) (ts ++ us) ∧ Derives (.expr .unary) ts e ∧ e.Writes d
  | .nil, _, _, _, _, hrest, h =>
    ⟨[_], .nil _, h.word (by decide) (List.all_eq_true.mp rfl) rfl hrest, .ofPrimary .nilWord, .nil⟩
  | .bool true, _, _, _, _, hrest, h =>
    ⟨[_], .bool _ true, h.word (by decide) (List.all_eq_true.mp rfl) rfl hrest,
      .ofPrimary .trueWord, .bool⟩
  | .bool false, _, _, _, _, hrest, h =>
    ⟨[_], .bool _ false, h.word (by decide) (List.all_eq_true.mp rfl) rfl hrest,
      .ofPrimary .falseWord, .bool⟩
  | .float _, hd, _, _, _, hrest, h => reads_float hd hrest h
  | .text _, hd, _, _, _, _, h => ⟨[_], .text _ _, h.quoted hd, .ofPrimary .text, .text⟩
  | .array items, hd, offset, rest, us, hrest, h => by
    have hclose : Delimited (']' :: rest) := ⟨']', rest, rfl, by decide⟩
    have hend : Scans (offset + byteSize ['['] + byteSize (writeAll items) + byteSize [']']) rest
        us := by
      rw [write, ← List.singleton_append, byteSize_append, byteSize_append] at h
      simpa only [Nat.add_assoc] using h
    obtain ⟨ts, es, hscans, hderives, hwrites⟩ :=
      readsAll items hd hclose (hend.symbol (by decide) rfl)
    have hopen := hscans.symbol (c := '[') (s := .openBracket) (by decide) rfl
    rw [List.append_cons ts, ← @List.cons_append _ _ (ts ++ _) us] at hopen
    have hsplit : write (.array items) ++ rest = '[' :: (writeAll items ++ ']' :: rest) := by
      simp [write]
    rw [hsplit]
    exact ⟨_, _, hopen, .ofPrimary (.array hderives rfl), .array hwrites⟩
termination_by structural d => d

theorem readsAll : (ds : List Data) → ArePlain ds → ∀ {offset : Nat} {rest : List Char}
    {us : List (Located Token)}, Delimited rest → Scans (offset + byteSize (writeAll ds)) rest us →
    ∃ ts es, Scans offset (writeAll ds ++ rest) (ts ++ us) ∧ Derives .arguments ts es ∧
      Expr.WritesAll es ds
  | [], _, _, _, _, _, h => ⟨[], [], h, .noArguments, .nil⟩
  | d :: ds, hds, offset, rest, us, hrest, h => by
    rw [writeAll, byteSize_append, ← Nat.add_assoc] at h
    obtain ⟨ts, es, hmore, hderives, hwrites⟩ := readsMore ds hds.2 hrest h
    obtain ⟨ts', e, hscans, hderives', hwrites'⟩ :=
      reads d hds.1 (delimited_writeMore hrest ds) hmore
    refine ⟨ts' ++ ts, e :: es, ?_, .someArguments (hderives hderives'.expression),
      .cons hwrites' hwrites⟩
    rwa [writeAll, List.append_assoc, List.append_assoc]
termination_by structural ds => ds

/-- The items behind the first, with a comma before each. -/
theorem readsMore : (ds : List Data) → ArePlain ds → ∀ {offset : Nat} {rest : List Char}
    {us : List (Located Token)}, Delimited rest → Scans (offset + byteSize (writeMore ds)) rest us →
    ∃ ts es, Scans offset (writeMore ds ++ rest) (ts ++ us) ∧
      (∀ {ts' e}, Derives (.expr .expression) ts' e → Derives .expressions (ts' ++ ts) (e :: es)) ∧
      Expr.WritesAll es ds
  | [], _, _, _, _, _, h => by
    refine ⟨[], [], h, fun he => ?_, .nil⟩
    rw [List.append_nil]
    exact .lastExpr he
  | d :: ds, hds, offset, rest, us, hrest, h => by
    have hblank : ∀ c ∈ [' '], isBlank c = true := List.all_eq_true.mp rfl
    have hend : Scans (offset + byteSize [','] + byteSize [' '] + byteSize d.write +
        byteSize (writeMore ds)) rest us := by
      have hsplit : writeMore (d :: ds) = [','] ++ ([' '] ++ (d.write ++ writeMore ds)) := by
        rw [writeMore]
        rfl
      rw [hsplit, byteSize_append, byteSize_append, byteSize_append] at h
      simpa only [Nat.add_assoc] using h
    obtain ⟨ts, es, hmore, hderives, hwrites⟩ := readsMore ds hds.2 hrest hend
    obtain ⟨ts', e, hscans, hderives', hwrites'⟩ :=
      reads d hds.1 (delimited_writeMore hrest ds) hmore
    have hcomma := (hscans.prependBlanks hblank).symbol (c := ',') (s := .comma) (by decide) rfl
    rw [← List.append_assoc ts' ts us, ← @List.cons_append _ _ (ts' ++ ts) us] at hcomma
    have hsplit : writeMore (d :: ds) ++ rest =
        ',' :: ([' '] ++ (d.write ++ (writeMore ds ++ rest))) := by
      simp [writeMore]
    rw [hsplit]
    exact ⟨_, _, hcomma, fun he => .nextExpr he (hderives hderives'.expression),
      .cons hwrites' hwrites⟩
termination_by structural ds => ds

end

end Data
end Scriptlet
