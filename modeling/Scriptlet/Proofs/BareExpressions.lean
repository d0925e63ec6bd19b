import Scriptlet.Proofs.Reset
import Scriptlet.Proofs.Semicolon

/-!
Bare expressions.

An input that is no program is read once more with a semicolon behind it, and is evaluated if that
makes it an expression. The semicolon is put behind the text and not behind the tokens. Behind most
texts this is the same: no match takes the semicolon in (`Pattern.Longest.append_semicolon`), so it
is a token of its own (`Splits.append_semicolon`). But a text that ends in a comment has the same
tokens with it and without it (`Splits.semicolon_in_comment`).

So a session evaluates a bare expression unless a comment follows it up to the end of the input, and
then it rejects the input for the semicolon that is missing (`Session.eval_bareExpression`).
-/
namespace Scriptlet

/-! ### Text behind which a semicolon is put -/

/-- The longest match stays the longest when a semicolon follows the text, unless it is a comment
that goes up to the end. -/
theorem Pattern.Longest.append_semicolon {chars rest : List Char} {P : Pattern}
    (h : Longest (chars ++ rest) chars P) (hend : rest = [] → P ≠ comment) :
    Longest (chars ++ (rest ++ [';'])) chars P where
  starts := List.prefix_append chars (rest ++ [';'])
  mem := h.mem
  longest Q w hw hwt := by
    rw [← List.append_assoc] at hwt
    rcases List.prefix_concat_iff.mp hwt with rfl | hwt
    · -- a match that takes the semicolon in is a comment, and then the text before it is one
      rcases of_semicolon hw with ⟨-, hnil⟩ | ⟨-, hcomment⟩
      · exact absurd (List.append_eq_nil_iff.mp hnil).1 h.ne_nil
      · have hle := h.longest comment _ hcomment List.prefix_rfl
        rw [List.length_append] at hle
        have hrest : rest = [] := List.length_eq_zero_iff.mp (by omega)
        subst hrest
        rw [List.append_nil] at hcomment
        exact absurd (h.unique (longest_comment_whole hcomment)).2 (hend rfl)
    · exact h.longest Q w hw hwt
  priority := h.priority

/-- A source ends in a comment if it splits into tokens down to a comment that takes up the rest. -/
def EndsInComment (source : String) : Prop :=
  ∃ ts comment, Splits 0 source.toList ts comment ∧ comment ∈ Pattern.comment.language

theorem Splits.whole_comment {offset : Nat} {text : List Char}
    (h : text ∈ Pattern.comment.language) : Splits offset text [] [] := by
  have hskip : Splits offset (text ++ []) [] [] :=
    .skip (Pattern.longest_comment_whole h) .comment .stop
  rwa [List.append_nil] at hskip

/-- A semicolon behind a text that ends in a comment belongs to the comment. -/
theorem Splits.semicolon_in_comment {offset : Nat} {text comment : List Char}
    {ts : List (Located Token)} (h : Splits offset text ts comment)
    (hcomment : comment ∈ Pattern.comment.language) :
    Splits offset text ts [] ∧ Splits offset (text ++ [';']) ts [] := by
  -- what follows a match holds the comment, so no match but the comment is at the end
  have hne : ∀ {offset rest ts}, Splits offset rest ts comment → rest ≠ [] := by
    rintro offset rest ts more rfl
    have hnil := List.suffix_nil.mp more.suffix
    obtain ⟨v, hv, -⟩ := Pattern.mem_comment.mp hcomment
    cases hnil.symm.trans hv
  induction h with
  | stop =>
    obtain ⟨v, rfl, hv⟩ := Pattern.mem_comment.mp hcomment
    refine ⟨whole_comment hcomment, whole_comment (Pattern.mem_comment.mpr ⟨v ++ [';'], rfl, ?_⟩)⟩
    intro c hc
    rcases List.mem_append.mp hc with hc | hc
    · exact hv c hc
    · rw [List.mem_singleton.mp hc]
      decide
  | skip longest means more ih =>
    obtain ⟨hsplits, hsemicolon⟩ := ih hcomment hne
    have hlongest := longest.append_semicolon fun hrest => absurd hrest (hne more)
    rw [List.append_assoc]
    exact ⟨.skip longest means hsplits, .skip hlongest means hsemicolon⟩
  | token longest means more ih =>
    obtain ⟨hsplits, hsemicolon⟩ := ih hcomment hne
    have hlongest := longest.append_semicolon fun hrest => absurd hrest (hne more)
    rw [List.append_assoc]
    exact ⟨.token longest means hsplits, .token hlongest means hsemicolon⟩

/-- A semicolon behind a text is a token of its own, unless the text ends in a comment. -/
theorem Splits.append_semicolon {offset : Nat} {text last : List Char} {ts : List (Located Token)}
    (h : Splits offset text ts last) (hlast : last = []) :
    (∃ comment ∈ Pattern.comment.language, Splits offset text ts comment) ∨
      ∃ p, Splits offset (text ++ [';']) (ts ++ [⟨.symbol .semicolon, p⟩]) [] := by
  induction h with
  | @stop offset =>
    subst hlast
    have hlongest : Pattern.Longest ([';'] ++ []) [';'] (.symbol .semicolon) :=
      Pattern.longest_symbol (by decide) rfl
    have hsplits : Splits offset ([';'] ++ []) _ [] := .token hlongest .symbol .stop
    exact .inr ⟨_, hsplits⟩
  | @skip offset chars rest P ts last longest means more ih =>
    by_cases hend : rest = [] ∧ P = .comment
    · obtain ⟨rfl, rfl⟩ := hend
      rw [more.eq_nil, List.append_nil]
      exact .inl ⟨chars, longest.mem, .stop⟩
    · have hlongest := longest.append_semicolon fun hrest hP => hend ⟨hrest, hP⟩
      rcases ih hlast with ⟨comment, hcomment, hsplits⟩ | ⟨p, hsplits⟩
      · exact .inl ⟨comment, hcomment, .skip longest means hsplits⟩
      · rw [List.append_assoc]
        exact .inr ⟨p, .skip hlongest means hsplits⟩
  | @token offset chars rest P t ts last longest means more ih =>
    have hlongest := longest.append_semicolon fun _ hP => by
      subst hP
      cases means
    rcases ih hlast with ⟨comment, hcomment, hsplits⟩ | ⟨p, hsplits⟩
    · exact .inl ⟨comment, hcomment, .token longest means hsplits⟩
    · rw [List.append_assoc]
      exact .inr ⟨p, .token hlongest means hsplits⟩

/-! ### Sources behind which a semicolon is put -/

theorem tokenize_semicolon_eq_ok {source : String} {ts : List (Located Token)} :
    tokenize (source ++ ";") = .ok ts ↔ Splits 0 (source.toList ++ [';']) ts [] := by
  rw [tokenize_eq_ok, String.toList_append]
  rfl

/-- A source that ends in a comment is, with a semicolon behind it, what it is without. -/
theorem EndsInComment.tokenize_semicolon {source : String} (h : EndsInComment source)
    {ts : List (Located Token)} (hts : tokenize source = .ok ts) :
    tokenize (source ++ ";") = .ok ts := by
  obtain ⟨us, comment, hsplits, hcomment⟩ := h
  obtain ⟨hus, hsemicolon⟩ := hsplits.semicolon_in_comment hcomment
  cases hts.symm.trans (tokenize_eq_ok.mpr hus)
  exact tokenize_semicolon_eq_ok.mpr hsemicolon

/-- Any other source has one token more with a semicolon behind it. -/
theorem tokenize_semicolon {source : String} (h : ¬ EndsInComment source)
    {ts : List (Located Token)} (hts : tokenize source = .ok ts) :
    ∃ p, tokenize (source ++ ";") = .ok (ts ++ [⟨.symbol .semicolon, p⟩]) := by
  rcases (tokenize_eq_ok.mp hts).append_semicolon rfl with
    ⟨comment, hcomment, hsplits⟩ | ⟨p, hsplits⟩
  · exact absurd ⟨ts, comment, hsplits, hcomment⟩ h
  · exact ⟨p, tokenize_semicolon_eq_ok.mpr hsplits⟩

/-- Where the semicolon stands does not matter to the expression before it. -/
theorem Derives.move_semicolon {ts : List (Located Token)} {p span : Span} {e : Expr Unit}
    (h : Derives .statements (ts ++ [⟨.symbol .semicolon, p⟩]) [.expr span e]) (q : Span) :
    ∃ span', Derives .statements (ts ++ [⟨.symbol .semicolon, q⟩]) [.expr span' e] := by
  have hstatement : Derives .statement (ts ++ [⟨.symbol .semicolon, q⟩]) _ :=
    .expr h.of_semicolon rfl
  have hstatements := hstatement.next .done
  rw [List.append_nil] at hstatements
  exact ⟨_, hstatements⟩

/-- What the tokens of a source are with a semicolon behind them, the source is with one behind it,
unless it ends in a comment. -/
theorem Expr.ofSource?_eq_some {source : String} (hcomment : ¬ EndsInComment source)
    {ts : List (Located Token)} (hts : tokenize source = .ok ts) {size : Nat} {p span : Span}
    {e : Expr Unit}
    (he : Program.ofTokens size (ts ++ [⟨.symbol .semicolon, p⟩]) = .ok ⟨[.expr span e]⟩) :
    Expr.ofSource? source = some e := by
  obtain ⟨q, hq⟩ := tokenize_semicolon hcomment hts
  obtain ⟨span', hderives⟩ := (Program.ofTokens_eq_ok.mp he).move_semicolon q
  have hread : Program.ofTokens (source ++ ";").utf8ByteSize
      (ts ++ [⟨.symbol .semicolon, q⟩]) = .ok ⟨[.expr span' e]⟩ :=
    Program.ofTokens_eq_ok.mpr hderives
  rw [Expr.ofSource?, Program.ofSource_of_tokenize hq, hread]
  rfl

/-- A source that ends in a comment and is no program is no expression either. -/
theorem Expr.ofSource?_eq_none {source : String} (hcomment : EndsInComment source)
    {ts : List (Located Token)} (hts : tokenize source = .ok ts) {size : Nat} {error : ParseError}
    (hnot : Program.ofTokens size ts = .error error) : Expr.ofSource? source = none := by
  rw [Expr.ofSource?, Program.ofSource_of_tokenize (hcomment.tokenize_semicolon hts)]
  cases hread : Program.ofTokens (source ++ ";").utf8ByteSize ts with
  | ok p =>
    have hread : Program.ofTokens size ts = .ok p :=
      Program.ofTokens_eq_ok.mpr (Program.ofTokens_eq_ok.mp hread)
    cases hnot.symm.trans hread
  | error error => rfl

/-! ### Answers -/

/-- An expression that was evaluated has not been rejected. -/
theorem Reply.ofEval_ne_rejected (result : Except Stop Value) (error : CompileError) :
    ofEval result ≠ .rejected error := by
  intro h
  cases result with
  | error stop => cases h
  | ok v => cases v <;> cases h

namespace Session

variable {input : String} {ts : List (Located Token)} {error : ParseError}

/-- An input that ends in a comment and is no program is rejected, and the session stays. -/
theorem eval_of_endsInComment (hcomment : EndsInComment input) (hts : tokenize input = .ok ts)
    (hnot : Program.ofTokens input.utf8ByteSize ts = .error error) (s : Session) (fuel : Nat) :
    s.eval fuel input = (.rejected error.toCompileError, s) := by
  rw [Session.eval, Program.ofSource_of_tokenize hts, hnot]
  dsimp only [Except.mapError]
  rw [Expr.ofSource?_eq_none hcomment hts hnot]

/-- **A bare expression is evaluated, unless a comment follows it up to the end.** If the tokens of
an input are no program but are one expression statement with a semicolon behind them, a session
evaluates that expression in the global frame and answers with its value, or with what stopped it,
and never with an error of the input. But if the input ends in a comment, the session rejects it
with the error of the missing semicolon and stays as it was. -/
theorem eval_bareExpression (s : Session) (fuel : Nat) (hts : tokenize input = .ok ts)
    (hnot : Program.ofTokens input.utf8ByteSize ts = .error error) {size : Nat} {p span : Span}
    {e : Expr Unit}
    (he : Program.ofTokens size (ts ++ [⟨.symbol .semicolon, p⟩]) = .ok ⟨[.expr span e]⟩) :
    (¬ EndsInComment input →
      s.eval fuel input =
          (.ofEval (s.interpreter.eval fuel e).1, ⟨(s.interpreter.eval fuel e).2, s.warnings⟩) ∧
        ∀ error, (s.eval fuel input).1 ≠ .rejected error) ∧
    (EndsInComment input → s.eval fuel input = (.rejected error.toCompileError, s)) := by
  refine ⟨fun hcomment => ?_, fun hcomment => eval_of_endsInComment hcomment hts hnot s fuel⟩
  have heval : s.eval fuel input = s.evalExpr fuel e := by
    rw [Session.eval, Program.ofSource_of_tokenize hts, hnot]
    dsimp only [Except.mapError]
    rw [Expr.ofSource?_eq_some hcomment hts he]
  rw [heval, evalExpr_eq]
  exact ⟨rfl, Reply.ofEval_ne_rejected _⟩

/-- A comment behind an expression leaves its tokens as they are. -/
theorem exists_commented : ∃ ts error, tokenize "true // yes" = .ok ts ∧
    EndsInComment "true // yes" ∧
    Program.ofTokens "true // yes".utf8ByteSize ts = .error error ∧
    Program.ofTokens 12 (ts ++ [⟨.symbol .semicolon, ⟨11, 12⟩⟩]) =
      .ok ⟨[.expr ⟨0, 12⟩ (.bool ⟨0, 4⟩ true)]⟩ := by
  have hts : tokenize "true // yes" = .ok [⟨.keyword .true_, ⟨0, 4⟩⟩] := rfl
  have hsemicolon : tokenize "true // yes;" = .ok [⟨.keyword .true_, ⟨0, 4⟩⟩] := rfl
  refine ⟨_, _, hts, ?_, rfl, rfl⟩
  by_contra h
  obtain ⟨p, hp⟩ := tokenize_semicolon h hts
  cases hsemicolon.symm.trans hp

/-- The same expression, without and with a comment behind it. -/
theorem eval_bareExpression_true : ∃ s : Session, s = .new (.new 10 (.ofInput [])) ∧
    (¬ EndsInComment "true" ∧ (s.eval 5 "true").1 = .value (.bool true)) ∧
    EndsInComment "true // yes" ∧ (s.eval 5 "true // yes").2 = s ∧
      ∃ error, (s.eval 5 "true // yes").1 = .rejected error := by
  refine ⟨_, rfl, ?_⟩
  -- the session is kept from being run here
  generalize Session.new (.new 10 (.ofInput [])) = s
  have hts : tokenize "true" = .ok [⟨.keyword .true_, ⟨0, 4⟩⟩] := rfl
  have hsemicolon : tokenize "true;" =
      .ok [⟨.keyword .true_, ⟨0, 4⟩⟩, ⟨.symbol .semicolon, ⟨4, 5⟩⟩] := rfl
  have hnot : ¬ EndsInComment "true" := by
    intro h
    cases hsemicolon.symm.trans (h.tokenize_semicolon hts)
  have he : Program.ofTokens 5 ([⟨.keyword .true_, ⟨0, 4⟩⟩] ++ [⟨.symbol .semicolon, ⟨4, 5⟩⟩]) =
      .ok ⟨[.expr ⟨0, 5⟩ (.bool ⟨0, 4⟩ true)]⟩ := rfl
  have hvalue := ((eval_bareExpression s 5 hts rfl he).1 hnot).1
  obtain ⟨ts, error, hts, hends, hnone, he⟩ := exists_commented
  have hrejected := (eval_bareExpression s 5 hts hnone he).2 hends
  exact ⟨⟨hnot, congrArg Prod.fst hvalue⟩, hends, congrArg Prod.snd hrejected, _,
    congrArg Prod.fst hrejected⟩

/-- A bare expression may be rejected. -/
theorem bareExpression_rejected : ¬ ∀ (s : Session) (fuel : Nat) (input : String)
    (ts : List (Located Token)) (error : ParseError) (size : Nat) (p span : Span) (e : Expr Unit),
    tokenize input = .ok ts → Program.ofTokens input.utf8ByteSize ts = .error error →
    Program.ofTokens size (ts ++ [⟨.symbol .semicolon, p⟩]) = .ok ⟨[.expr span e]⟩ →
      s.eval fuel input =
          (.ofEval (s.interpreter.eval fuel e).1, ⟨(s.interpreter.eval fuel e).2, s.warnings⟩) ∧
        ∀ error, (s.eval fuel input).1 ≠ .rejected error := by
  intro h
  obtain ⟨ts, error, hts, hends, hnone, he⟩ := exists_commented
  have hnever := (h (.new (.new 10 (.ofInput []))) 5 _ ts error 12 _ _ _ hts hnone he).2
  rw [eval_of_endsInComment hends hts hnone] at hnever
  exact hnever _ rfl

end Session
end Scriptlet
