import Scriptlet.Proofs.Grammar.Basic

/-!
Cursors that move over tokens.

`c.Reads ts d` says that `ts` are the next tokens at `c`, and that `d` is the cursor behind them.
Readings of one token are stated through it (`expect_eq_ok`, `name_eq_ok`), readings of several are
put together by `reads_append`, and `Reads.spanFrom_eq` is the span of the node that was read.
-/
namespace Scriptlet

theorem Reading.bind_eq_ok {α β : Type} {x : Reading α} {f : α → Reading β} {b : β} :
    (x >>= f) = .ok b ↔ ∃ a, x = .ok a ∧ f a = .ok b := by
  cases x with
  | error e => exact ⟨nofun, fun ⟨_, h, _⟩ => nomatch h⟩
  | ok a => exact ⟨fun h => ⟨a, rfl, h⟩, fun ⟨_, h, hb⟩ => by cases h; exact hb⟩

@[simp] theorem Reading.ok_bind {α β : Type} {a : α} {f : α → Reading β} :
    ((.ok a : Reading α) >>= f) = f a := rfl

namespace Cursor

/-- These are the next tokens, and the second cursor is behind them. -/
def Reads : Cursor → List (Located Token) → Cursor → Prop
  | c, [], d => d = c
  | c, t :: ts, d => c.rest.head? = some t ∧ c.advance.Reads ts d

variable {c d e : Cursor} {t : Located Token} {ts us : List (Located Token)}

@[simp] theorem reads_nil : c.Reads [] d ↔ d = c := Iff.rfl

@[simp] theorem reads_cons :
    c.Reads (t :: ts) d ↔ c.rest.head? = some t ∧ c.advance.Reads ts d := Iff.rfl

theorem reads_append : c.Reads (ts ++ us) e ↔ ∃ d, c.Reads ts d ∧ d.Reads us e := by
  induction ts generalizing c with
  | nil => simp
  | cons t ts ih => simp only [List.cons_append, reads_cons, ih, and_assoc, exists_and_left]

theorem Reads.cons (ht : c.rest.head? = some t) (h : c.advance.Reads ts d) : c.Reads (t :: ts) d :=
  ⟨ht, h⟩

theorem Reads.trans (h : c.Reads ts d) (h' : d.Reads us e) : c.Reads (ts ++ us) e :=
  reads_append.mpr ⟨d, h, h'⟩

theorem rest_eq_cons (h : c.rest.head? = some t) : c.rest = t :: c.advance.rest := by
  obtain ⟨size, last, rest⟩ := c
  cases rest with
  | nil => cases h
  | cons u rest => cases h; rfl

theorem Reads.rest_eq (h : c.Reads ts d) : c.rest = ts ++ d.rest := by
  induction ts generalizing c with
  | nil => rw [reads_nil.mp h]; rfl
  | cons t ts ih => rw [rest_eq_cons h.1, ih h.2]; rfl

/-- All tokens up to some of those that are left can be read. -/
theorem exists_reads (c : Cursor) (ts us : List (Located Token)) (h : c.rest = ts ++ us) :
    ∃ d, c.Reads ts d ∧ d.rest = us := by
  induction ts generalizing c with
  | nil => exact ⟨c, rfl, h⟩
  | cons t ts ih =>
    have ht : c.rest.head? = some t := by rw [h]; rfl
    have hrest : c.advance.rest = ts ++ us := by
      rw [rest_eq_cons ht] at h
      exact (List.cons.inj h).2
    obtain ⟨d, hd, hus⟩ := ih c.advance hrest
    exact ⟨d, ⟨ht, hd⟩, hus⟩

theorem peek_eq (h : c.rest.head? = some t) : c.peek = some t.val := by
  rw [peek, h]; rfl

theorem here_eq (h : c.rest.head? = some t) : c.here = t.span := by
  rw [here, rest_eq_cons h]

theorem reads_of_peek {v : Token} (h : c.peek = some v) : c.Reads [⟨v, c.here⟩] c.advance := by
  obtain ⟨t, ht, rfl⟩ := Option.map_eq_some_iff.mp h
  exact ⟨by rw [ht, here_eq ht], rfl⟩

theorem previous_advance (h : c.rest.head? = some t) : c.advance.previous = t.span := by
  rw [advance, rest_eq_cons h]

theorem size_advance : c.advance.size = c.size := by
  rw [advance]
  split <;> rfl

theorem Reads.previous_eq (h : c.Reads ts d) :
    d.previous = (ts.getLast?.map (·.span)).getD c.previous := by
  induction ts generalizing c with
  | nil => rw [reads_nil.mp h]; rfl
  | cons t ts ih =>
    rw [ih h.2, previous_advance h.1, List.getLast?_cons]
    cases ts.getLast? <;> rfl

/-- The span of a node that begins with the first token that is read. -/
theorem Reads.spanFrom_eq (h : c.Reads ts d) (hts : ts ≠ []) : d.spanFrom c.here = .across ts := by
  cases ts with
  | nil => exact absurd rfl hts
  | cons t ts =>
    rw [spanFrom, here_eq h.1, h.2.previous_eq, previous_advance h.1, Span.across]
    cases ts.getLast? <;> rfl

theorem Reads.spanFrom_singleton (h : c.Reads [t] d) : d.spanFrom c.here = t.span := by
  rw [h.spanFrom_eq (by simp), Span.across_singleton]

/-- The span of a node that ends with the last token that is read. -/
theorem Reads.spanFrom_of_last (h : c.Reads (ts ++ [t]) d) (start : Span) :
    d.spanFrom start = start.merge t.span := by
  rw [spanFrom, h.previous_eq, List.getLast?_concat]
  rfl

/-! ### One token -/

theorem atSymbol_iff {s : Symbol} :
    c.atSymbol s = true ↔ ∃ p, c.rest.head? = some ⟨.symbol s, p⟩ := by
  obtain ⟨size, last, rest⟩ := c
  cases rest with
  | nil => exact ⟨nofun, fun ⟨_, h⟩ => nomatch h⟩
  | cons t rest =>
    obtain ⟨v, p⟩ := t
    cases v <;> simp [atSymbol, peek, eq_comm]

theorem atKeyword_iff {k : Keyword} :
    c.atKeyword k = true ↔ ∃ p, c.rest.head? = some ⟨.keyword k, p⟩ := by
  obtain ⟨size, last, rest⟩ := c
  cases rest with
  | nil => exact ⟨nofun, fun ⟨_, h⟩ => nomatch h⟩
  | cons t rest =>
    obtain ⟨v, p⟩ := t
    cases v <;> simp [atKeyword, peek, eq_comm]

theorem expect_eq_ok {s : Symbol} {what : Expectation} :
    c.expect s what = .ok d ↔ ∃ p, c.Reads [⟨.symbol s, p⟩] d := by
  rw [expect]
  split
  · rename_i h
    obtain ⟨p, hp⟩ := atSymbol_iff.mp h
    exact ⟨fun hd => ⟨p, hp, (Except.ok.inj hd).symm⟩, fun ⟨_, _, hd⟩ => congrArg _ hd.symm⟩
  · rename_i h
    exact ⟨nofun, fun ⟨p, hp, _⟩ => absurd (atSymbol_iff.mpr ⟨p, hp⟩) h⟩

theorem name_eq_ok {x : Located String} {what : Expectation} :
    c.name what = .ok (x, d) ↔ c.Reads [⟨.name x.val, x.span⟩] d := by
  obtain ⟨size, last, rest⟩ := c
  cases rest with
  | nil => exact ⟨nofun, fun ⟨h, _⟩ => nomatch h⟩
  | cons t rest =>
    obtain ⟨v, p⟩ := t
    obtain ⟨x, q⟩ := x
    cases v <;> simp [name, peek, here, fail, eq_comm, and_assoc]

end Cursor
end Scriptlet
