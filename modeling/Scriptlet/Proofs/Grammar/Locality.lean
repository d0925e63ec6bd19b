import Scriptlet.Proofs.Grammar.Chains
import Scriptlet.Proofs.Grammar.Productions

/-!
Readings that look no further than the token where they end.

`Reading.Local p starts height Q other c x` relates what a reader gives at `c` to a production and to
what it gives elsewhere: at every cursor before the same tokens, up to the one where `x` ended, the
other readings end in the same way. So a refusal depends on the tokens up to the refused one only, and
the tokens before it begin the production. The lemmas follow how readers are put together: a token is
passed (`advance`), one reading goes on where another has ended (`bind`), and the next token decides
(`ite`).
-/
namespace Scriptlet

/-! ### Cursors that pass tokens -/

namespace Cursor

/-- The next tokens are these, wherever they stand, and the second cursor is behind them. -/
def Passes : Cursor → List Token → Cursor → Prop
  | c, [], d => d = c
  | c, v :: vs, d => c.peek = some v ∧ c.advance.Passes vs d

variable {c d e c' d' : Cursor} {v : Token} {vs us : List Token}

theorem passes_append : c.Passes (vs ++ us) e ↔ ∃ d, c.Passes vs d ∧ d.Passes us e := by
  induction vs generalizing c with
  | nil => simp [Passes]
  | cons v vs ih => simp [Passes, ih, and_assoc]

theorem Passes.trans (h : c.Passes vs d) (h' : d.Passes us e) : c.Passes (vs ++ us) e :=
  passes_append.mpr ⟨d, h, h'⟩

theorem length_advance (h : c.peek = some v) : c.rest.length = c.advance.rest.length + 1 := by
  obtain ⟨t, ht, -⟩ := Option.map_eq_some_iff.mp h
  rw [rest_eq_cons ht, List.length_cons]

theorem Passes.length_eq (h : c.Passes vs d) : c.rest.length = d.rest.length + vs.length := by
  induction vs generalizing c with
  | nil =>
    obtain rfl : d = c := h
    rfl
  | cons v vs ih =>
    rw [length_advance h.1, ih h.2, List.length_cons, Nat.add_assoc]

theorem passes_iff : c.Passes vs d ↔
    ∃ ts, ts.map (·.val) = vs ∧ c.Reads ts d := by
  induction vs generalizing c with
  | nil => simp [Passes]
  | cons v vs ih =>
    constructor
    · rintro ⟨hv, hvs⟩
      obtain ⟨ts, rfl, hts⟩ := ih.mp hvs
      exact ⟨⟨v, c.here⟩ :: ts, rfl, (reads_of_peek hv).trans hts⟩
    · rintro ⟨ts, hts, h⟩
      cases ts with
      | nil => cases hts
      | cons t ts =>
        obtain ⟨rfl, rfl⟩ := List.cons.inj hts
        exact ⟨peek_eq h.1, ih.mpr ⟨ts, rfl, h.2⟩⟩

/-- Cursors before the same tokens and the same next token see the same token. -/
theorem Passes.peek_eq (h : c.Passes vs d) (h' : c'.Passes vs d') (hd : d'.peek = d.peek) :
    c'.peek = c.peek := by
  cases vs with
  | nil =>
    obtain rfl : d = c := h
    obtain rfl : d' = c' := h'
    exact hd
  | cons v vs => rw [h.1, h'.1]

theorem Passes.peek_advance_eq (h : c.Passes vs d) (h' : c'.Passes vs d') (hd : d'.peek = d.peek)
    (hvs : vs ≠ []) : c'.advance.peek = c.advance.peek := by
  cases vs with
  | nil => exact absurd rfl hvs
  | cons v vs => exact h.2.peek_eq h'.2 hd

theorem rest_of_peek (h : c.peek = some v) : ∃ p ts, c.rest = ⟨v, p⟩ :: ts := by
  obtain ⟨t, ht, rfl⟩ := Option.map_eq_some_iff.mp h
  exact ⟨t.span, c.advance.rest, rest_eq_cons ht⟩

theorem rest_of_peeks {w : Token} (h : c.peek = some v) (h' : c.advance.peek = some w) :
    ∃ p q ts, c.rest = ⟨v, p⟩ :: ⟨w, q⟩ :: ts := by
  obtain ⟨t, ht, rfl⟩ := Option.map_eq_some_iff.mp h
  obtain ⟨q, ts, hts⟩ := rest_of_peek h'
  exact ⟨t.span, q, ts, by rw [rest_eq_cons ht, hts]⟩

theorem atSymbol_congr {s : Symbol} (h : c'.peek = c.peek) : c'.atSymbol s = c.atSymbol s := by
  rw [atSymbol, atSymbol, h]

theorem atKeyword_congr {k : Keyword} (h : c'.peek = c.peek) : c'.atKeyword k = c.atKeyword k := by
  rw [atKeyword, atKeyword, h]

theorem isEmpty_congr (h : c'.peek = c.peek) : c'.rest.isEmpty = c.rest.isEmpty := by
  have hpeek : ∀ c : Cursor, c.rest.isEmpty = c.peek.isNone := by
    intro c
    cases h : c.rest <;> simp [peek, h]
  rw [hpeek, hpeek, h]

theorem peek_of_atSymbol {s : Symbol} (h : c.atSymbol s = true) : c.peek = some (.symbol s) := by
  obtain ⟨p, hp⟩ := atSymbol_iff.mp h
  exact peek_eq hp

theorem peek_of_atKeyword {k : Keyword} (h : c.atKeyword k = true) : c.peek = some (.keyword k) := by
  obtain ⟨p, hp⟩ := atKeyword_iff.mp h
  exact peek_eq hp

end Cursor

/-! ### Local readings -/

/-- There is fuel for the tokens behind the cursor, and for `height` calls that pass none. -/
abbrev Cursor.Fueled (height fuel : Nat) (c : Cursor) : Prop :=
  32 * c.rest.length + height ≤ fuel

/-- A reading that keeps to the production and looks at no token behind the one where it ends. What
is read are tokens of the production. If it is refused, the tokens that were passed begin the
production; there are some, if the reading cannot be refused at its start. All of the other readings
that pass the same tokens and then see the same token end in the same way. The left side of an
assignment is checked late, so its refusal says nothing about the tokens. -/
inductive Reading.Local {ι α : Type} (p : Production) (starts : Prop) (height : Nat)
    (Q : α → α → Prop) (other : ι → Nat → Cursor → Reading (α × Cursor)) (c : Cursor) :
    Reading (α × Cursor) → Prop
  | ok {a : α} {d : Cursor} {vs : List Token} (passes : c.Passes vs d) (complete : p.Matches vs)
      (same : ∀ i fuel c' d', c'.Fueled height fuel → c'.Passes vs d' → d'.peek = d.peek →
        ∃ a', other i fuel c' = .ok (a', d') ∧ Q a a') :
      Local p starts height Q other c (.ok (a, d))
  | refused {what : Expectation} {d : Cursor} {vs : List Token} (passes : c.Passes vs d)
      (viable : p.Viable vs) (moves : starts → vs ≠ [])
      (same : ∀ i fuel c' d', c'.Fueled height fuel → c'.Passes vs d' → d'.peek = d.peek →
        other i fuel c' = d'.fail what) :
      Local p starts height Q other c (d.fail what)
  | target {span : Span} : Local p starts height Q other c (.error ⟨.invalidTarget, span⟩)

/-- Where one of the other readings started, and what it has read. -/
structure Past {α : Type} (ι : Type) (Q : α → α → Prop) (a : α) where
  index : ι
  start : Cursor
  val : α
  same : Q a val

namespace Reading.Local

variable {ι α β : Type} {p q : Production} {starts : Prop} {height : Nat} {Q : α → α → Prop}
  {Q' : β → β → Prop} {other other' : ι → Nat → Cursor → Reading (α × Cursor)} {c : Cursor}
  {x : Reading (α × Cursor)} {a : α} {what : Expectation}

theorem mono (h : Local p starts height Q other c x) (hpq : ∀ vs, p.Matches vs → q.Matches vs) :
    Local q starts height Q other c x := by
  cases h with
  | ok passes complete same => exact .ok passes (hpq _ complete) same
  | refused passes viable moves same => exact .refused passes (viable.mono hpq) moves same
  | target => exact .target

theorem phrase {n : Nonterminal} (h : Local n.production starts height Q other c x) :
    Local (.phrase n) starts height Q other c x :=
  h.mono fun _ => .phrase

theorem assoc {r : Production} (h : Local (.seq (.seq p q) r) starts height Q other c x) :
    Local (.seq p (.seq q r)) starts height Q other c x :=
  h.mono fun _ => .assoc

theorem last (h : Local p starts height Q other c x) :
    Local (.seq p .empty) starts height Q other c x :=
  h.mono fun _ => .last

/-- The other readings may be replaced by some that are the same behind the tokens that were passed. -/
theorem of_passes {starts' : Prop} (hstarts : starts' → starts)
    (heq : ∀ i fuel c' vs d d', c.Passes vs d → c'.Passes vs d' → d'.peek = d.peek →
      (vs = [] → p.Matches [] ∨ ¬ starts) → other' i fuel c' = other i fuel c')
    (h : Local p starts height Q other c x) : Local p starts' height Q other' c x := by
  cases h with
  | ok passes complete same =>
    refine .ok passes complete fun i fuel c' d' hfuel hpasses hd => ?_
    rw [heq i fuel c' _ _ _ passes hpasses hd (fun h => .inl (h ▸ complete))]
    exact same i fuel c' d' hfuel hpasses hd
  | refused passes viable moves same =>
    refine .refused passes viable (moves ∘ hstarts) fun i fuel c' d' hfuel hpasses hd => ?_
    rw [heq i fuel c' _ _ _ passes hpasses hd (fun h => .inr fun hs => moves hs h)]
    exact same i fuel c' d' hfuel hpasses hd
  | target => exact .target

/-- They may be the same only where the same token comes next. -/
theorem of_peek (heq : ∀ i fuel c', c'.peek = c.peek → other' i fuel c' = other i fuel c')
    (h : Local p starts height Q other c x) : Local p starts height Q other' c x :=
  h.of_passes id fun i fuel c' _ _ _ passes hpasses hd _ => heq i fuel c' (passes.peek_eq hpasses hd)

theorem of_rest {v : Token} (hv : c.peek = some v)
    (heq : ∀ i fuel c' p ts, c'.rest = ⟨v, p⟩ :: ts → other' i fuel c' = other i fuel c')
    (h : Local p starts height Q other c x) : Local p starts height Q other' c x := by
  refine of_peek (fun i fuel c' hc => ?_) h
  obtain ⟨p, ts, hrest⟩ := Cursor.rest_of_peek (hc.trans hv)
  exact heq i fuel c' p ts hrest

/-- They may be the same only where the same two tokens come next, if the first one is passed. -/
theorem of_peeks (hp : p.nullable = false)
    (heq : ∀ i fuel c', c'.peek = c.peek → (starts → c'.advance.peek = c.advance.peek) →
      other' i fuel c' = other i fuel c')
    (h : Local p starts height Q other c x) : Local p starts height Q other' c x := by
  refine h.of_passes id fun i fuel c' vs d d' passes hpasses hd hnil => ?_
  refine heq i fuel c' (passes.peek_eq hpasses hd) fun hs => passes.peek_advance_eq hpasses hd ?_
  intro hvs
  rcases hnil hvs with hmatches | hstarts
  · exact hmatches.ne_nil hp rfl
  · exact hstarts hs

/-- Nothing has to be passed. -/
theorem anyway (h : Local p starts height Q other c x) : Local p False height Q other c x :=
  h.of_passes False.elim fun _ _ _ _ _ _ _ _ _ _ => rfl

/-- The first call uses one unit of fuel. -/
theorem succ (h : Local p starts height Q (fun i fuel => other i (fuel + 1)) c x) :
    Local p starts (height + 1) Q other c x := by
  have hfuel : ∀ {fuel c'}, Cursor.Fueled (height + 1) fuel c' →
      ∃ k, fuel = k + 1 ∧ c'.Fueled height k :=
    fun {fuel c'} h => ⟨fuel - 1, by omega, by omega⟩
  cases h with
  | ok passes complete same =>
    refine .ok passes complete fun i fuel c' d' hf hpasses hd => ?_
    obtain ⟨k, rfl, hk⟩ := hfuel hf
    exact same i k c' d' hk hpasses hd
  | refused passes viable moves same =>
    refine .refused passes viable moves fun i fuel c' d' hf hpasses hd => ?_
    obtain ⟨k, rfl, hk⟩ := hfuel hf
    exact same i k c' d' hk hpasses hd
  | target => exact .target

/-- Nothing is read. -/
theorem here (hp : p.Matches [])
    (hother : ∀ i fuel c', c'.peek = c.peek → ∃ a', other i fuel c' = .ok (a', c') ∧ Q a a') :
    Local p starts height Q other c (.ok (a, c)) := by
  have passes : c.Passes [] c := rfl
  refine .ok passes hp fun i fuel c' d' _ hpasses hd => ?_
  obtain rfl : d' = c' := hpasses
  exact hother i fuel d' hd

/-- All is read. -/
theorem done {b : ι → Nat → Cursor → α} :
    Local .empty starts height (fun _ _ => True) (fun i fuel c' => .ok (b i fuel c', c')) c
      (.ok (a, c)) :=
  here .empty fun i fuel c' _ => ⟨b i fuel c', rfl, trivial⟩

theorem fail (hstarts : ¬ starts)
    (hother : ∀ i fuel c', c'.peek = c.peek → other i fuel c' = c'.fail what) :
    Local p starts height Q other c (c.fail what) := by
  have passes : c.Passes [] c := rfl
  refine .refused passes p.viable_nil (fun h => absurd h hstarts) ?_
  intro i fuel c' d' _ hpasses hd
  obtain rfl : d' = c' := hpasses
  exact hother i fuel d' hd

/-- A token is passed, and pays for more calls. -/
theorem advance {v : Token} {g : ι → Nat → Cursor → Cursor → Reading (α × Cursor)}
    (hv : c.peek = some v) (hp : p.Matches [v])
    (h : Local q False (height + 32) Q (fun (i : ι × Cursor) fuel d => g i.1 fuel i.2 d) c.advance x) :
    Local (.seq p q) starts height Q (fun i fuel c' => g i fuel c' c'.advance) c x := by
  have hfuel : ∀ {fuel c'}, Cursor.Fueled height fuel c' → c'.peek = some v →
      c'.advance.Fueled (height + 32) fuel := by
    intro fuel c' hf hv'
    have := Cursor.length_advance hv'
    omega
  cases h with
  | @ok a d vs passes complete same =>
    have passes' : c.Passes (v :: vs) d := ⟨hv, passes⟩
    refine .ok passes' (.seq hp complete) fun i fuel c' d' hf hpasses hd => ?_
    exact same (i, c') fuel c'.advance d' (hfuel hf hpasses.1) hpasses.2 hd
  | @refused what d vs passes viable moves same =>
    have passes' : c.Passes (v :: vs) d := ⟨hv, passes⟩
    refine .refused passes' (hp.seq_viable viable) (fun _ => List.cons_ne_nil v vs) ?_
    intro i fuel c' d' hf hpasses hd
    exact same (i, c') fuel c'.advance d' (hfuel hf hpasses.1) hpasses.2 hd
  | target => exact .target

/-- A choice by the next token. -/
theorem ite {b : Cursor → Bool} {y : Reading (α × Cursor)}
    (hb : ∀ c', c'.peek = c.peek → b c' = b c)
    (hx : b c = true → Local p starts height Q other c x)
    (hy : b c = false → Local p starts height Q other' c y) :
    Local p starts height Q (fun i fuel c' => if b c' then other i fuel c' else other' i fuel c') c
      (if b c then x else y) := by
  cases h : b c with
  | true => exact of_peek (fun i fuel c' hc => if_pos ((hb c' hc).trans h)) (hx h)
  | false =>
    exact of_peek (fun i fuel c' hc => if_neg (Bool.eq_false_iff.mp ((hb c' hc).trans h))) (hy h)

section bind

variable {f : α × Cursor → Reading (β × Cursor)}
  {g : ι → Nat → Cursor → α × Cursor → Reading (β × Cursor)} {l : Nat}

/-- One reading goes on where another has ended. It may use more calls there, if the first has passed
a token. -/
theorem bind_of (hx : Local p starts height Q other c x)
    (hl : ∀ vs, p.Matches vs → l ≤ height + 32 * vs.length) (hmoves : starts → p.nullable = false)
    (hf : ∀ a d vs, c.rest.length = d.rest.length + vs.length → p.Matches vs →
      Local q False l Q' (fun (i : Past ι Q a) fuel d' => g i.index fuel i.start (i.val, d')) d
        (f (a, d))) :
    Local (.seq p q) starts height Q' (fun i fuel c' => other i fuel c' >>= g i fuel c') c
      (x >>= f) := by
  cases hx with
  | target => exact .target
  | @refused what d vs passes viable moves same =>
    refine .refused passes (viable.seq q) moves fun i fuel c' d' hfuel hpasses hd => ?_
    rw [same i fuel c' d' hfuel hpasses hd]
    rfl
  | @ok a d vs passes complete same =>
    -- what another reading has passed, and where it goes on
    have hother : ∀ {i fuel c' us e e'}, Cursor.Fueled height fuel c' → d.Passes us e →
        c'.Passes (vs ++ us) e' → e'.peek = e.peek →
        ∃ d' a', other i fuel c' = .ok (a', d') ∧ Q a a' ∧ d'.Fueled l fuel ∧ d'.Passes us e' := by
      intro i fuel c' us e e' hfuel hpasses hpasses' he
      obtain ⟨d', hvs, hus⟩ := Cursor.passes_append.mp hpasses'
      obtain ⟨a', heq, ha⟩ := same i fuel c' d' hfuel hvs (hpasses.peek_eq hus he)
      have hlength := hvs.length_eq
      have hle := hl vs complete
      exact ⟨d', a', heq, ha, by omega, hus⟩
    have hnext := hf a d vs passes.length_eq complete
    show Local (.seq p q) starts height Q' (fun i fuel c' => other i fuel c' >>= g i fuel c') c
      (f (a, d))
    generalize f (a, d) = y at hnext ⊢
    cases hnext with
    | target => exact .target
    | ok passes' complete' same' =>
      refine .ok (passes.trans passes') (.seq complete complete') ?_
      intro i fuel c' e' hfuel hpasses he
      obtain ⟨d', a', heq, ha, hfuel', hpasses'⟩ := hother (i := i) hfuel passes' hpasses he
      rw [heq]
      exact same' ⟨i, c', a', ha⟩ fuel d' e' hfuel' hpasses' he
    | refused passes' viable' _ same' =>
      refine .refused (passes.trans passes') (complete.seq_viable viable') ?_ ?_
      · intro hs hnil
        exact complete.ne_nil (hmoves hs) (List.append_eq_nil_iff.mp hnil).1
      · intro i fuel c' e' hfuel hpasses he
        obtain ⟨d', a', heq, ha, hfuel', hpasses'⟩ := hother (i := i) hfuel passes' hpasses he
        rw [heq]
        exact same' ⟨i, c', a', ha⟩ fuel d' e' hfuel' hpasses' he

/-- The same, behind a reading that passes some token. -/
theorem bind (hx : Local p starts height Q other c x) (hp : p.nullable = false)
    (hf : ∀ a d, d.rest.length < c.rest.length → Local q False (height + 32) Q'
      (fun (i : Past ι Q a) fuel d' => g i.index fuel i.start (i.val, d')) d (f (a, d))) :
    Local (.seq p q) starts height Q' (fun i fuel c' => other i fuel c' >>= g i fuel c') c
      (x >>= f) := by
  have hpos : ∀ vs, p.Matches vs → 0 < vs.length :=
    fun vs h => List.length_pos_iff.mpr (h.ne_nil hp)
  refine hx.bind_of (l := height + 32) (fun vs h => ?_) (fun _ => hp) fun a d vs hlength h => ?_
  · have := hpos vs h
    omega
  · have := hpos vs h
    exact hf a d (by omega)

/-- The same, behind a reading that may pass none. -/
theorem bind_nullable (hx : Local p False height Q other c x)
    (hf : ∀ a d, d.rest.length ≤ c.rest.length → Local q False height Q'
      (fun (i : Past ι Q a) fuel d' => g i.index fuel i.start (i.val, d')) d (f (a, d))) :
    Local (.seq p q) False height Q' (fun i fuel c' => other i fuel c' >>= g i fuel c') c
      (x >>= f) := by
  refine hx.bind_of (fun vs _ => Nat.le_add_right height _) False.elim fun a d vs hlength _ => ?_
  exact hf a d (by omega)

end bind

/-! ### Single tokens -/

/-- One token is read. -/
theorem token {v : Token} (hv : c.peek = some v) (hp : p.Matches [v])
    (hother : ∀ i fuel c', c'.peek = some v → ∃ a', other i fuel c' = .ok (a', c'.advance) ∧ Q a a') :
    Local p starts height Q other c (.ok (a, c.advance)) := by
  have passes : c.Passes [v] c.advance := ⟨hv, rfl⟩
  refine .ok passes hp fun i fuel c' d' _ hpasses _ => ?_
  obtain ⟨hv', rfl⟩ := hpasses
  exact hother i fuel c' hv'

/-- A closing symbol comes next, and nothing has to be before it. -/
theorem close {s : Symbol} {b : ι → Nat → Cursor → α} (hs : c.atSymbol s = true)
    (hp : p.Matches []) :
    Local (.seq p (.seq (.symbol s) .empty)) starts height (fun _ _ => True)
      (fun i fuel c' => .ok (b i fuel c', c'.advance)) c (.ok (a, c.advance)) :=
  token (Cursor.peek_of_atSymbol hs) (hp.seq (.last .symbol)) fun i fuel c' _ =>
    ⟨b i fuel c', rfl, trivial⟩

theorem expect {s : Symbol} {f : Cursor → Reading (α × Cursor)}
    {g : ι → Nat → Cursor → Cursor → Reading (α × Cursor)}
    (h : c.advance.rest.length < c.rest.length → Local q False (height + 32) Q
      (fun (i : ι × Cursor) fuel d => g i.1 fuel i.2 d) c.advance (f c.advance)) :
    Local (.seq (.symbol s) q) False height Q (fun i fuel c' => c'.expect s what >>= g i fuel c') c
      (c.expect s what >>= f) := by
  cases hs : c.atSymbol s with
  | true =>
    have hv := Cursor.peek_of_atSymbol hs
    have hlength := Cursor.length_advance hv
    have heq : ∀ c', Cursor.peek c' = c.peek → c'.expect s what = .ok c'.advance :=
      fun c' h => if_pos ((Cursor.atSymbol_congr h).trans hs)
    rw [heq c rfl]
    refine of_peek (fun i fuel c' hc => ?_) (advance (g := g) hv .symbol (h (by omega)))
    rw [heq c' hc]
    rfl
  | false =>
    have heq : ∀ c', Cursor.peek c' = c.peek → c'.expect s what = c'.fail what :=
      fun c' h => if_neg (Bool.eq_false_iff.mp ((Cursor.atSymbol_congr h).trans hs))
    rw [heq c rfl]
    refine fail id fun i fuel c' hc => ?_
    rw [heq c' hc]
    rfl

theorem name :
    Local .name False height (fun _ _ => True) (fun (_ : ι) _ c' => c'.name what) c (c.name what) := by
  rw [Cursor.name]
  split
  · rename_i x hx
    exact token hx .name fun i fuel c' hx' => ⟨_, by rw [Cursor.name, hx'], trivial⟩
  · rename_i hx
    refine fail id fun i fuel c' hc => ?_
    rw [Cursor.name]
    split
    · rename_i x hx'
      exact absurd (hc.symm.trans hx') (hx x)
    · rfl

end Reading.Local
end Scriptlet
