import Mathlib
import Scriptlet.Proofs.Isolation
import Scriptlet.Proofs.Limits
import Scriptlet.Proofs.WholeNumbers

/-!
Loops over a range count exactly.

A loop over a range keeps its counter in the frame where it is executed, as a number that the body
can see and write. So long as each turn leaves the counter as it was, the counters are the first
bound and what is found from it by adding the step again and again, and this is exact among whole
numbers up to `2 ^ 53` (`Number.toInt?_add`). `RangeLoop.Turns` says that the body has been executed
once for each of a list of counters. A run of the loop is such turns, and then either the test fails
or the body leaves the loop (`RangeLoop.Turns.goes`).

* `RangeLoop.counts_exactly`: how often the body is executed and with which counters, and how the
  loop ends.
-/
namespace Scriptlet

open Filter

/-! ### Enough fuel -/

namespace Run

variable {α β : Type}

/-- A run that has ended ends in the same way with all greater fuel. -/
theorem eventually_eq (act : Nat → Run α)
    (hact : ∀ {m n}, m ≤ n → (act m).Extends (· = .outOfFuel) (act n)) {w : World}
    {r : EStateM.Result Stop World α} (hr : Settled r) (h : ∃ fuel, act fuel w = r) :
    ∀ᶠ fuel in atTop, act fuel w = r := by
  obtain ⟨fuel, rfl⟩ := h
  filter_upwards [eventually_ge_atTop fuel] with n hn
  rcases hact hn w with ⟨e, w', he, rfl⟩ | heq
  · exact absurd he (hr w')
  · exact heq

theorem settled_ok (x : α) (w : World) : Settled (.ok x w) := by
  intro w' h
  cases h

theorem bind_of_ok {act : Run α} {k : α → Run β} {w w' : World} {x : α} (h : act w = .ok x w') :
    (act >>= k) w = k x w' := by
  show EStateM.bind act k w = k x w'
  rw [EStateM.bind, h]

end Run

/-! ### Names that are bound and forgotten -/

theorem Frame.remove_add (a : Frame) (x : String) (b : Binding) :
    (a.add x b).remove x = a.remove x := by
  have hgo : ∀ bs : List (String × Binding),
      (Frame.add.go x b bs).filter (·.1 != x) = bs.filter (·.1 != x) := by
    intro bs
    induction bs with
    | nil => simp [Frame.add.go]
    | cons c bs ih =>
      rw [Frame.add.go]
      split
      · rename_i heq
        simp [heq]
      · rw [List.filter_cons, List.filter_cons, ih]
  rw [remove, remove, add, hgo]

theorem Scopes.remove_add (s : Scopes) (f : FrameId) (x : String) (b : Binding) :
    (s.add f x b).remove f x = s.remove f x := by
  have hframes : ((s.add f x b).remove f x).frames = (s.remove f x).frames := by
    refine Array.ext (by simp [remove, add, modify]) fun i hi hi' => ?_
    simp only [remove, add, modify, Array.getElem_modify]
    split
    · exact Frame.remove_add _ x b
    · rfl
  exact Scopes.ext hframes

/-! ### The parts of a loop -/

/-- How a loop ends if its body ends with this signal; it goes on otherwise. -/
def Signal.leaving? : Signal → Option Signal
  | .break => some .normal
  | .return v => some (.return v)
  | _ => none

/-- A loop over a range, and where it is executed. -/
structure RangeLoop where
  limit : Nat
  env : FrameId
  depth : Depth
  span : Span
  counter : Located String
  cmp : Located BinaryOp
  first : Expr FunctionId
  last : Expr FunctionId
  body : Block FunctionId
  ordered : cmp.val ∈ [BinaryOp.lt, .le, .gt, .ge]

namespace RangeLoop

variable (L : RangeLoop)

def stmt : Stmt FunctionId :=
  .range L.span L.counter L.cmp L.first L.last L.body

/-- The difference between a counter and the next: `<` and `<=` count up, `>` and `>=` down. -/
def stride : Int :=
  match L.cmp.val with
  | .lt | .le => 1
  | _ => -1

/-- The same as a number of the language. -/
def step : Float :=
  match L.cmp.val with
  | .lt | .le => 1
  | _ => -1

def includesLast : Bool :=
  match L.cmp.val with
  | .le | .ge => true
  | _ => false

/-- How many counters there are from `a` to `b`. -/
def count (a b : Int) : Nat :=
  (b - a).natAbs + if L.includesLast then 1 else 0

/-- The world with the counter bound to a number, whatever it was bound to. -/
def bind (i : Float) (w : World) : World :=
  { w with scopes := w.scopes.add L.env L.counter.val ⟨.float i, true⟩ }

/-- The world with the counter bound no longer. -/
def forget (w : World) : World :=
  { w with scopes := w.scopes.remove L.env L.counter.val }

/-- What the counter is bound to in the frame of the loop. -/
def value? (w : World) : Option Value :=
  (w.scopes.find? L.env L.counter.val).map Binding.value

/-- The bounds are evaluated to two numbers, one after the other. -/
def Bounds (w : World) (i j : Float) (w' : World) : Prop :=
  ∃ v, (∃ fuel, eval L.limit fuel L.env L.depth L.first w = .ok (.float i) v) ∧
    ∃ fuel, eval L.limit fuel L.env L.depth L.last v = .ok (.float j) w'

/-- The body is executed with a counter, and ends with a signal. -/
def Executes (i : Float) (w : World) (s : Signal) (w' : World) : Prop :=
  ∃ fuel, execBlock L.limit fuel L.env L.depth.enterLoop L.body (L.bind i w) = .ok s w'

/-- The body is executed with a counter, which it leaves as it was, and does not end the loop. -/
def Turn (i : Float) (w w' : World) : Prop :=
  ∃ s, L.Executes i w s w' ∧ (s = .normal ∨ s = .continue) ∧ L.value? w' = some (.float i)

/-- There is one turn for each of these counters, in this order, and no other. -/
inductive Turns : List Float → World → World → Prop
  | nil (w : World) : Turns [] w w
  | cons {i : Float} {is : List Float} {w v u : World} (turn : L.Turn i w v)
      (turns : Turns is v u) : Turns (i :: is) w u

/-- The turns of the loop, up to `last`, end with a signal. -/
def Goes (last : Float) (w : World) (s : Signal) (w' : World) : Prop :=
  ∃ fuel, execRange L.limit fuel L.env L.depth L.counter L.cmp.val last L.step L.body w = .ok s w'

/-- The loop ends so. -/
def Ends (w : World) (e : Ending) (w' : World) : Prop :=
  ∃ fuel, exec L.limit fuel L.env L.depth L.stmt w = e.result w'

/-- The loop ends so, and in no other way. -/
def EndsOnly (w : World) (e : Ending) (w' : World) : Prop :=
  ∀ d v, L.Ends w d v ↔ d = e ∧ v = w'

variable {L} {w w' u v : World} {i j : Float} {s : Signal}

theorem Ends.endsOnly {e : Ending} (h : L.Ends w e w') : L.EndsOnly w e w' := by
  have heventually : ∀ {d u}, L.Ends w d u → ∀ᶠ fuel in atTop,
      exec L.limit fuel L.env L.depth L.stmt w = d.result u := by
    intro d u hd
    exact Run.eventually_eq (fun fuel => exec L.limit fuel L.env L.depth L.stmt)
      (fun hle => (Task.exec L.env L.depth L.stmt).run_extends (excuses_outOfFuel L.limit) hle)
      (d.settled_result u) hd
  intro d v
  constructor
  · intro hd
    obtain ⟨fuel, hfuel, hfuel'⟩ := ((heventually hd).and (heventually h)).exists
    exact Ending.result_inj (hfuel.symm.trans hfuel')
  · rintro ⟨rfl, rfl⟩
    exact h

/-! ### The counter -/

theorem value?_bind (hw : L.env < w.scopes.shape.length) :
    L.value? (L.bind i w) = some (.float i) := by
  show ((w.scopes.add L.env L.counter.val ⟨.float i, true⟩).find? _ _).map Binding.value = _
  rw [Scopes.find?_add, if_pos ⟨rfl, hw, rfl⟩]
  rfl

theorem lt_of_value? {x : Value} (h : L.value? w = some x) : L.env < w.scopes.shape.length := by
  obtain ⟨b, hb, -⟩ := Option.map_eq_some_iff.mp h
  exact Scopes.lt_of_find? hb

theorem find?_forget (w : World) : (L.forget w).scopes.find? L.env L.counter.val = none := by
  show (w.scopes.remove L.env L.counter.val).find? _ _ = none
  rw [Scopes.find?_remove]
  split
  · rfl
  · rename_i hout
    rw [Option.eq_none_iff_forall_ne_some]
    intro b hb
    exact hout ⟨rfl, Scopes.lt_of_find? hb, rfl⟩

theorem forget_bind (i : Float) (w : World) : L.forget (L.bind i w) = L.forget w := by
  have hremove := w.scopes.remove_add L.env L.counter.val ⟨.float i, true⟩
  exact congrArg (fun scopes => ({ w with scopes } : World)) hremove

theorem rangeCounter_eq (h : L.value? w = some (.float i)) :
    Run.rangeCounter L.env L.counter w = .ok i w := by
  have hscopes : Run.scopes w = .ok w.scopes w := rfl
  have hvalue : (w.scopes.find? L.env L.counter.val).map Binding.value = some (.float i) := h
  rw [Run.rangeCounter, Run.bind_of_ok hscopes, hvalue]
  rfl

/-! ### Turns -/

theorem Executes.eventually (h : L.Executes i w s w') : ∀ᶠ fuel in atTop,
    execBlock L.limit fuel L.env L.depth.enterLoop L.body (L.bind i w) = .ok s w' :=
  Run.eventually_eq (fun fuel => execBlock L.limit fuel L.env L.depth.enterLoop L.body)
    (fun hle => (Task.execBlock L.env L.depth.enterLoop L.body).run_extends
      (excuses_outOfFuel L.limit) hle)
    (Run.settled_ok s w') h

theorem Goes.eventually (h : L.Goes j w s w') : ∀ᶠ fuel in atTop,
    execRange L.limit fuel L.env L.depth L.counter L.cmp.val j L.step L.body w = .ok s w' :=
  Run.eventually_eq
    (fun fuel => execRange L.limit fuel L.env L.depth L.counter L.cmp.val j L.step L.body)
    (fun hle => (Task.execRange L.env L.depth L.counter L.cmp.val j L.step L.body).run_extends
      (excuses_outOfFuel L.limit) hle)
    (Run.settled_ok s w') h

section

variable (hw : L.env < w.scopes.shape.length)

include hw

/-- Past the last counter the turns have ended. -/
theorem goes_stop (htest : Run.compare L.cmp.val i j = false) :
    L.Goes j (L.bind i w) .normal (L.bind i w) := by
  refine ⟨1, ?_⟩
  rw [execRange, Run.bind_of_ok (rangeCounter_eq (value?_bind hw)), htest]
  rfl

/-- A turn is followed by those from the next counter on. -/
theorem Turn.goes (hturn : L.Turn i w v) (htest : Run.compare L.cmp.val i j = true)
    (hrest : L.Goes j (L.bind (i + L.step) v) s u) : L.Goes j (L.bind i w) s u := by
  obtain ⟨t, hbody, ht, hvalue⟩ := hturn
  -- fuel that is enough for the body and for the turns after it
  obtain ⟨fuel, hbody, hrest⟩ := (hbody.eventually.and hrest.eventually).exists
  refine ⟨fuel + 1, ?_⟩
  rw [execRange, Run.bind_of_ok (rangeCounter_eq (value?_bind hw)), htest, if_pos rfl,
    Run.bind_of_ok hbody]
  -- the step is added to what the body has left in the counter
  rcases ht with rfl | rfl
  · dsimp only
    rw [Run.bind_of_ok (rangeCounter_eq hvalue)]
    exact hrest
  · dsimp only
    rw [Run.bind_of_ok (rangeCounter_eq hvalue)]
    exact hrest

/-- The turns end with a body that leaves the loop. -/
theorem Executes.goes {t : Signal} (hbody : L.Executes i w t v)
    (htest : Run.compare L.cmp.val i j = true) (hs : t.leaving? = some s) :
    L.Goes j (L.bind i w) s v := by
  obtain ⟨fuel, hbody⟩ := hbody
  refine ⟨fuel + 1, ?_⟩
  rw [execRange, Run.bind_of_ok (rangeCounter_eq (value?_bind hw)), htest, if_pos rfl,
    Run.bind_of_ok hbody]
  cases t <;> cases hs <;> rfl

end

theorem Turn.lt (h : L.Turn i w v) : L.env < v.scopes.shape.length := by
  obtain ⟨-, -, -, hvalue⟩ := h
  exact lt_of_value? hvalue

theorem Turns.lt {is : List Float} (h : L.Turns is w u) (hw : L.env < w.scopes.shape.length) :
    L.env < u.scopes.shape.length := by
  induction h with
  | nil => exact hw
  | cons turn _ ih => exact ih turn.lt

theorem Turns.concat {is : List Float} (h : L.Turns is w u) (hturn : L.Turn i u v) :
    L.Turns (is ++ [i]) w v := by
  induction h with
  | nil => exact .cons hturn (.nil v)
  | cons turn _ ih => exact .cons turn (ih hturn)

/-- Turns that can always be followed by one more go through all counters. -/
theorem exists_turns {is : List Float}
    (hnext : ∀ k i u, is[k]? = some i → L.Turns (is.take k) w u → ∃ v, L.Turn i u v) :
    ∃ u, L.Turns is w u := by
  have hall : ∀ k ≤ is.length, ∃ u, L.Turns (is.take k) w u := by
    intro k
    induction k with
    | zero => exact fun _ => ⟨w, .nil w⟩
    | succ k ih =>
      intro hk
      obtain ⟨u, hu⟩ := ih (Nat.le_of_succ_le hk)
      have hget : is[k]? = some is[k] := List.getElem?_eq_getElem hk
      obtain ⟨v, hv⟩ := hnext k is[k] u hget hu
      refine ⟨v, ?_⟩
      rw [List.take_add_one, hget]
      exact hu.concat hv
  obtain ⟨u, hu⟩ := hall is.length (Nat.le_refl _)
  rw [List.take_length] at hu
  exact ⟨u, hu⟩

/-- **Turns with counters that pass the test go on with the next counter.** -/
theorem Turns.goes {k : Nat} (hturns : L.Turns (List.iterate (· + L.step) i k) w u)
    (hw : L.env < w.scopes.shape.length)
    (htest : ∀ m < k, Run.compare L.cmp.val ((· + L.step)^[m] i) j = true)
    (hrest : L.Goes j (L.bind ((· + L.step)^[k] i) u) s v) : L.Goes j (L.bind i w) s v := by
  -- on the number of turns, from the first on, so that what is left is the same loop again
  induction k generalizing i w with
  | zero =>
    cases hturns
    exact hrest
  | succ k ih =>
    cases hturns with
    | cons turn turns =>
      refine turn.goes hw (htest 0 (Nat.succ_pos k)) (ih turns turn.lt ?_ hrest)
      intro m hm
      exact htest (m + 1) (Nat.succ_lt_succ hm)

/-! ### Bounds -/

/-- The four comparisons. -/
theorem cmp_cases (L : RangeLoop) :
    (L.cmp.val = .lt ∧ L.stride = 1 ∧ L.step = 1 ∧ L.includesLast = false) ∨
    (L.cmp.val = .le ∧ L.stride = 1 ∧ L.step = 1 ∧ L.includesLast = true) ∨
    (L.cmp.val = .gt ∧ L.stride = -1 ∧ L.step = -1 ∧ L.includesLast = false) ∨
    (L.cmp.val = .ge ∧ L.stride = -1 ∧ L.step = -1 ∧ L.includesLast = true) := by
  have hcmp : L.cmp.val = .lt ∨ L.cmp.val = .le ∨ L.cmp.val = .gt ∨ L.cmp.val = .ge := by
    simpa using L.ordered
  rcases hcmp with h | h | h | h <;> simp [stride, step, includesLast, h]

theorem toInt?_step (L : RangeLoop) : Number.toInt? L.step = some L.stride := by
  have hup : Number.toInt? 1 = some 1 := by decide +kernel
  have hdown : Number.toInt? (-1) = some (-1) := by decide +kernel
  rcases L.cmp_cases with ⟨-, h, h', -⟩ | ⟨-, h, h', -⟩ | ⟨-, h, h', -⟩ | ⟨-, h, h', -⟩
  · rw [h, h', hup]
  · rw [h, h', hup]
  · rw [h, h', hdown]
  · rw [h, h', hdown]

theorem Bounds.eventually (h : L.Bounds w i j w') :
    ∃ v, (∀ᶠ fuel in atTop, eval L.limit fuel L.env L.depth L.first w = .ok (.float i) v) ∧
      ∀ᶠ fuel in atTop, eval L.limit fuel L.env L.depth L.last v = .ok (.float j) w' := by
  obtain ⟨v, hfirst, hlast⟩ := h
  have heventually : ∀ {e : Expr FunctionId} {x u u'},
      (∃ fuel, eval L.limit fuel L.env L.depth e u = .ok x u') →
        ∀ᶠ fuel in atTop, eval L.limit fuel L.env L.depth e u = .ok x u' := by
    intro e x u u' h
    exact Run.eventually_eq (fun fuel => eval L.limit fuel L.env L.depth e)
      (fun hle => (Task.eval L.env L.depth e).run_extends (excuses_outOfFuel L.limit) hle)
      (Run.settled_ok x u') h
  exact ⟨v, heventually hfirst, heventually hlast⟩

theorem Bounds.shape_eq (h : L.Bounds w i j w') : w'.scopes.shape = w.scopes.shape := by
  obtain ⟨v, ⟨m, hfirst⟩, n, hlast⟩ := h
  rw [Task.shape_run (t := .eval L.env L.depth L.last) hlast,
    Task.shape_run (t := .eval L.env L.depth L.first) hfirst]

section

variable {a b : Int} (ha : Number.toInt? i = some a) (hb : Number.toInt? j = some b)

theorem rangeBound_eq (ha : Number.toInt? i = some a) (span : Span) (w : World) :
    Run.rangeBound (.float i) span w = .ok i w := by
  have hwhole : Number.isWhole i = true := by rw [Number.isWhole, ha]; rfl
  rw [Run.rangeBound, if_pos hwhole]
  rfl

include ha hb

/-- The step of the loop is taken if it leads from one bound towards the other. -/
theorem rangeStep_eq (span : Span) :
    Run.rangeStep L.cmp i j span =
      if L.stride * (b - a) < 0 then Run.fault (.rangeDirection (L.stride = 1) i j) span
      else pure L.step := by
  have hlt := Number.lt_iff_of_toInt? ha hb
  have hgt := Number.lt_iff_of_toInt? hb ha
  rw [Run.rangeStep]
  rcases L.cmp_cases with ⟨hc, hd, hs, -⟩ | ⟨hc, hd, hs, -⟩ | ⟨hc, hd, hs, -⟩ | ⟨hc, hd, hs, -⟩ <;>
    rw [hc, hd, hs]
  · exact if_congr (hgt.trans (by omega)) rfl rfl
  · exact if_congr (hgt.trans (by omega)) rfl rfl
  · exact if_congr (hlt.trans (by omega)) rfl rfl
  · exact if_congr (hlt.trans (by omega)) rfl rfl

/-- The loop is what follows the evaluation of its bounds. -/
theorem exec_stmt_eq {fuel : Nat}
    (hfirst : eval L.limit fuel L.env L.depth L.first w = .ok (.float i) v)
    (hlast : eval L.limit fuel L.env L.depth L.last v = .ok (.float j) w') :
    exec L.limit (fuel + 1) L.env L.depth L.stmt w =
      if L.stride * (b - a) < 0 then
        .error (.fault ⟨.rangeDirection (L.stride = 1) i j, L.first.span.merge L.last.span⟩) w'
      else
        Run.ensuring (execRange L.limit fuel L.env L.depth L.counter L.cmp.val j L.step L.body)
          L.forget (L.bind i w') := by
  rw [stmt, exec, Run.bind_of_ok hfirst, Run.bind_of_ok (rangeBound_eq ha _ _),
    Run.bind_of_ok hlast, Run.bind_of_ok (rangeBound_eq hb _ _), rangeStep_eq ha hb]
  split
  · rfl
  · rfl

/-- What the turns come to is what the loop comes to. -/
theorem Goes.ends (hbounds : L.Bounds w i j w') (hdirection : 0 ≤ L.stride * (b - a))
    (hgoes : L.Goes j (L.bind i w') s u) : L.Ends w (.ok s) (L.forget u) := by
  obtain ⟨v, hfirst, hlast⟩ := hbounds.eventually
  obtain ⟨fuel, ⟨hfirst, hlast⟩, hgoes⟩ := ((hfirst.and hlast).and hgoes.eventually).exists
  refine ⟨fuel + 1, ?_⟩
  rw [exec_stmt_eq ha hb hfirst hlast, if_neg (Int.not_lt.mpr hdirection), Run.ensuring, hgoes]
  rfl

/-- Against its direction the loop faults, and the counter is not bound. -/
theorem Bounds.ends_fault (hbounds : L.Bounds w i j w') (hdirection : L.stride * (b - a) < 0) :
    ∃ f : Fault, f.kind = .invalidRange ∧ L.Ends w (.error f) w' := by
  obtain ⟨v, hfirst, hlast⟩ := hbounds.eventually
  obtain ⟨fuel, hfirst, hlast⟩ := (hfirst.and hlast).exists
  refine ⟨_, rfl, fuel + 1, (exec_stmt_eq ha hb hfirst hlast).trans (if_pos hdirection)⟩

end

/-! ### Counting -/

section

variable {a b : Int}

/-- What is found by adding the step again and again. -/
theorem toInt?_iterate (ha : Number.toInt? i = some a) {n : Nat}
    (hsmall : ∀ m ≤ n, (a + L.stride * m).natAbs ≤ 2 ^ 53) :
    Number.toInt? ((· + L.step)^[n] i) = some (a + L.stride * n) := by
  induction n with
  | zero => simpa using ha
  | succ n ih =>
    have hprev := ih fun m hm => hsmall m (Nat.le_succ_of_le hm)
    have hnext : a + L.stride * n + L.stride = a + L.stride * (n + 1 : Nat) := by
      push_cast
      ring
    rw [Function.iterate_succ_apply', ← hnext]
    refine Number.toInt?_add hprev L.toInt?_step ?_
    rw [hnext]
    exact hsmall (n + 1) (Nat.le_refl _)

/-- The counter after so many steps passes the test if there are still more. -/
theorem compare_iff {k : Nat} (hi : Number.toInt? i = some (a + L.stride * k))
    (hb : Number.toInt? j = some b) (hdirection : 0 ≤ L.stride * (b - a)) :
    Run.compare L.cmp.val i j = true ↔ k < L.count a b := by
  have hlt := Number.lt_iff_of_toInt? hi hb
  have hgt := Number.lt_iff_of_toInt? hb hi
  have hle := Number.le_iff_of_toInt? hi hb
  have hge := Number.le_iff_of_toInt? hb hi
  rw [count]
  rcases L.cmp_cases with ⟨hc, hd, -, hl⟩ | ⟨hc, hd, -, hl⟩ | ⟨hc, hd, -, hl⟩ | ⟨hc, hd, -, hl⟩ <;>
    rw [hd] at hlt hgt hle hge hdirection <;> rw [hc, hl, Run.compare, decide_eq_true_iff]
  · rw [if_neg Bool.false_ne_true]
    exact hlt.trans (by omega)
  · rw [if_pos rfl]
    exact hle.trans (by omega)
  · rw [if_neg Bool.false_ne_true]
    exact hgt.trans (by omega)
  · rw [if_pos rfl]
    exact hge.trans (by omega)

/-- All counters are small, and so is the number that ends the loop. -/
theorem natAbs_le (ha : a.natAbs < 2 ^ 53) (hb : b.natAbs < 2 ^ 53)
    (hdirection : 0 ≤ L.stride * (b - a)) {m : Nat} (hm : m ≤ L.count a b) :
    (a + L.stride * m).natAbs ≤ 2 ^ 53 := by
  have hcount : m ≤ (b - a).natAbs + 1 := by
    rw [count] at hm
    split at hm <;> omega
  rcases L.cmp_cases with ⟨-, hd, -⟩ | ⟨-, hd, -⟩ | ⟨-, hd, -⟩ | ⟨-, hd, -⟩ <;>
    rw [hd] at hdirection ⊢ <;> omega

end

/-- **Loops over a range count exactly.** The counters of a loop from `a` to `b` in its direction
are the whole numbers from `a` on, one after the other, up to `b` or to the one before it. If the
body always goes on and leaves the counter as it is, there is one turn for each of them, and the
loop ends normally. If instead the body leaves the loop in one of these turns, there are none after
that one. In both cases the name of the counter is not bound any more, even if it was bound before.
Against its direction the loop faults before it binds the counter, so it does nothing but evaluate
its bounds. -/
theorem counts_exactly (L : RangeLoop) {w w' : World} {i j : Float} {a b : Int}
    (hw : L.env < w.scopes.frames.size) (hbounds : L.Bounds w i j w')
    (ha : Number.toInt? i = some a) (hb : Number.toInt? j = some b)
    (hasmall : a.natAbs < 2 ^ 53) (hbsmall : b.natAbs < 2 ^ 53) :
    (0 ≤ L.stride * (b - a) → ∃ is : List Float,
      is.map Number.toInt? =
        (List.range (L.count a b)).map (fun k : Nat => some (a + L.stride * k)) ∧
      ((∀ k i u, is[k]? = some i → L.Turns (is.take k) w' u → ∃ v, L.Turn i u v) →
        ∃ u, L.Turns is w' u ∧ L.EndsOnly w (.ok .normal) (L.forget u)) ∧
      ∀ k i u s v t, is[k]? = some i → L.Turns (is.take k) w' u → L.Executes i u s v →
        s.leaving? = some t → L.EndsOnly w (.ok t) (L.forget v)) ∧
    (∀ u, (L.forget u).scopes.find? L.env L.counter.val = none) ∧
    (L.stride * (b - a) < 0 →
      ∃ f : Fault, f.kind = .invalidRange ∧ L.EndsOnly w (.error f) w') := by
  refine ⟨fun hdirection => ?_, find?_forget, fun hdirection => ?_⟩
  · have hw' : L.env < w'.scopes.shape.length := by
      rw [hbounds.shape_eq, Scopes.length_shape]
      exact hw
    have hcounter : ∀ k ≤ L.count a b,
        Number.toInt? ((· + L.step)^[k] i) = some (a + L.stride * k) := by
      intro k hk
      refine toInt?_iterate ha fun m hm => ?_
      exact natAbs_le hasmall hbsmall hdirection (hm.trans hk)
    have htest : ∀ k < L.count a b, Run.compare L.cmp.val ((· + L.step)^[k] i) j = true :=
      fun k hk => (compare_iff (hcounter k hk.le) hb hdirection).mpr hk
    refine ⟨List.iterate (· + L.step) i (L.count a b), ?_, fun hnext => ?_, ?_⟩
    · rw [← List.range_map_iterate, List.map_map]
      refine List.map_congr_left fun k hk => ?_
      exact hcounter k (List.mem_range.mp hk).le
    · obtain ⟨u, hturns⟩ := exists_turns hnext
      refine ⟨u, hturns, ?_⟩
      -- the test fails for the number after the last counter
      have hstop : Run.compare L.cmp.val ((· + L.step)^[L.count a b] i) j = false := by
        rw [← Bool.not_eq_true, compare_iff (hcounter _ (Nat.le_refl _)) hb hdirection]
        exact Nat.lt_irrefl _
      have hgoes := hturns.goes hw' htest (goes_stop (hturns.lt hw') hstop)
      rw [← forget_bind ((· + L.step)^[L.count a b] i)]
      exact (hgoes.ends ha hb hbounds hdirection).endsOnly
    · intro k i' u s v t hk hturns hbody ht
      have hlt : k < L.count a b := by
        have := (List.getElem?_eq_some_iff.mp hk).1
        rwa [List.length_iterate] at this
      rw [List.getElem?_iterate _ _ _ _ hlt] at hk
      rw [List.take_iterate, Nat.min_eq_left hlt.le] at hturns
      cases hk
      have hgoes := hturns.goes hw' (fun m hm => htest m (hm.trans hlt))
        (hbody.goes (hturns.lt hw') (htest k hlt) ht)
      exact (hgoes.ends ha hb hbounds hdirection).endsOnly
  · obtain ⟨f, hkind, hends⟩ := hbounds.ends_fault ha hb hdirection
    exact ⟨f, hkind, hends.endsOnly⟩

/-- A loop that counts down from two to zero with a name that was a constant has three turns, and
after it the name is free. A loop that is to count up between the same bounds faults, and the
constant is still there. -/
theorem counts_exactly_down :
    let s : Span := ⟨0, 0⟩
    let w : World := ⟨.start [("x", ⟨.nil, false⟩)], default⟩
    let L : RangeLoop := ⟨10, 0, .top, s, ⟨"x", s⟩, ⟨.ge, s⟩, .number s 2, .number s 0,
      [.continue s], by decide⟩
    let M : RangeLoop := { L with cmp := ⟨.lt, s⟩, ordered := by decide }
    (∃ is u, is.map Number.toInt? = [some 2, some 1, some 0] ∧ L.Turns is w u ∧
      L.EndsOnly w (.ok .normal) (L.forget u) ∧ (L.forget u).scopes.find? 0 "x" = none) ∧
    (∃ f : Fault, f.kind = .invalidRange ∧ M.EndsOnly w (.error f) w) ∧
    w.scopes.find? 0 "x" = some ⟨.nil, false⟩ := by
  intro s w L M
  have htwo : Number.toInt? 2 = some 2 := by decide +kernel
  have hzero : Number.toInt? 0 = some 0 := by decide +kernel
  have hw : L.env < w.scopes.frames.size := by decide
  have hbounds : L.Bounds w 2 0 w := ⟨w, ⟨1, rfl⟩, 1, rfl⟩
  obtain ⟨hdown, hfree, -⟩ := counts_exactly L hw hbounds htwo hzero (by decide) (by decide)
  obtain ⟨is, his, hturns, -⟩ := hdown (by decide)
  obtain ⟨u, hu, hends⟩ := hturns fun k i u _ hu =>
    ⟨L.bind i u, .continue, ⟨2, rfl⟩, .inr rfl, value?_bind (hu.lt hw)⟩
  have hbounds' : M.Bounds w 2 0 w := ⟨w, ⟨1, rfl⟩, 1, rfl⟩
  obtain ⟨-, -, hup⟩ := counts_exactly M hw hbounds' htwo hzero (by decide) (by decide)
  exact ⟨⟨is, u, his, hu, hends, hfree u⟩, hup (by decide), rfl⟩

end RangeLoop
end Scriptlet
