import Scriptlet.Session
import Scriptlet.Proofs.Messages
import Scriptlet.Proofs.Resources
import Scriptlet.Proofs.Simulation

/-!
What a session answers.

The fuel of a run is not part of what it answers: `Session.Answers` holds of the answer that some
fuel suffices for, and then all greater fuel gives the same. Sessions in corresponding worlds tell
the same of their global bindings (`Interpreter.globals_eq`), and where the runs of two programs
match, their answers agree (`Session.answers_agree`).
-/
namespace Scriptlet

/-! ### Interpreters -/

/-- A world corresponds to itself if every function does. -/
theorem Correspondence.worlds_self {K : Correspondence} (hK : ∀ f, K.Functions f f) (w : World)
    (hlead : K.lead = .none := by rfl) : K.Worlds w.scopes.shape w w := by
  have htext : ∀ r, K.textRef r = r := fun r => by rw [textRef, hlead]; rfl
  have harray : ∀ r, K.arrayRef r = r := fun r => by rw [arrayRef, hlead]; rfl
  have hvalue : ∀ v, K.Values v v := by
    intro v
    cases v with
    | function f => exact .function (hK f)
    | text r =>
      have hr : K.Values (.text (K.textRef r)) (.text r) := .text r
      rwa [htext] at hr
    | array r =>
      have hr : K.Values (.array (K.arrayRef r)) (.array r) := .array r
      rwa [harray] at hr
    | _ => constructor
  refine ⟨⟨rfl, rfl, fun f => ?_⟩, ⟨⟨?_, fun r => ?_, ?_, fun r => ?_⟩, rfl⟩⟩
  · exact List.forall₂_same.mpr fun b _ => ⟨rfl, rfl, hvalue b.2.value⟩
  · rw [hlead]
    rfl
  · rw [htext]
  · rw [hlead]
    rfl
  · rw [harray]
    exact List.forall₂_same.mpr fun v _ => hvalue v

namespace Interpreter

/-- The interpreter that a program leaves in this world. -/
def after (i : Interpreter) (p : Program) (w : World) : Interpreter :=
  ⟨w, i.limit, i.statements + p.body.length⟩

theorem action_eq_of_le {i : Interpreter} {p : Program} {fuel fuel' : Nat} {w : World}
    (hle : fuel ≤ fuel') (h : Settled (i.action fuel p w)) :
    i.action fuel' p w = i.action fuel p w :=
  Task.run_eq_of_le (t := .execBlock 0 .top (p.mark i.statements)) hle h

/-- What is told of all global bindings, natives included, in the order of the frame. -/
def entries (i : Interpreter) : List GlobalEntry :=
  (i.world.scopes.frame 0).bindings.map fun (x, b) =>
    ⟨x, b.isMutable, b.value.kind, i.world.host.heap.render b.value⟩

open Correspondence

variable {K : Correspondence} {shape : List (List FrameId)} {i j : Interpreter}

theorem map_entry_eq (hw : K.Worlds shape i.world j.world) {bs cs : List (String × Binding)}
    (h : List.Forall₂ K.Bindings bs cs) :
    (bs.map fun (x, b) => (⟨x, b.isMutable, b.value.kind, i.world.host.heap.render b.value⟩ :
        GlobalEntry)) =
      cs.map fun (x, b) => ⟨x, b.isMutable, b.value.kind, j.world.host.heap.render b.value⟩ := by
  induction h with
  | nil => rfl
  | cons hb _ ih =>
    rw [List.map_cons, List.map_cons, ih]
    dsimp only
    rw [hb.name, hb.isMutable, hb.value.kind_eq, render_eq hw.host.heap hb.value]

theorem isNative_eq {b c : String × Binding} (hb : K.Bindings b c) :
    isNative b.1 b.2 = isNative c.1 c.2 := by
  obtain ⟨x, v, m⟩ := b
  obtain ⟨y, v', m'⟩ := c
  obtain ⟨rfl, rfl, hv⟩ := hb
  cases hv <;> rfl

theorem entries_eq (hw : K.Worlds shape i.world j.world) : i.entries = j.entries :=
  map_entry_eq hw (hw.scopes.bindings 0)

theorem globals_eq (hw : K.Worlds shape i.world j.world) : i.globals = j.globals := by
  rw [globals, globals]
  congr 1
  refine map_entry_eq hw (List.rel_filter ?_ (hw.scopes.bindings 0))
  intro b c hb
  dsimp only
  rw [isNative_eq hb]

end Interpreter

/-! ### Sessions -/

/-- Replies with the same outcome: success, or faults that agree in kind and message. -/
inductive Reply.Agree : Reply → Reply → Prop
  | done : Agree .done .done
  | fault {f g : Fault} (h : f.Agree g) : Agree (.stopped (.fault f)) (.stopped (.fault g))

namespace Session

/-- The answer of a session to an input, if enough fuel is there to find it. -/
def Answers (s : Session) (input : String) (r : Reply) (t : Session) : Prop :=
  ∃ fuel, s.eval fuel input = (r, t) ∧ r ≠ .stopped .outOfFuel

/-- Sessions with the same output and the same global bindings. -/
structure Agree (s t : Session) : Prop where
  output : s.interpreter.output = t.interpreter.output
  globals : s.interpreter.globals = t.interpreter.globals
  entries : s.interpreter.entries = t.interpreter.entries

/-- The answer that the result of a program's run amounts to. -/
def answer (s : Session) (p : Program) : EStateM.Result Stop World Signal → Reply × Session
  | .ok _ w => (.done, ⟨s.interpreter.after p w, p.check.warnings⟩)
  | .error e w => (.stopped e, ⟨s.interpreter.after p w, p.check.warnings⟩)

/-- The run of a program from the world of a session. -/
def result (s : Session) (fuel : Nat) (p : Program) : EStateM.Result Stop World Signal :=
  s.interpreter.action fuel p s.interpreter.world

variable {s : Session} {source : String} {p : Program}

theorem eval_eq (hp : Program.ofSource source = .ok p) (hc : p.check.error? = none) (fuel : Nat) :
    s.eval fuel source = s.answer p (s.result fuel p) := by
  rw [Session.eval, hp]
  dsimp only
  rw [Session.run, hc, Interpreter.run_eq, result]
  cases s.interpreter.action fuel p s.interpreter.world with
  | ok signal w => rfl
  | error e w => rfl

/-- The answers to an accepted program are the results of its runs that have ended. -/
theorem answers_iff (hp : Program.ofSource source = .ok p) (hc : p.check.error? = none) {r : Reply}
    {t : Session} :
    s.Answers source r t ↔
      ∃ fuel, Settled (s.result fuel p) ∧ s.answer p (s.result fuel p) = (r, t) := by
  refine exists_congr fun fuel => ?_
  rw [eval_eq hp hc]
  cases hres : s.result fuel p with
  | ok signal w =>
    constructor
    · rintro ⟨h, -⟩
      exact ⟨fun _ => nofun, h⟩
    · rintro ⟨-, h⟩
      cases h
      exact ⟨rfl, nofun⟩
  | error e w =>
    constructor
    · rintro ⟨h, hr⟩
      cases h
      exact ⟨fun w' he => hr (by cases he; rfl), rfl⟩
    · rintro ⟨hne, h⟩
      cases h
      exact ⟨rfl, fun he => hne w (by cases he; rfl)⟩

theorem result_eq_of_le {fuel fuel' : Nat} (hle : fuel ≤ fuel')
    (h : Settled (s.result fuel p)) : s.result fuel' p = s.result fuel p :=
  Interpreter.action_eq_of_le hle h

section

variable {K : Correspondence} {shape : List (List FrameId)} {t : Session} {q : Program}
  {x y : EStateM.Result Stop World Signal}

theorem settled_iff (h : Matches (K.Worlds shape) K.Stops K.Signals x y) :
    Settled x ↔ Settled y := by
  cases h with
  | ok hq hs => exact ⟨fun _ _ => nofun, fun _ _ => nofun⟩
  | error he hs =>
    cases he with
    | fault hc hspan => exact ⟨fun _ _ => nofun, fun _ _ => nofun⟩
    | outOfFuel => exact ⟨fun h => absurd rfl (h _), fun h => absurd rfl (h _)⟩

/-- Matching results amount to answers that agree. -/
theorem answer_agree (h : Matches (K.Worlds shape) K.Stops K.Signals x y)
    (hx : Settled x) :
    (s.answer p x).1.Agree (t.answer q y).1 ∧ (s.answer p x).2.Agree (t.answer q y).2 := by
  have hagree : ∀ {w v : World}, K.Worlds shape w v →
      Agree ⟨s.interpreter.after p w, p.check.warnings⟩
        ⟨t.interpreter.after q v, q.check.warnings⟩ := by
    intro w v hw
    exact ⟨congrArg Console.output hw.host.console, Interpreter.globals_eq hw,
      Interpreter.entries_eq hw⟩
  cases h with
  | ok hq hw => exact ⟨.done, hagree hw⟩
  | error he hw =>
    cases he with
    | fault hc hspan => exact ⟨.fault (.of_cause rfl), hagree hw⟩
    | outOfFuel => exact absurd rfl (hx _)

/-- Where the results of two programs match whenever there is fuel enough, the one has an answer if
and only if the other has, and the answers agree. -/
theorem answers_agree {source' : String} (hp : Program.ofSource source = .ok p)
    (hc : p.check.error? = none) (hq : Program.ofSource source' = .ok q)
    (hc' : q.check.error? = none) {enough extra : Nat}
    (hm : ∀ fuel, enough ≤ fuel → Matches (K.Worlds shape) K.Stops K.Signals (s.result fuel p)
      (t.result (fuel + extra) q)) :
    ((∃ r u, s.Answers source r u) ↔ ∃ r u, t.Answers source' r u) ∧
      ∀ r u r' u', s.Answers source r u → t.Answers source' r' u' → r.Agree r' ∧ u.Agree u' := by
  refine ⟨⟨?_, ?_⟩, ?_⟩
  · rintro ⟨r, u, h⟩
    obtain ⟨fuel, hx, -⟩ := (answers_iff hp hc).mp h
    have hmatch := hm (max enough fuel) (Nat.le_max_left _ _)
    rw [result_eq_of_le (Nat.le_max_right enough fuel) hx] at hmatch
    exact ⟨_, _, (answers_iff hq hc').mpr ⟨_, (settled_iff hmatch).mp hx, rfl⟩⟩
  · rintro ⟨r, u, h⟩
    obtain ⟨fuel, hy, -⟩ := (answers_iff hq hc').mp h
    have hle : fuel ≤ max enough fuel + extra :=
      Nat.le_trans (Nat.le_max_right enough fuel) (Nat.le_add_right _ _)
    have hmatch := hm (max enough fuel) (Nat.le_max_left _ _)
    rw [result_eq_of_le hle hy] at hmatch
    exact ⟨_, _, (answers_iff hp hc).mpr ⟨_, (settled_iff hmatch).mpr hy, rfl⟩⟩
  · intro r u r' u' h h'
    obtain ⟨fuel, hx, hr⟩ := (answers_iff hp hc).mp h
    obtain ⟨fuel', hy, hr'⟩ := (answers_iff hq hc').mp h'
    -- fuel that suffices for both
    have hle : fuel ≤ max enough (max fuel fuel') := by omega
    have hle' : fuel' ≤ max enough (max fuel fuel') + extra := by omega
    have hmatch := hm (max enough (max fuel fuel')) (Nat.le_max_left _ _)
    rw [result_eq_of_le hle hx, result_eq_of_le hle' hy] at hmatch
    have hagree := answer_agree (s := s) (t := t) (p := p) (q := q) hmatch hx
    rw [hr, hr'] at hagree
    exact hagree

end

end Session
end Scriptlet
