import Scriptlet.Proofs.Findings
import Scriptlet.Proofs.Grammar.Completeness
import Scriptlet.Proofs.Layout
import Scriptlet.Proofs.Scanning
import Scriptlet.Proofs.Sessions
import Scriptlet.Proofs.Signals

/-!
Inputs given one after another, and at once.

Two sources with a line feed between them are the two programs one after the other, but for the
places in the second (`Program.ofSource_join`). What is found in them is what is found in each
(`Program.check_append`), and as no signal leaves the top level, the second runs from where the first
has ended (`Interpreter.action_append`). A session therefore answers both at once as it answers them
in turn (`Session.eval_join`).
-/
namespace Scriptlet

/-! ### Sources -/

namespace Layout

/-- The second source stands `k` bytes further on. -/
def shift (k : Nat) : Layout where
  Offsets a b := b = a + k
  min := by
    rintro a _ c _ rfl rfl
    omega
  max := by
    rintro a _ c _ rfl rfl
    omega

/-- The places do not matter. -/
def free : Layout where
  Offsets _ _ := True
  min _ _ := trivial
  max _ _ := trivial

theorem tokens_shift {O : Layout} {k : Nat} (hk : ∀ a, O.Offsets a (a + k))
    (ts : List (Located Token)) : O.Tokens ts (ts.map (Located.shift k)) := by
  induction ts with
  | nil => exact .nil
  | cons t ts ih => exact .cons ⟨rfl, hk t.span.start, hk t.span.stop⟩ ih

end Layout

theorem Program.ofSource_eq_ok {source : String} {p : Program} :
    Program.ofSource source = .ok p ↔
      ∃ ts, Token.Scans 0 source.toList ts ∧ Derives .statements ts p.body := by
  rw [Program.ofSource, tokenize]
  cases hscan : Token.scan source with
  | error e =>
    refine ⟨nofun, ?_⟩
    rintro ⟨ts, hts, -⟩
    rw [Token.scan_eq_ok.mpr hts] at hscan
    cases hscan
  | ok ts =>
    have hparse : ∀ r : Except ParseError Program,
        r.mapError ParseError.toCompileError = .ok p ↔ r = .ok p := by
      intro r
      cases r with
      | error e => exact ⟨nofun, nofun⟩
      | ok q => exact ⟨fun h => congrArg _ (Except.ok.inj h), fun h => congrArg _ (Except.ok.inj h)⟩
    refine (hparse (Program.ofTokens source.utf8ByteSize ts)).trans ?_
    rw [Program.ofTokens_eq_ok]
    constructor
    · intro h
      exact ⟨ts, Token.scan_eq_ok.mp hscan, h⟩
    · rintro ⟨us, hus, h⟩
      rw [Token.scan_eq_ok.mpr hus] at hscan
      cases hscan
      exact h

theorem Derives.append {ts us : List (Located Token)} {ss ss' : Block Unit}
    (h : Derives .statements ts ss) (h' : Derives .statements us ss') :
    Derives .statements (ts ++ us) (ss ++ ss') := by
  induction ss generalizing ts with
  | nil =>
    cases h
    exact h'
  | cons s ss ih =>
    cases h with
    | next first rest =>
      rw [List.append_assoc, List.cons_append]
      exact .next first (ih rest)

/-- **Programs are not run together over a line feed**: the first is read as it is alone, and the
second as it is alone, further on in the source. -/
theorem Program.ofSource_join {s₁ s₂ : String} {p₁ p₂ : Program}
    (h₁ : Program.ofSource s₁ = .ok p₁) (h₂ : Program.ofSource s₂ = .ok p₂) :
    ∃ q : Program, Program.ofSource (s₁ ++ "\n" ++ s₂) = .ok ⟨p₁.body ++ q.body⟩ ∧
      ∀ O : Layout, (∀ a, O.Offsets a (a + (s₁.utf8ByteSize + 1))) → O.Blocks p₂.body q.body := by
  obtain ⟨ts₁, hscan₁, hd₁⟩ := Program.ofSource_eq_ok.mp h₁
  obtain ⟨ts₂, hscan₂, hd₂⟩ := Program.ofSource_eq_ok.mp h₂
  have hk : ∀ a, (Layout.shift (s₁.utf8ByteSize + 1)).Offsets a (a + (s₁.utf8ByteSize + 1)) :=
    fun _ => rfl
  generalize hkeq : s₁.utf8ByteSize + 1 = k at hk ⊢
  have hread₂ : Program.ofTokens 0 ts₂ = .ok p₂ := Program.ofTokens_eq_ok.mpr hd₂
  have halike : ∀ O : Layout, (∀ a, O.Offsets a (a + k)) →
      O.Readings (fun p q => O.Blocks p.body q.body) (Program.ofTokens 0 ts₂)
        (Program.ofTokens (0 + k) (ts₂.map (Located.shift k))) :=
    fun O hO => Layout.ofTokens_alike (hO 0) (Layout.tokens_shift hO ts₂)
  rw [hread₂] at halike
  cases hread : Program.ofTokens (0 + k) (ts₂.map (Located.shift k)) with
  | error e =>
    rw [hread] at halike
    cases halike _ hk
  | ok q =>
    rw [hread] at halike
    refine ⟨q, Program.ofSource_eq_ok.mpr ⟨ts₁ ++ ts₂.map (Located.shift k), ?_, ?_⟩, ?_⟩
    · have htext : (s₁ ++ "\n" ++ s₂).toList = s₁.toList ++ '\n' :: s₂.toList := by
        rw [String.toList_append, String.toList_append, List.append_assoc]
        rfl
      rw [htext]
      refine hscan₁.append ?_
      rw [Token.byteSize_toList, Nat.add_assoc, hkeq]
      exact hscan₂.shift k
    · exact hd₁.append (Program.ofTokens_eq_ok.mp hread)
    · intro O hO
      cases halike O hO with
      | ok h => exact h

/-! ### Findings -/

def Warning.shift (k : Nat) (w : Warning) : Warning := ⟨w.suspicion, w.span.shift k⟩

theorem Warning.eq_map_shift {k : Nat} {vs ws : List Warning}
    (h : List.Forall₂ (Layout.shift k).likeness.Warnings vs ws) : ws = vs.map (Warning.shift k) := by
  induction h with
  | nil => rfl
  | @cons v w vs ws hvw _ ih =>
    obtain ⟨suspicion, ⟨start, stop⟩⟩ := v
    obtain ⟨suspicion', ⟨start', stop'⟩⟩ := w
    obtain ⟨rfl, rfl, rfl⟩ := hvw
    rw [ih]
    rfl

/-! ### Runs -/

theorem Block.mark_append (path : FunctionId) (i : Nat) (ss ts : Block Unit) :
    Block.mark path i (ss ++ ts) = Block.mark path i ss ++ Block.mark path (i + ss.length) ts := by
  induction ss generalizing i with
  | nil => rfl
  | cons s ss ih =>
    rw [List.cons_append, Block.mark, ih, Block.mark, List.length_cons, Nat.add_assoc,
      Nat.add_comm 1]
    rfl

theorem Block.length_mark (path : FunctionId) (i : Nat) (ss : Block Unit) :
    (Block.mark path i ss).length = ss.length := by
  induction ss generalizing i with
  | nil => rfl
  | cons s ss ih => rw [Block.mark, List.length_cons, ih, List.length_cons]

/-- Statements that end normally are followed by what stands behind them, with the fuel that is
left. -/
theorem execBlock_append {limit fuel fuel' : Nat} {env : FrameId} {depth : Depth}
    {ss : Block FunctionId} {w w' : World}
    (h : execBlock limit fuel env depth ss w = .ok .normal w') (hle : fuel ≤ fuel')
    (ts : Block FunctionId) :
    execBlock limit (fuel' + ss.length) env depth (ss ++ ts) w =
      execBlock limit fuel' env depth ts w' := by
  induction ss generalizing fuel w with
  | nil =>
    cases fuel with
    | zero => cases h
    | succ fuel =>
      cases h
      rfl
  | cons s ss ih =>
    cases fuel with
    | zero => cases h
    | succ fuel =>
      obtain ⟨signal, v, hs, h⟩ := Run.bind_eq_ok.mp h
      cases signal with
      | normal =>
        -- the block drops one unit of fuel for each statement, so this one has `ss.length` to spare
        have hle' : fuel ≤ fuel' + ss.length := by omega
        have hmore : exec limit (fuel' + ss.length) env depth s w = .ok .normal v := by
          have hsettled : Settled (exec limit fuel env depth s w) := by
            rw [hs]
            exact fun _ => nofun
          exact (Task.run_eq_of_le (t := .exec env depth s) hle' hsettled).trans hs
        show EStateM.bind (exec limit (fuel' + ss.length) env depth s) _ w = _
        unfold EStateM.bind
        rw [hmore]
        exact ih h (by omega)
      | _ => cases h

namespace Interpreter

/-- A program behind one that has ended runs where that has left the world. -/
theorem action_append {i : Interpreter} {p q : Program} {fuel fuel' : Nat} {s : Signal} {w : World}
    (h : i.action fuel p i.world = .ok s w) (hle : fuel ≤ fuel') :
    i.action (fuel' + p.body.length) ⟨p.body ++ q.body⟩ i.world =
      (i.after p w).action fuel' q w := by
  -- any other signal would keep `q` from being run
  have hs : s = .normal := execBlock_top h
  subst hs
  rw [action, Program.mark, Block.mark_append]
  have hrun := execBlock_append h hle (Block.mark [] (i.statements + p.body.length) q.body)
  rw [Program.mark, Block.length_mark] at hrun
  exact hrun

end Interpreter

/-! ### Sessions -/

namespace Session

/-- Code that is the same up to its places. -/
abbrev freely : Correspondence := Layout.free.likeness.correspondence

theorem freely_self (f : Function) : freely.Functions f f := by
  have hr : ∀ s, Layout.free.likeness.Spans s s := fun _ => ⟨trivial, trivial⟩
  exact ⟨rfl, located_self hr f.params, Block.alike_self hr f.body False.elim⟩

/-- The result of a program behind another one is, up to places, its result in the session that the
other one leaves. -/
theorem result_join {s : Session} {p p' q : Program} {fuel fuel' : Nat} {signal : Signal}
    {w : World}
    (h : s.result fuel p = .ok signal w) (hle : fuel ≤ fuel')
    (halike : Layout.free.Blocks p'.body q.body) (warnings : List Warning) :
    Matches (freely.Worlds w.scopes.shape) freely.Stops freely.Signals
      (result ⟨s.interpreter.after p w, warnings⟩ fuel' p')
      (s.result (fuel' + p.body.length) ⟨p.body ++ q.body⟩) := by
  rw [result, result, Interpreter.action_append h hle]
  exact Interpreter.action_alike (i := s.interpreter.after p w) (j := s.interpreter.after p w)
    (Correspondence.worlds_self freely_self w) rfl rfl (halike .top) fuel'

/-- **A session answers two inputs at once as it answers them in turn.** Two sources that are
accepted are also accepted with a line feed between them, with the warnings of both. If the first
ends well, then the second one has an answer in the session that it leaves if and only if both at
once have one, and these agree in their outcome, the output and the global bindings. Messages that are
written under different orders of the names agree but for the choice between tied names. -/
theorem eval_join {s₁ s₂ : String} {p₁ p₂ : Program} (h₁ : Program.ofSource s₁ = .ok p₁)
    (h₂ : Program.ofSource s₂ = .ok p₂) (hc₁ : p₁.check.error? = none)
    (hc₂ : p₂.check.error? = none) :
    ∃ p, Program.ofSource (s₁ ++ "\n" ++ s₂) = .ok p ∧ p.check.error? = none ∧
      p.check.warnings =
        p₁.check.warnings ++ p₂.check.warnings.map (Warning.shift (s₁.utf8ByteSize + 1)) ∧
      ∀ s s' : Session, s.Answers s₁ .done s' →
        ((∃ r t, s'.Answers s₂ r t) ↔ ∃ r t, s.Answers (s₁ ++ "\n" ++ s₂) r t) ∧
        ∀ r t r' t', s'.Answers s₂ r t → s.Answers (s₁ ++ "\n" ++ s₂) r' t' →
          r.Agree r' ∧ t.Agree t' := by
  obtain ⟨q, hq, halike⟩ := Program.ofSource_join h₁ h₂
  -- Findings keep the distance between the sources. For the runs the places are left free, since
  -- functions of the first program stand at the same places in both sessions.
  have hreports := Program.check_alike id (halike (Layout.shift _) (fun _ => rfl) .top)
  have hcheck := Program.check_append (q := q) hc₁
  have hc : (Program.check ⟨p₁.body ++ q.body⟩).error? = none := by
    rw [hcheck.2]
    exact hreports.error?_eq_none.mp hc₂
  refine ⟨⟨p₁.body ++ q.body⟩, hq, hc, ?_, ?_⟩
  · rw [hcheck.1, Warning.eq_map_shift hreports.warnings]
  intro s s' hs
  obtain ⟨fuel, -, hs⟩ := (answers_iff h₁ hc₁).mp hs
  cases hres : s.result fuel p₁ with
  | error e w =>
    rw [hres] at hs
    cases hs
  | ok signal w =>
    rw [hres] at hs
    cases hs
    exact answers_agree h₂ hc₂ hq hc fun fuel' hle =>
      result_join hres hle (halike Layout.free fun _ => trivial) p₁.check.warnings

/-- A function that the first input defines, in front of a comment, is called by the second, which
prints what it gives and then faults. -/
theorem eval_join_shared_function :
    let s₁ := "f := fn(x) \x7b return x; \x7d; // echo"
    let s₂ := "print(f(\"a\")); f(nil)();"
    ∃ p₁ p₂, Program.ofSource s₁ = .ok p₁ ∧ Program.ofSource s₂ = .ok p₂ ∧
      p₁.check.error? = none ∧ p₂.check.error? = none ∧
      ∃ (s s' t t' : Session) (f : Fault) (r : Reply), s.Answers s₁ .done s' ∧
        s'.Answers s₂ (.stopped (.fault f)) t ∧ s.Answers (s₁ ++ "\n" ++ s₂) r t' ∧
        Reply.Agree (.stopped (.fault f)) r ∧ t.Agree t' ∧ t.interpreter.output = "a\n" := by
  intro s₁ s₂
  obtain ⟨p₁, h₁, hc₁⟩ : ∃ p, Program.ofSource s₁ = .ok p ∧ p.check.error? = none := by
    decide +kernel
  obtain ⟨p₂, h₂, hc₂⟩ : ∃ p, Program.ofSource s₂ = .ok p ∧ p.check.error? = none := by
    decide +kernel
  let s : Session := .new (.new 10 (.ofInput []))
  let s' := (s.eval 20 s₁).2
  have hdone : (match (s.eval 20 s₁).1 with | .done => true | _ => false) = true := by
    decide +kernel
  have hfault : (match (s'.eval 20 s₂).1 with | .stopped (.fault _) => true | _ => false) = true := by
    decide +kernel
  have houtput : (s'.eval 20 s₂).2.interpreter.output = "a\n" := by decide +kernel
  have hs : s.Answers s₁ .done s' := by
    split at hdone
    · rename_i hr
      exact ⟨20, Prod.ext hr rfl, nofun⟩
    · cases hdone
  split at hfault
  · rename_i f hr
    have ht : s'.Answers s₂ (.stopped (.fault f)) (s'.eval 20 s₂).2 := ⟨20, Prod.ext hr rfl, nofun⟩
    obtain ⟨p, -, -, -, hjoin⟩ := eval_join h₁ h₂ hc₁ hc₂
    obtain ⟨hiff, hagree⟩ := hjoin s s' hs
    obtain ⟨r, t', ht'⟩ := hiff.mp ⟨_, _, ht⟩
    obtain ⟨hr, hsession⟩ := hagree _ _ _ _ ht ht'
    exact ⟨p₁, p₂, h₁, h₂, hc₁, hc₂, s, s', _, t', f, r, hs, ht, ht', hr, hsession, houtput⟩
  · cases hfault

end Session
end Scriptlet
