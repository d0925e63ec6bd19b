import Scriptlet.Proofs.Faults
import Scriptlet.Proofs.Origins
import Scriptlet.Proofs.Suggestions

/-!
Hints for names that are not bound.

A run that stops with a fault about a name has a task in it that misses the name in the scopes of that
moment (`Task.Raises.misses`).

The names visible from a frame are told from the inside out, so the first of the nearest is out of the
innermost frame that has one as near, in whatever orders the frames tell their names
(`Scopes.suggests_of_isBest`). As the frames of a run are one stack, it is visible from the active frame
also if the name was looked for in the global one.
-/
namespace Scriptlet

/-! ### What a hint says of the scopes -/

namespace Scopes

open Text (Near distance IsBest)

variable {s : Scopes} {f : FrameId} {x y : String}

theorem mem_names : y ∈ s.names f ↔ (s.find? f y).isSome := by
  rw [names, Frame.names, find?, Frame.find?, List.lookup_isSome_iff]
  simp

theorem mem_visibleNames : (∃ names ∈ s.visibleNames f, y ∈ names) ↔ (s.lookup? f y).isSome := by
  rw [visibleNames_eq, lookup?_eq, List.findSome?_isSome_iff]
  simp only [List.mem_map, exists_exists_and_eq_and, mem_names]

/-- The nearest of the names that are visible from a frame, out of the innermost frame that has one as
near. -/
structure Suggests (s : Scopes) (f : FrameId) (x y : String) : Prop where
  near : Near x y
  least : ∀ z, (s.lookup? f z).isSome → z ≠ x → distance x y ≤ distance x z
  innermost : ∃ inner g outer, s.chain f = inner ++ g :: outer ∧ (s.find? g y).isSome ∧
    ∀ h ∈ inner, ∀ z, (s.find? h z).isSome → z ≠ x → distance x y < distance x z

/-- The best of the visible names is out of the innermost frame that has one as near. -/
theorem suggests_of_isBest (h : IsBest x (s.visibleNames f) y) : s.Suggests f x y := by
  refine ⟨h.near, fun z hz hne => ?_, ?_⟩
  · obtain ⟨names, hnames, hz⟩ := mem_visibleNames.mpr hz
    exact h.least names hnames z hz hne
  · obtain ⟨inner, names, outer, heq, hy, hinner⟩ := h.innermost
    rw [visibleNames_eq] at heq
    obtain ⟨fs, gs, hchain, rfl, hgs⟩ := List.map_eq_append_iff.mp heq
    obtain ⟨g, gs, rfl, rfl, rfl⟩ := List.map_eq_cons_iff.mp hgs
    refine ⟨fs, g, gs, hchain, mem_names.mp hy, fun h hh z hz => ?_⟩
    exact hinner _ (List.mem_map_of_mem hh) z (mem_names.mpr hz)

theorem mem_chain_of_target? {env : FrameId} {global : Bool} (h : s.target? env global = some f) :
    f ∈ s.chain env := by
  unfold target? at h
  split at h
  · split at h
    · cases h
    · cases h
      rw [global_eq, chain_eq_cons, List.getLastD_eq_getLast?]
      cases hlast : (s.outer env).getLast? with
      | none => exact List.mem_cons_self
      | some g => exact List.mem_cons_of_mem env (List.mem_of_getLast? hlast)
  · cases h
    exact s.mem_chain_self _

/-- What is visible from a frame below is visible from the frame on top. -/
theorem isSome_lookup?_of_mem_chain {env : FrameId} (hs : s.shape = frameStack (env + 1))
    (hf : f ∈ s.chain env) (hy : (s.lookup? f y).isSome) : (s.lookup? env y).isSome := by
  rw [chain_of_frameStack hs (Nat.lt_succ_self env), List.mem_reverse, List.mem_range] at hf
  rw [lookup?_eq, List.findSome?_isSome_iff] at hy ⊢
  obtain ⟨g, hg, hbound⟩ := hy
  refine ⟨g, ?_, hbound⟩
  rw [chain_of_frameStack hs hf, List.mem_reverse, List.mem_range] at hg
  rw [chain_of_frameStack hs (Nat.lt_succ_self env), List.mem_reverse, List.mem_range]
  omega

end Scopes

open Text (Near distance IsNearest)

/-- In the course of a task, a name is not found, and the hint is right about the scopes of that moment,
in whatever order each frame tells its names. The name is looked for in the active frame, or in the
global one for a `global`. Without a suggestion, no name that is visible from there is near. A suggestion
is another name, visible from the active frame, and no visible name is nearer; nor is one as near bound
further inside. -/
def Task.Hints (limit fuel : Nat) (t : Task) (w : World) (x : String) (visible : List (List String))
    (span : Span) : Prop :=
  ∃ u v f, t.Raises limit fuel w ⟨.unbound x visible, span⟩ u v ∧
    v.scopes.target? u.env u.looksGlobally = some f ∧ v.scopes.find? f x = none ∧
    ∀ order : NameOrder, ∃ hint,
      Fault.message ⟨.unbound x visible, span⟩ order = s!"undefined variable `{x}`" ++ Text.hint hint ∧
      (hint = none → ∀ y, (v.scopes.lookup? f y).isSome → ¬ Near x y) ∧
      ∀ y, hint = some y → y ≠ x ∧ (v.scopes.lookup? u.env y).isSome ∧ v.scopes.Suggests f x y

theorem Task.hints_of_run {limit fuel : Nat} {t : Task} {w w' : World} {x : String}
    {visible : List (List String)} {span : Span} (ht : t.Stacked w)
    (h : t.run limit fuel w = .error (.fault ⟨.unbound x visible, span⟩) w') :
    t.Hints limit fuel w x visible span := by
  obtain ⟨u, v, hraises⟩ := exists_raises h
  obtain ⟨f, htarget, hfind, rfl⟩ := hraises.misses
  refine ⟨u, v, f, hraises, htarget, hfind, fun order => ⟨_, rfl, fun hnone y hy => ?_, fun y hy => ?_⟩⟩
  · exact Text.suggest?_eq_none_iff.mp hnone y (NameOrder.mem_list.mpr (Scopes.mem_visibleNames.mpr hy))
  · -- the name may have been looked for in the global frame, which is below the active one
    have hsuggests := Scopes.suggests_of_isBest (Text.isBest_of_suggest? hy)
    have hvisible : (v.scopes.lookup? f y).isSome :=
      Scopes.mem_visibleNames.mp (NameOrder.mem_list.mp (Text.isNearest_of_suggest? hy).mem)
    exact ⟨hsuggests.near.1, Scopes.isSome_lookup?_of_mem_chain (hraises.stacked ht).shape
      (Scopes.mem_chain_of_target? htarget) hvisible, hsuggests⟩

theorem Session.Reached.shape_eq {sources : List String} {s : Session} (h : Session.Reached sources s) :
    s.interpreter.world.scopes.shape = frameStack 1 := by
  obtain ⟨lead, t, hst⟩ := h.corresponds (List.Subset.refl sources)
  exact hst.worlds.scopes.left

/-- **Suggestions are the best ones.** Nothing is suggested for a name just if no other candidate is
within the limit for its length, and else the first of the nearest candidates is; which one comes first
does not matter if it is the only one as near. So the hint of a fault is right, in every run of a program
and every evaluation of an expression in a session. -/
theorem suggestions_best :
    (∀ name candidates, Text.suggest? name candidates = none ↔
      ∀ c ∈ candidates, c ≠ name →
        (if name.length ≤ 2 then 0 else if name.length ≤ 5 then 1 else 2) < distance name c) ∧
    (∀ name candidates x, Text.suggest? name candidates = some x ↔ IsNearest name candidates x) ∧
    (∀ name candidates candidates' x, Text.suggest? name candidates = some x →
      (∀ y ∈ candidates, y ≠ name → distance name y = distance name x → y = x) →
      candidates'.Perm candidates → Text.suggest? name candidates' = some x) ∧
    ∀ (sources : List String) (s : Session), Session.Reached sources s → ∀ fuel x visible span,
      (∀ p : Program, (s.interpreter.run fuel p).1 = .error (.fault ⟨.unbound x visible, span⟩) →
        (Task.execBlock 0 .top (p.mark s.interpreter.statements)).Hints s.interpreter.limit fuel
          s.interpreter.world x visible span) ∧
      ∀ e : Expr Unit, (s.interpreter.eval fuel e).1 = .error (.fault ⟨.unbound x visible, span⟩) →
        (Task.eval 0 .top (e.mark [0, s.interpreter.statements])).Hints s.interpreter.limit fuel
          s.interpreter.world x visible span := by
  refine ⟨fun name candidates => ?_, fun _ _ _ => Text.suggest?_eq_some_iff,
    fun _ _ _ _ => Text.suggest?_perm, fun sources s hs fuel x visible span =>
      ⟨fun p hp => ?_, fun e he => ?_⟩⟩
  · rw [Text.suggest?_eq_none_iff]
    refine forall₂_congr fun c _ => ?_
    rw [Near, not_and, Nat.not_le]
    rfl
  · obtain ⟨w, hw⟩ := Interpreter.perform_eq_error hp
    exact Task.hints_of_run ⟨hs.shape_eq, rfl⟩ hw
  · obtain ⟨w, hw⟩ := Interpreter.perform_eq_error he
    exact Task.hints_of_run ⟨hs.shape_eq, rfl⟩ hw

/-- The name that the run of a program stops at, with the names that are visible there, if it does. -/
def Program.missed? (p : Program) (fuel : Nat) (i : Interpreter) : Option (String × List (List String)) :=
  match (i.run fuel p).1 with
  | .error (.fault ⟨.unbound x visible, _⟩) => some (x, visible)
  | _ => none

theorem Program.missed?_eq_some {p : Program} {fuel : Nat} {i : Interpreter} {x : String}
    {visible : List (List String)} (h : p.missed? fuel i = some (x, visible)) :
    ∃ span, (i.run fuel p).1 = .error (.fault ⟨.unbound x visible, span⟩) := by
  unfold missed? at h
  split at h
  · rename_i y visible' span hrun
    obtain ⟨rfl, rfl⟩ := Prod.mk.inj (Option.some.inj h)
    exact ⟨span, hrun⟩
  · cases h

/-- Of two names at the same distance, the one of the inner frame is suggested, even if the other one is
told first in its frame. -/
theorem suggestions_best_inner : ∃ (p : Program) (visible : List (List String)) (span : Span),
    Program.ofSource "total = 1; fn f(totel) \x7b return totl; \x7d f(2);" = .ok p ∧
      ((Session.new (.new 10 (.ofInput []))).interpreter.run 40 p).1 =
        .error (.fault ⟨.unbound "totl" visible, span⟩) ∧
      Text.suggest? "totl" ((NameOrder.first "total").list visible) = some "totel" ∧
      (Task.execBlock 0 .top (p.mark 0)).Hints 10 40 (Interpreter.new 10 (.ofInput [])).world "totl"
        visible span := by
  obtain ⟨p, hp, hmissed⟩ :
      ∃ p, Program.ofSource "total = 1; fn f(totel) \x7b return totl; \x7d f(2);" = .ok p ∧
        (p.missed? 40 (Session.new (.new 10 (.ofInput []))).interpreter).map (fun m =>
          (m.1, Text.suggest? m.1 ((NameOrder.first "total").list m.2))) =
            some ("totl", some "totel") := by
    decide +kernel
  obtain ⟨m, hm, heq⟩ := Option.map_eq_some_iff.mp hmissed
  obtain ⟨x, visible⟩ := m
  obtain ⟨rfl, hsuggest⟩ := Prod.mk.inj heq
  obtain ⟨span, hrun⟩ := Program.missed?_eq_some hm
  have hreached : Session.Reached [] (.new (.new 10 (.ofInput []))) := .new 10 (.ofInput [])
  exact ⟨p, visible, span, hp, hrun, hsuggest,
    (suggestions_best.2.2.2 [] _ hreached 40 _ _ _).1 p hrun⟩

end Scriptlet
