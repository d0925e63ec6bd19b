import Scriptlet.Proofs.Joining
import Scriptlet.Proofs.Literals
import Scriptlet.Proofs.Store

/-!
Rendered data is source for itself.

An expression of literals builds the data that it stands for out of new texts and arrays, and does
nothing else to the world (`Data.eval_writes`). What rendering writes for an array of data is such
an expression, so to read the text and to evaluate it gives an array with the same items, down to
the last (`stringify_reproduces`).
-/
namespace Scriptlet

/-! ### Heaps that grow -/

/-- All texts and arrays of the first heap are in the second as they are. -/
structure Heap.Grows (h k : Heap) : Prop where
  texts_le : h.texts.size ≤ k.texts.size
  arrays_le : h.arrays.size ≤ k.arrays.size
  text_eq : ∀ r : TextRef, r.index < h.texts.size → k.text r = h.text r
  items_eq : ∀ r : ArrayRef, r.index < h.arrays.size → k.items r = h.items r

/-- Names are bound as they were, nothing has been written or read, and all texts and arrays are as
they were. -/
structure World.Grows (w u : World) : Prop where
  scopes_eq : u.scopes = w.scopes
  console_eq : u.host.console = w.host.console
  heap : w.host.heap.Grows u.host.heap

namespace Heap.Grows

variable {h k l : Heap}

theorem refl (h : Heap) : h.Grows h :=
  ⟨Nat.le_refl _, Nat.le_refl _, fun _ _ => rfl, fun _ _ => rfl⟩

theorem trans (hk : h.Grows k) (kl : k.Grows l) : h.Grows l where
  texts_le := Nat.le_trans hk.texts_le kl.texts_le
  arrays_le := Nat.le_trans hk.arrays_le kl.arrays_le
  text_eq r hr := by
    rw [kl.text_eq r (Nat.lt_of_lt_of_le hr hk.texts_le), hk.text_eq r hr]
  items_eq r hr := by
    rw [kl.items_eq r (Nat.lt_of_lt_of_le hr hk.arrays_le), hk.items_eq r hr]

theorem newText (h : Heap) (b : Buffer Char) : h.Grows (h.newText b).2 where
  texts_le := by
    rw [Heap.size_newText]
    omega
  arrays_le := Nat.le_refl _
  text_eq r hr := by rw [Heap.text_newText, if_neg (Nat.ne_of_lt hr)]
  items_eq _ _ := rfl

theorem newArray (h : Heap) (b : Buffer Value) : h.Grows (h.newArray b).2 where
  texts_le := Nat.le_refl _
  arrays_le := by
    rw [Heap.size_newArray]
    omega
  text_eq _ _ := rfl
  items_eq r hr := by rw [Heap.items_newArray, if_neg (Nat.ne_of_lt hr)]

end Heap.Grows

namespace World.Grows

theorem refl (w : World) : w.Grows w :=
  ⟨rfl, rfl, .refl _⟩

theorem trans {w u t : World} (hwu : w.Grows u) (hut : u.Grows t) : w.Grows t where
  scopes_eq := hut.scopes_eq.trans hwu.scopes_eq
  console_eq := hut.console_eq.trans hwu.console_eq
  heap := hwu.heap.trans hut.heap

end World.Grows

/-! ### Data that stays -/

namespace Heap

variable {h k : Heap}

/-- A value shows data, however the heap grows. -/
def Holds (h : Heap) (v : Value) (d : Data) : Prop :=
  ∀ k, h.Grows k → k.Shows v d

def HoldsAll (h : Heap) (vs : List Value) (ds : List Data) : Prop :=
  ∀ k, h.Grows k → k.ShowsAll vs ds

theorem Holds.shows {v : Value} {d : Data} (hv : h.Holds v d) : h.Shows v d :=
  hv h (.refl h)

theorem Shows.exists_text {v : Value} {cs : List Char} (hv : h.Shows v (.text cs)) :
    ∃ t, v = .text t ∧ (h.text t).toList = cs := by
  cases hv
  exact ⟨_, rfl, rfl⟩

theorem Shows.exists_array {v : Value} {ds : List Data} (hv : h.Shows v (.array ds)) :
    ∃ r, v = .array r := by
  cases hv
  exact ⟨_, rfl⟩

theorem Holds.mono {v : Value} {d : Data} (hv : h.Holds v d) (hk : h.Grows k) : k.Holds v d :=
  fun l hl => hv l (hk.trans hl)

theorem Holds.cons {v : Value} {vs : List Value} {d : Data} {ds : List Data} (hv : h.Holds v d)
    (hvs : h.HoldsAll vs ds) : h.HoldsAll (v :: vs) (d :: ds) :=
  fun k hk => .cons (hv k hk) (hvs k hk)

theorem holds_newText (h : Heap) (cs : List Char) :
    (h.newText (.ofList cs)).2.Holds (.text (h.newText (.ofList cs)).1) (.text cs) := by
  intro k hk
  have hlt : (h.newText (.ofList cs)).1.index < (h.newText (.ofList cs)).2.texts.size := by
    rw [size_newText]
    exact Nat.lt_succ_self _
  have htext : k.text (h.newText (.ofList cs)).1 = .ofList cs := by
    rw [hk.text_eq _ hlt, text_newText]
    exact if_pos rfl
  have hshows : k.Shows (.text (h.newText (.ofList cs)).1) (.text (k.text _).toList) := .text
  rwa [htext, Buffer.toList_ofList] at hshows

theorem HoldsAll.newArray {vs : List Value} {ds : List Data} (hvs : h.HoldsAll vs ds) :
    (h.newArray (.ofList vs)).2.Holds (.array (h.newArray (.ofList vs)).1) (.array ds) := by
  intro k hk
  have hlt : (h.newArray (.ofList vs)).1.index < (h.newArray (.ofList vs)).2.arrays.size := by
    rw [size_newArray]
    exact Nat.lt_succ_self _
  have hitems : k.items (h.newArray (.ofList vs)).1 = .ofList vs := by
    rw [hk.items_eq _ hlt, items_newArray]
    exact if_pos rfl
  refine .array ?_
  rw [hitems, Buffer.toList_ofList]
  exact hvs k ((Grows.newArray h _).trans hk)

end Heap

/-! ### Building data -/

/-- An action that, from this world, gives a result with a property, and lets the world grow. -/
def Run.Builds {α : Type} (act : Run α) (w : World) (Q : Heap → α → Prop) : Prop :=
  ∃ x u, act w = .ok x u ∧ w.Grows u ∧ Q u.host.heap x

namespace Run.Builds

variable {α β : Type} {Q : Heap → α → Prop} {Q' : Heap → β → Prop} {w : World}

theorem pure {x : α} (hx : Q w.host.heap x) : Run.Builds (Pure.pure x) w Q :=
  ⟨x, w, rfl, .refl w, hx⟩

theorem bind {act : Run α} {k : α → Run β} (hact : act.Builds w Q)
    (hk : ∀ x u, Q u.host.heap x → (k x).Builds u Q') : (act >>= k).Builds w Q' := by
  obtain ⟨x, u, hrun, hgrows, hx⟩ := hact
  obtain ⟨y, t, hrun', hgrows', hy⟩ := hk x u hx
  refine ⟨y, t, ?_, hgrows.trans hgrows', hy⟩
  show EStateM.bind act k w = _
  rw [EStateM.bind, hrun]
  exact hrun'

/-- What is known of the world is known later if it is kept as the world grows. -/
theorem and {act : Run α} (hact : act.Builds w Q) {P : Heap → Prop} (hw : P w.host.heap)
    (hmono : ∀ h k, P h → h.Grows k → P k) : act.Builds w fun h x => P h ∧ Q h x := by
  obtain ⟨x, u, hrun, hgrows, hx⟩ := hact
  exact ⟨x, u, hrun, hgrows, hmono _ _ hw hgrows.heap, hx⟩

theorem newText (w : World) (cs : List Char) :
    (Run.newText (.ofList cs)).Builds w fun h v => h.Holds v (.text cs) :=
  ⟨_, _, rfl, ⟨rfl, rfl, .newText _ _⟩, Heap.holds_newText _ cs⟩

theorem stringify (w : World) (v : Value) (span : Span) :
    (Run.unary .stringify v span).Builds w fun h t =>
      h.Holds t (.text (w.host.heap.render v).toList) := by
  have hrun : Run.unary .stringify v span w =
    Run.newText (.ofList (w.host.heap.render v).toList) w := rfl
  rw [Builds, hrun]
  exact newText w _

theorem newArray {vs : List Value} {ds : List Data} (hvs : w.host.heap.HoldsAll vs ds) :
    (Run.newArray (.ofList vs)).Builds w fun h v => h.Holds v (.array ds) :=
  ⟨_, _, rfl, ⟨rfl, rfl, .newArray _ _⟩, hvs.newArray⟩

end Run.Builds

mutual

/-- **An expression of literals builds its data.** The fuel that this takes is a matter of the
data. -/
theorem Data.eval_writes : (d : Data) → ∃ enough, ∀ {e : Expr FunctionId}, e.Writes d →
    ∀ limit fuel env depth w, enough ≤ fuel →
      (eval limit fuel env depth e).Builds w fun h v => h.Holds v d
  | .nil => by
    refine ⟨1, fun he limit fuel env depth w hfuel => ?_⟩
    obtain ⟨fuel, rfl⟩ := Nat.exists_eq_add_of_le' hfuel
    cases he
    exact .pure fun _ _ => .nil
  | .bool _ => by
    refine ⟨1, fun he limit fuel env depth w hfuel => ?_⟩
    obtain ⟨fuel, rfl⟩ := Nat.exists_eq_add_of_le' hfuel
    cases he
    exact .pure fun _ _ => .bool
  | .float _ => by
    refine ⟨2, fun he limit fuel env depth w hfuel => ?_⟩
    obtain ⟨fuel, rfl⟩ := Nat.exists_eq_add_of_le' hfuel
    cases he with
    | number => exact .pure fun _ _ => .float
    | negative => exact ⟨_, w, rfl, .refl w, fun _ _ => .float⟩
  | .text cs => by
    refine ⟨1, fun he limit fuel env depth w hfuel => ?_⟩
    obtain ⟨fuel, rfl⟩ := Nat.exists_eq_add_of_le' hfuel
    cases he
    rw [eval, String.toList_ofList]
    exact .newText w cs
  | .array ds => by
    obtain ⟨enough, hitems⟩ := Data.evalAll_writes ds
    refine ⟨enough + 1, fun he limit fuel env depth w hfuel => ?_⟩
    obtain ⟨fuel, rfl⟩ := Nat.exists_eq_add_of_le' hfuel
    cases he with
    | array items =>
      have hbuilds := hitems items limit (fuel + enough) env depth w (Nat.le_add_left _ _)
      exact hbuilds.bind fun vs u hvs => .newArray hvs
termination_by structural d => d

theorem Data.evalAll_writes : (ds : List Data) → ∃ enough, ∀ {es : List (Expr FunctionId)},
    Expr.WritesAll es ds → ∀ limit fuel env depth w, enough ≤ fuel →
      (evalAll limit fuel env depth es).Builds w fun h vs => h.HoldsAll vs ds
  | [] => by
    refine ⟨1, fun he limit fuel env depth w hfuel => ?_⟩
    obtain ⟨fuel, rfl⟩ := Nat.exists_eq_add_of_le' hfuel
    cases he
    exact .pure fun _ _ => .nil
  | d :: ds => by
    obtain ⟨enough, hfirst⟩ := Data.eval_writes d
    obtain ⟨enough', hrest⟩ := Data.evalAll_writes ds
    refine ⟨max enough enough' + 1, fun he limit fuel env depth w hfuel => ?_⟩
    obtain ⟨fuel, rfl⟩ := Nat.exists_eq_add_of_le' hfuel
    have hle : enough ≤ fuel + max enough enough' ∧ enough' ≤ fuel + max enough enough' := by omega
    cases he with
    | cons first rest =>
      refine (hfirst first limit _ env depth w hle.1).bind fun v u hv => ?_
      -- the first item stays what it is while the others are built
      have hitems := (hrest rest limit _ env depth u hle.2).and (P := fun h => h.Holds v d) hv
        fun h k hh hk => hh.mono hk
      refine hitems.bind fun vs t hvs => ?_
      exact .pure (hvs.1.cons hvs.2)
termination_by structural ds => ds

end

mutual

theorem Expr.Writes.mark : (d : Data) → {e : Expr Unit} → e.Writes d → (path : FunctionId) →
    (e.mark path).Writes d
  | .nil, _, .nil, _ => .nil
  | .bool _, _, .bool, _ => .bool
  | .float _, _, .number, _ => .number
  | .float _, _, .negative, _ => .negative
  | .text _, _, .text, _ => .text
  | .array ds, _, .array items, path => .array (Expr.WritesAll.mark ds items path 0)
termination_by structural d => d

theorem Expr.WritesAll.mark : (ds : List Data) → {es : List (Expr Unit)} → Expr.WritesAll es ds →
    (path : FunctionId) → (i : Nat) → Expr.WritesAll (Expr.markList path i es) ds
  | [], _, .nil, _, _ => .nil
  | d :: ds, _, .cons first rest, path, i =>
    .cons (Expr.Writes.mark d first (i :: path)) (Expr.WritesAll.mark ds rest path (i + 1))
termination_by structural ds => ds

end

/-! ### The text of an array -/

/-- What is written for data, with a semicolon behind it, is a program of one expression. -/
theorem Data.ofSource_write {d : Data} (hd : d.IsPlain) {source : String}
    (hsource : source.toList = d.write ++ [';']) :
    ∃ ts span e, tokenize source = .ok ts ∧ Program.ofSource source = .ok ⟨[.expr span e]⟩ ∧
      e.Writes d := by
  have hrest : Lexeme.Delimited [';'] := ⟨';', [], rfl, by decide⟩
  have hend : Token.Scans (0 + Token.byteSize d.write) [';'] _ :=
    Token.Scans.done.symbol (by decide) rfl
  obtain ⟨ts, e, hscans, hderives, hwrites⟩ := Data.reads d hd hrest hend
  have hstatement : ∀ ws p, ws = ts ++ [⟨.symbol .semicolon, p⟩] →
      Derives .statements ws [.expr (.across ws) e] := by
    intro ws p hws
    have hnext := Derives.next (.expr hderives.expression hws) .done
    rwa [List.append_nil] at hnext
  rw [← hsource] at hscans
  have htokens : ∀ us, Token.Scans 0 source.toList us → tokenize source = .ok us := by
    intro us hus
    rw [tokenize, Token.scan_eq_ok.mpr hus]
    rfl
  exact ⟨_, _, e, htokens _ hscans,
    Program.ofSource_eq_ok.mpr ⟨_, hscans, hstatement _ _ rfl⟩, hwrites⟩

/-- **Rendered data is source for itself.** The operator that turns a value into text gives, for an
array of data, a text that with a semicolon behind it is split into tokens and read as one
statement, which is an expression. That expression can be evaluated in any frame of any world. It
leaves all bindings, texts, arrays and the console as they are, and gives an array that shows the
same data, item by item. -/
theorem stringify_reproduces {w : World} {r : ArrayRef} (hacyclic : w.host.heap.IsAcyclic r)
    (hdata : w.host.heap.IsData r) (place : Span) :
    ∃ t u source, Run.unary .stringify (.array r) place w = .ok (.text t) u ∧
      source.toList = (u.host.heap.text t).toList ++ [';'] ∧
      ∃ ts span e, tokenize source = .ok ts ∧ Program.ofSource source = .ok ⟨[.expr span e]⟩ ∧
        ∃ d, w.host.heap.Shows (.array r) d ∧
          ∃ enough, ∀ limit fuel env depth path w', enough ≤ fuel →
            ∃ s u', eval limit fuel env depth (e.mark path) w' = .ok (.array s) u' ∧ w'.Grows u' ∧
              u'.host.heap.Shows (.array s) d := by
  obtain ⟨ds, hshows, hplain, hwrite⟩ := Heap.render_eq_write hacyclic hdata
  obtain ⟨v, u, hstringify, -, hholds⟩ := Run.Builds.stringify w (.array r) place
  obtain ⟨t, rfl, htext⟩ := hholds.shows.exists_text
  obtain ⟨source, hsource⟩ : ∃ source : String,
    source.toList = (u.host.heap.text t).toList ++ [';'] := ⟨_, String.toList_ofList⟩
  refine ⟨t, u, source, hstringify, hsource, ?_⟩
  rw [htext, hwrite] at hsource
  obtain ⟨ts, span, e, htokens, hprogram, hwrites⟩ :=
    Data.ofSource_write (d := .array ds) hplain hsource
  refine ⟨ts, span, e, htokens, hprogram, .array ds, hshows, ?_⟩
  obtain ⟨enough, hbuilds⟩ := Data.eval_writes (.array ds)
  refine ⟨enough, fun limit fuel env depth path w' hfuel => ?_⟩
  have hmarked := Expr.Writes.mark (.array ds) hwrites path
  obtain ⟨v, u', hrun, hgrows, hholds⟩ := hbuilds hmarked limit fuel env depth w' hfuel
  obtain ⟨s, rfl⟩ := hholds.shows.exists_array
  exact ⟨s, u', hrun, hgrows, hholds.shows⟩

/-- An array of a number, a text and an array of the words for data. -/
def nestedArrays : Heap where
  texts := #[.ofList ['"', ',', '/', '/', '\\', '\n']]
  arrays := #[.ofList [.float (-0.5), .text ⟨0⟩, .array ⟨1⟩], .ofList [.nil, .bool true]]

/-- A text with a quote, a backslash and what looks like a comment, next to an array. -/
theorem stringify_reproduces_nestedArrays :
    nestedArrays.IsAcyclic ⟨0⟩ ∧ nestedArrays.IsData ⟨0⟩ ∧
      ∃ t u source,
        Run.unary .stringify (.array ⟨0⟩) default ⟨default, ⟨nestedArrays, default⟩⟩ =
          .ok (.text t) u ∧
        source.toList = (u.host.heap.text t).toList ++ [';'] ∧
        ∃ ts span e, tokenize source = .ok ts ∧ Program.ofSource source = .ok ⟨[.expr span e]⟩ ∧
          ∃ d, nestedArrays.Shows (.array ⟨0⟩) d ∧
            ∃ enough, ∀ limit fuel env depth path w', enough ≤ fuel →
              ∃ s u', eval limit fuel env depth (e.mark path) w' = .ok (.array s) u' ∧ w'.Grows u' ∧
                u'.host.heap.Shows (.array s) d := by
  have hitems : ∀ s : ArrayRef, ∀ v ∈ (nestedArrays.items s).toList,
      v ∈ [.float (-0.5), .text ⟨0⟩, .array ⟨1⟩] ∧ s.index = 0 ∨ v ∈ [.nil, .bool true] := by
    rintro ⟨_ | _ | n⟩ v hv
    · exact .inl ⟨hv, rfl⟩
    · exact .inr hv
    · cases hv
  have hacyclic : nestedArrays.IsAcyclic ⟨0⟩ := by
    -- an item that is an array comes later in the heap
    have hlater : ∀ s t, nestedArrays.Has s t → s.index < t.index := by
      intro s t hst
      rcases hitems s _ hst with ⟨hmem, hs⟩ | hmem
      · have ht : t = ⟨1⟩ := by simpa using hmem
        rw [hs, ht]
        exact Nat.one_pos
      · simp at hmem
    intro s _ hcycle
    have hlt := hcycle.lift ArrayRef.index hlater
    rw [Relation.transGen_eq_self] at hlt
    exact Nat.lt_irrefl _ hlt
  have hdata : nestedArrays.IsData ⟨0⟩ := by
    have hplain : ∀ c ∈ ['"', ',', '/', '/', '\\', '\n'], Text.IsPlain c := by
      simp only [List.mem_cons, List.not_mem_nil, or_false]
      rintro c (rfl | rfl | rfl | rfl | rfl | rfl)
      · exact .inr ⟨'"', by decide, by decide⟩
      · exact .inl (by decide)
      · exact .inl (by decide)
      · exact .inl (by decide)
      · exact .inr ⟨'\\', by decide, by decide⟩
      · exact .inr ⟨'n', by decide, by decide⟩
    intro s _ v hv
    rcases hitems s v hv with ⟨hmem, -⟩ | hmem
    · simp only [List.mem_cons, List.not_mem_nil, or_false] at hmem
      rcases hmem with rfl | rfl | rfl
      · exact show Number.isFinite (-0.5) = true by decide +kernel
      · exact hplain
      · trivial
    · simp only [List.mem_cons, List.not_mem_nil, or_false] at hmem
      rcases hmem with rfl | rfl <;> trivial
  exact ⟨hacyclic, hdata, stringify_reproduces hacyclic hdata default⟩

end Scriptlet
