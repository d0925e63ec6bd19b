import Scriptlet.Value.Basic

/-!
Frames and the scope chain.

Every call of a function has a frame of bindings inside the frame of its caller: names are looked up
in the frame of the caller when the callee does not bind them. Frames are told apart by number, and
each knows the frame around it, which is older. A name is read by going up from frame to frame, and
written in one frame only.

The names of a frame have no order that could be relied on, so they are told as they are, frame by
frame.
-/
namespace Scriptlet

/-- The value of a name, and whether it may be assigned again. -/
structure Binding where
  value : Value
  isMutable : Bool

abbrev FrameId := Nat

structure Frame where
  /-- The frame around this one; the global one has none. -/
  parent? : Option FrameId
  bindings : List (String × Binding)

instance : Inhabited Frame := ⟨⟨none, []⟩⟩

namespace Frame

/-- The binding of a name in this frame alone. -/
def find? (f : Frame) (x : String) : Option Binding :=
  f.bindings.lookup x

/-- Bind a name, whether it is bound or not. -/
def add (f : Frame) (x : String) (b : Binding) : Frame :=
  { f with bindings := go f.bindings }
where
  go : List (String × Binding) → List (String × Binding)
    | [] => [(x, b)]
    | (y, c) :: rest => if x = y then (x, b) :: rest else (y, c) :: go rest

/-- Bind a name anew if it is bound. -/
def replace (f : Frame) (x : String) (b : Binding) : Frame :=
  if (f.find? x).isSome then f.add x b else f

/-- Forget a name. -/
def remove (f : Frame) (x : String) : Frame :=
  { f with bindings := f.bindings.filter (·.1 != x) }

def names (f : Frame) : List String :=
  f.bindings.map (·.1)

theorem parent?_add (f : Frame) (x : String) (b : Binding) : (f.add x b).parent? = f.parent? := rfl

theorem parent?_replace (f : Frame) (x : String) (b : Binding) :
    (f.replace x b).parent? = f.parent? := by
  rw [replace]
  split
  · rfl
  · rfl

theorem parent?_remove (f : Frame) (x : String) : (f.remove x).parent? = f.parent? := rfl

end Frame

/-- Every frame is younger than the one around it. -/
def Frame.Ordered (frames : Array Frame) : Prop :=
  ∀ (f : FrameId) (frame : Frame), frames[f]? = some frame → ∀ p, frame.parent? = some p → p < f

/-- The frames that are there, the global one first. -/
@[ext] structure Scopes where
  frames : Array Frame
  nonempty : 0 < frames.size
  ordered : Frame.Ordered frames

namespace Frame.Ordered

theorem singleton (bindings : List (String × Binding)) : Ordered #[⟨none, bindings⟩] := by
  intro f frame hf p hp
  obtain rfl | hne := Decidable.em (f = 0)
  · cases hf
    cases hp
  · have hout : (#[⟨none, bindings⟩] : Array Frame)[f]? = none :=
      Array.getElem?_eq_none (Nat.one_le_iff_ne_zero.mpr hne)
    rw [hout] at hf
    cases hf

variable {frames : Array Frame}

theorem push (h : Ordered frames) {frame : Frame}
    (hframe : ∀ p, frame.parent? = some p → p < frames.size) : Ordered (frames.push frame) := by
  intro f g hg p hp
  rw [Array.getElem?_push] at hg
  split at hg
  · rename_i hf
    cases hg
    rw [hf]
    exact hframe p hp
  · exact h f g hg p hp

theorem pop (h : Ordered frames) : Ordered frames.pop := by
  intro f g hg p hp
  rw [Array.getElem?_pop] at hg
  split at hg
  · exact h f g hg p hp
  · cases hg

theorem modify (h : Ordered frames) {change : Frame → Frame}
    (hchange : ∀ frame, (change frame).parent? = frame.parent?) (f : FrameId) :
    Ordered (frames.modify f change) := by
  intro g frame hg p hp
  rw [Array.getElem?_modify] at hg
  split at hg
  · obtain ⟨old, hold, rfl⟩ := Option.map_eq_some_iff.mp hg
    rw [hchange] at hp
    exact h g old hold p hp
  · exact h g frame hg p hp

end Frame.Ordered

namespace Scopes

/-- Only the global frame, with these bindings. -/
def start (bindings : List (String × Binding)) : Scopes :=
  ⟨#[⟨none, bindings⟩], Nat.zero_lt_one, .singleton bindings⟩

instance : Inhabited Scopes := ⟨start []⟩

def frame (s : Scopes) (f : FrameId) : Frame :=
  s.frames.getD f ⟨none, []⟩

/-- The link of a new frame to the one around it, if that is there. -/
def link? (s : Scopes) (f : FrameId) : Option FrameId :=
  if f < s.frames.size then some f else none

theorem lt_of_link? {s : Scopes} {f p : FrameId} (h : s.link? f = some p) : p < s.frames.size := by
  unfold link? at h
  split at h
  · cases h
    assumption
  · cases h

theorem size_push_pos (s : Scopes) (frame : Frame) : 0 < (s.frames.push frame).size := by
  rw [Array.size_push]
  exact Nat.succ_pos _

/-- A new frame inside another. -/
def child (s : Scopes) (f : FrameId) : FrameId × Scopes :=
  (s.frames.size,
    ⟨s.frames.push ⟨s.link? f, []⟩, s.size_push_pos _, s.ordered.push fun _ => lt_of_link?⟩)

theorem size_pop_pos {s : Scopes} (h : 1 < s.frames.size) : 0 < s.frames.pop.size := by
  rw [Array.size_pop]
  exact Nat.sub_pos_of_lt h

/-- Drop the newest frame, unless it is the global one. -/
def leave (s : Scopes) : Scopes :=
  if h : 1 < s.frames.size then ⟨s.frames.pop, size_pop_pos h, s.ordered.pop⟩ else s

def parent? (s : Scopes) (f : FrameId) : Option FrameId :=
  (s.frame f).parent?

/-- Going up ends. -/
theorem parent?_lt {s : Scopes} {f p : FrameId} (h : s.parent? f = some p) : p < f := by
  rw [parent?, frame, Array.getD_eq_getD_getElem?] at h
  cases hf : s.frames[f]? with
  | none =>
    rw [hf] at h
    cases h
  | some g =>
    rw [hf] at h
    exact s.ordered f g hf p h

/-- The outermost frame around a frame. -/
def global (s : Scopes) (f : FrameId) : FrameId :=
  match _ : s.parent? f with
  | some p => s.global p
  | none => f
termination_by f
decreasing_by exact parent?_lt ‹_›

def isGlobal (s : Scopes) (f : FrameId) : Bool :=
  (s.parent? f).isNone

def find? (s : Scopes) (f : FrameId) (x : String) : Option Binding :=
  (s.frame f).find? x

/-- The binding of a name in the nearest frame that has one, going up. -/
def lookup? (s : Scopes) (f : FrameId) (x : String) : Option Binding :=
  match s.find? f x with
  | some b => some b
  | none =>
    match _ : s.parent? f with
    | some p => s.lookup? p x
    | none => none
termination_by f
decreasing_by exact parent?_lt ‹_›

theorem size_modify_pos (s : Scopes) (f : FrameId) (change : Frame → Frame) :
    0 < (s.frames.modify f change).size := by
  rw [Array.size_modify]
  exact s.nonempty

/-- Change what is in a frame. -/
def modify (s : Scopes) (f : FrameId) (change : Frame → Frame)
    (h : ∀ frame, (change frame).parent? = frame.parent?) : Scopes :=
  ⟨s.frames.modify f change, s.size_modify_pos f change, s.ordered.modify h f⟩

def add (s : Scopes) (f : FrameId) (x : String) (b : Binding) : Scopes :=
  s.modify f (·.add x b) (Frame.parent?_add · x b)

def replace (s : Scopes) (f : FrameId) (x : String) (b : Binding) : Scopes :=
  s.modify f (·.replace x b) (Frame.parent?_replace · x b)

def remove (s : Scopes) (f : FrameId) (x : String) : Scopes :=
  s.modify f (·.remove x) (Frame.parent?_remove · x)

def names (s : Scopes) (f : FrameId) : List String :=
  (s.frame f).names

/-- The names that can be read in a frame, frame by frame from the inside out. -/
def visibleNames (s : Scopes) (f : FrameId) : List (List String) :=
  s.names f :: match _ : s.parent? f with
    | some p => s.visibleNames p
    | none => []
termination_by f
decreasing_by exact parent?_lt ‹_›

end Scopes
end Scriptlet
