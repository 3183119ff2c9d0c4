import Offside.Text.Names
import Offside.Value.Basic

/-!
# Scopes

Frames of names and values. Each frame may lie inside an outer one that was made before it, so the
frames form a forest. A name is looked up from a frame outward. An assignment changes the nearest
frame that holds the name, and the frame itself if there is none.
-/

namespace Offside

/-- Names and their values, each name once. -/
abbrev Bindings := List (String × Value)

/-- The bindings after giving a name a value. -/
def Bindings.set (name : String) (value : Value) : Bindings → Bindings
  | [] => [(name, value)]
  | (n, v) :: rest =>
    if n = name then (name, value) :: rest else (n, v) :: Bindings.set name value rest

/-- The names that are bound. -/
def Bindings.names (bindings : Bindings) : List String := bindings.map Prod.fst

/-- A name that was just set has its new value, and every other name keeps its own. -/
theorem Bindings.lookup_set (bindings : Bindings) (name other : String) (value : Value) :
    (bindings.set name value).lookup other =
      if other = name then some value else bindings.lookup other := by
  have hbeq {a b : String} (h : a ≠ b) : (a == b) = false := by simpa using h
  induction bindings with
  | nil =>
    by_cases h : other = name
    · simp [Bindings.set, h]
    · simp [Bindings.set, List.lookup_cons, h, hbeq h]
  | cons entry rest ih =>
    obtain ⟨n, v⟩ := entry
    by_cases hn : n = name
    · subst hn
      by_cases h : other = n
      · simp [Bindings.set, h]
      · simp [Bindings.set, List.lookup_cons, h, hbeq h]
    · by_cases h : other = n
      · subst h
        simp [Bindings.set, hn]
      · simp [Bindings.set, hn, List.lookup_cons, hbeq h, ih]

/-- Setting a name that is bound changes no names; otherwise the name is added. -/
theorem Bindings.names_set (bindings : Bindings) (name : String) (value : Value) :
    (bindings.set name value).names =
      if name ∈ bindings.names then bindings.names else bindings.names ++ [name] := by
  induction bindings with
  | nil => simp [Bindings.set, Bindings.names]
  | cons entry rest ih =>
    obtain ⟨n, v⟩ := entry
    by_cases hn : n = name
    · simp [Bindings.set, Bindings.names, hn]
    · have hne : name ≠ n := fun h => hn h.symm
      simp only [Bindings.names] at ih
      simp only [Bindings.set, Bindings.names, hn, if_false, List.map_cons, ih, List.mem_cons, hne,
        false_or]
      split
      next h => simp [h]
      next h => simp [h]

/-- One frame. -/
structure Frame where
  /-- The frame around this one. -/
  outer : Option Nat := none
  bindings : Bindings := []

/-- Whether a frame itself holds a name. -/
def Frame.holds (f : Frame) (name : String) : Bool := (f.bindings.lookup name).isSome

/-- The frame after giving a name a value in it. -/
def Frame.set (f : Frame) (name : String) (value : Value) : Frame :=
  { f with bindings := f.bindings.set name value }

/-- All frames, numbered in the order in which they were made. -/
structure Scopes where
  frames : Array Frame := #[]

namespace Scopes

/-- The number of the frame made next. -/
def size (s : Scopes) : Nat := s.frames.size

/-- Makes a frame with the given bindings inside another one. -/
def push (s : Scopes) (outer : Option Nat) (bindings : Bindings) : Scopes :=
  ⟨s.frames.push ⟨outer, bindings⟩⟩

/-- Drops all frames from the given number on. -/
def truncate (s : Scopes) (size : Nat) : Scopes := ⟨s.frames.shrink size⟩

/-- A new frame is one more. -/
@[simp] theorem size_push (s : Scopes) (outer : Option Nat) (bindings : Bindings) :
    (s.push outer bindings).size = s.size + 1 := by
  simp [push, size]

/-- Truncation keeps as many frames as it says, if there are as many. -/
@[simp] theorem size_truncate (s : Scopes) (n : Nat) : (s.truncate n).size = min n s.size := by
  simp [truncate, size]

/-- A frame and those around it, from the inside outward. -/
def chain (s : Scopes) (frame : Nat) : List Nat :=
  match s.frames[frame]? with
  | none => []
  | some f =>
    match f.outer with
    | none => [frame]
    | some outer => if outer < frame then frame :: s.chain outer else [frame]

/-- Whether the given frame itself holds a name. -/
def holds (s : Scopes) (frame : Nat) (name : String) : Bool :=
  (s.frames[frame]?).any (·.holds name)

/-- The nearest frame that holds a name. -/
def holder? (s : Scopes) (frame : Nat) (name : String) : Option Nat :=
  (s.chain frame).find? (s.holds · name)

/-- The value of a name, seen from a frame. -/
def lookup (s : Scopes) (frame : Nat) (name : String) : Option Value := do
  let holder ← s.holder? frame name
  let f ← s.frames[holder]?
  f.bindings.lookup name

/-- Gives a name a value in a frame, whatever the frames around it hold. -/
def define (s : Scopes) (frame : Nat) (name : String) (value : Value) : Scopes :=
  ⟨s.frames.modify frame (·.set name value)⟩

/-- Defining a name adds no frame. -/
@[simp] theorem size_define (s : Scopes) (frame : Nat) (name : String) (value : Value) :
    (s.define frame name value).size = s.size := by
  simp [define, size]

/-- Gives a name a value in the nearest frame that holds it, or else in the given frame. -/
def assign (s : Scopes) (frame : Nat) (name : String) (value : Value) : Scopes :=
  s.define ((s.holder? frame name).getD frame) name value

/-- Assigning a name adds no frame. -/
@[simp] theorem size_assign (s : Scopes) (frame : Nat) (name : String) (value : Value) :
    (s.assign frame name value).size = s.size :=
  size_define ..

/-- The bindings of a frame itself. -/
def bindings (s : Scopes) (frame : Nat) : Bindings := ((s.frames[frame]?).map (·.bindings)).getD []

/-- The names that are visible from a frame, in increasing order. -/
def identifiers (s : Scopes) (frame : Nat) : List String :=
  Text.sortedNames ((s.chain frame).flatMap fun f => (s.bindings f).names)

end Scopes

end Offside
