import Monkey.Value.Basic

/-! # The store

Names are bound in frames. A frame may lie inside an older one, and a name that it does not bind
itself is looked for there. Frames are never removed: a function may come back to the one that it
was made in.
-/

namespace Monkey

/-- Names and what they stand for, each name once. -/
abbrev Bindings : Type := List (String × Value)

namespace Bindings

def find? (x : String) : Bindings → Option Value
  | [] => none
  | (y, v) :: b => if y = x then some v else find? x b

/-- Makes `x` stand for `v`, and no longer for what it may have stood for before. -/
def set (x : String) (v : Value) : Bindings → Bindings
  | [] => [(x, v)]
  | (y, w) :: b => if y = x then (x, v) :: b else (y, w) :: set x v b

theorem find?_set (x y : String) (v : Value) (b : Bindings) :
    find? y (set x v b) = if x = y then some v else find? y b := by
  induction b with
  | nil => simp [set, find?]
  | cons e b ih =>
    obtain ⟨z, w⟩ := e
    simp only [set, find?]
    by_cases hz : z = x
    · subst hz
      by_cases hy : z = y <;> simp [find?, hy]
    · rw [if_neg hz, find?, ih]
      by_cases hy : z = y
      · subst hy
        simp [Ne.symm hz]
      · simp [hy]

end Bindings

structure Frame where
  bindings : Bindings
  outer : Option FrameId

namespace Frame

/-- Binds nothing yet. -/
def empty (outer : Option FrameId) : Frame := ⟨[], outer⟩

def set (x : String) (v : Value) (f : Frame) : Frame := { f with bindings := f.bindings.set x v }

/-- The frame of a call: inside `scope`, it binds the parameters one after the other. -/
def ofCall (scope : FrameId) (params : List String) (args : List Value) : Frame :=
  (params.zip args).foldl (fun f p => f.set p.1 p.2) (empty (some scope))

end Frame

structure Store where
  frames : Array Frame
  /-- How many functions have been made. -/
  functions : Nat
  /-- What has been printed. -/
  output : String

namespace Store

def empty : Store := ⟨#[], 0, ""⟩

/-- The number that the next new frame will have. -/
def next (s : Store) : FrameId := s.frames.size

def addFrame (f : Frame) (s : Store) : Store := { s with frames := s.frames.push f }

def set (i : FrameId) (x : String) (v : Value) (s : Store) : Store :=
  { s with frames := s.frames.modify i (·.set x v) }

def print (text : String) (s : Store) : Store := { s with output := s.output ++ text }

/-- What `x` stands for in the frame `i`, or in the nearest one around it that binds it. The frames
around a frame are all older than it. -/
def get? (s : Store) (i : FrameId) (x : String) : Option Value :=
  match s.frames[i]? with
  | none => none
  | some f =>
    match f.bindings.find? x, f.outer with
    | some v, _ => some v
    | none, some o => if o < i then s.get? o x else none
    | none, none => none
termination_by i

/-- A frame that binds the name comes before those around it. -/
theorem get?_of_frame {s : Store} {i : FrameId} {f : Frame} (h : s.frames[i]? = some f)
    (x : String) : s.get? i x =
      (f.bindings.find? x).or (f.outer.bind fun o => if o < i then s.get? o x else none) := by
  rw [get?, h]
  cases hx : f.bindings.find? x <;> cases ho : f.outer <;> simp [hx, ho]

end Store
end Monkey
