import Mathlib.Logic.Relation
import Monkey.Proofs.Eval.Invariant

/-! # Stores in which nothing is missing

A frame holds functions, and each of these lies in a frame: often in the one that holds it, so that
one can go around in circles from frames to functions and back. Only the way from a frame to the one
around it never leads back. `Store.WellScoped` says that it always leads to a frame that was made
earlier, and that all functions lie in frames that there are.

Names can then be looked up by going outwards from frame to frame, without a look at which frame is
older. The search meets no frame that does not exist, and ends in one that lies in no other
(`Store.Grounded`).
-/

namespace Monkey

open Relation

/-- The functions that are contained in the value lie in the first `n` frames. -/
def Value.ScopedIn (n : Nat) (v : Value) : Prop := ∀ f, Within (.function f) v → f.scope < n

theorem Value.ScopedIn.mono {m n : Nat} {v : Value} (h : v.ScopedIn m) (hmn : m ≤ n) :
    v.ScopedIn n :=
  fun f hf => Nat.lt_of_lt_of_le (h f hf) hmn

namespace Store

structure WellScoped (s : Store) : Prop where
  /-- What lies around a frame was made earlier. -/
  outer_lt : ∀ (i : FrameId) (f : Frame) (o : FrameId),
    s.frames[i]? = some f → f.outer = some o → o < i
  /-- What is bound lies in frames that there are. -/
  bound : s.Forall (Value.ScopedIn s.next)

variable {s t : Store} {i o : FrameId} {x : String} {v : Value}

namespace WellScoped

theorem empty : Store.empty.WellScoped where
  outer_lt i f o hf := by cases hf
  bound := forall_empty _

/-- Only the frames matter. -/
theorem of_frames_eq (h : s.WellScoped) (ht : t.frames = s.frames) : t.WellScoped := by
  obtain ⟨frames, functions, output⟩ := t
  subst ht
  exact ⟨h.outer_lt, h.bound⟩

theorem addFrame (h : s.WellScoped) {f : Frame} (ho : ∀ o, f.outer = some o → o < s.next)
    (hf : ∀ x v, f.bindings.find? x = some v → v.ScopedIn s.next) : (s.addFrame f).WellScoped where
  outer_lt i g o hg hgo := by
    rw [getElem?_addFrame] at hg
    split at hg
    · rename_i hi
      cases hg
      exact hi ▸ ho o hgo
    · exact h.outer_lt i g o hg hgo
  bound := by
    rw [next_addFrame]
    exact (h.bound.addFrame hf).mono fun v hv => hv.mono (Nat.le_succ _)

theorem set (h : s.WellScoped) (hv : v.ScopedIn s.next) : (s.set i x v).WellScoped where
  outer_lt k f o hf ho := by
    rw [getElem?_set] at hf
    split at hf
    · obtain ⟨g, hg, rfl⟩ := Option.map_eq_some_iff.1 hf
      exact h.outer_lt k g o hg ho
    · exact h.outer_lt k f o hf ho
  bound := by
    rw [next_set]
    exact h.bound.set hv

/-- The frame of a call lies in the one that the function was made in. -/
theorem addFrame_ofCall (h : s.WellScoped) (hi : i < s.next) (xs : List String) {vs : List Value}
    (hvs : ∀ v ∈ vs, v.ScopedIn s.next) : (s.addFrame (.ofCall i xs vs)).WellScoped := by
  have hframe : Frame.Related (fun o _ => o < s.next) (fun v _ => v.ScopedIn s.next)
      (.ofCall i xs vs) (.ofCall i xs vs) :=
    .ofCall (O := fun o _ => o < s.next) (j := i) hi xs (List.forall₂_same.2 hvs)
  refine h.addFrame (fun o ho => ?_) fun x v hv => ?_
  · obtain ⟨_, -, ho⟩ := exists_of_rel hframe.outer ho
    exact ho
  · obtain ⟨_, -, hv⟩ := exists_of_rel (hframe.bound x) hv
    exact hv

end WellScoped

/-! ## Going outwards -/

/-- The frame `i` lies in the frame `o`. -/
def Outer (s : Store) (i o : FrameId) : Prop := ∃ f, s.frames[i]? = some f ∧ f.outer = some o

/-- The frame `i` lies in no other. -/
def TopLevel (s : Store) (i : FrameId) : Prop := ∃ f, s.frames[i]? = some f ∧ f.outer = none

/-- The search for a name comes to an end, in the frame `i` or further outwards. No rule is for a
frame that does not exist, nor does any compare the numbers of frames. -/
inductive Lookup (s : Store) : FrameId → String → Option Value → Prop where
  | here {i f x v} (hf : s.frames[i]? = some f) (hx : f.bindings.find? x = some v) :
      Lookup s i x (some v)
  | outside {i f x o v?} (hf : s.frames[i]? = some f) (hx : f.bindings.find? x = none)
      (ho : f.outer = some o) (h : Lookup s o x v?) : Lookup s i x v?
  | nowhere {i f x} (hf : s.frames[i]? = some f) (hx : f.bindings.find? x = none)
      (ho : f.outer = none) : Lookup s i x none

/-- Going outwards always comes to an end. -/
structure Grounded (s : Store) : Prop where
  acyclic : ∀ i, ¬TransGen s.Outer i i
  ends : ∀ i, i < s.next → ∃ j, ReflTransGen s.Outer i j ∧ s.TopLevel j
  lookup : ∀ i x v?, i < s.next → (s.Lookup i x v? ↔ s.get? i x = v?)

namespace WellScoped

theorem lt_of_outer (h : s.WellScoped) (ho : s.Outer i o) : o < i := by
  obtain ⟨f, hf, hfo⟩ := ho
  exact h.outer_lt i f o hf hfo

theorem lt_of_transGen (h : s.WellScoped) (hio : TransGen s.Outer i o) : o < i := by
  induction hio with
  | single ho => exact h.lt_of_outer ho
  | tail _ ho ih => exact Nat.lt_trans (h.lt_of_outer ho) ih

theorem exists_topLevel (h : s.WellScoped) (hi : i < s.next) :
    ∃ j, ReflTransGen s.Outer i j ∧ s.TopLevel j := by
  induction i using Nat.strongRecOn with
  | ind i ih =>
    have hf : s.frames[i]? = some s.frames[i] := Array.getElem?_eq_getElem hi
    rcases ho : s.frames[i].outer with _ | o
    · exact ⟨i, .refl, _, hf, ho⟩
    · have hlt : o < i := h.outer_lt i _ o hf ho
      obtain ⟨j, hoj, hj⟩ := ih o hlt (Nat.lt_trans hlt hi)
      exact ⟨j, .head ⟨_, hf, ho⟩ hoj, hj⟩

theorem lookup_get? (h : s.WellScoped) (hi : i < s.next) (x : String) :
    s.Lookup i x (s.get? i x) := by
  induction i using Nat.strongRecOn with
  | ind i ih =>
    have hf : s.frames[i]? = some s.frames[i] := Array.getElem?_eq_getElem hi
    rw [get?_of_frame hf]
    rcases hx : s.frames[i].bindings.find? x with _ | v
    · rcases ho : s.frames[i].outer with _ | o
      · exact .nowhere hf hx ho
      · have hlt : o < i := h.outer_lt i _ o hf ho
        rw [Option.none_or, Option.bind_some, if_pos hlt]
        exact .outside hf hx ho (ih o hlt (Nat.lt_trans hlt hi))
    · exact .here hf hx

/-- Which frame is older need not be looked at: the one around another is. -/
theorem get?_of_lookup (h : s.WellScoped) {v? : Option Value} (hl : s.Lookup i x v?) :
    s.get? i x = v? := by
  induction hl with
  | here hf hx => rw [get?_of_frame hf, hx, Option.some_or]
  | outside hf hx ho _ ih =>
    rw [get?_of_frame hf, hx, ho, Option.none_or, Option.bind_some,
      if_pos (h.outer_lt _ _ _ hf ho), ih]
  | nowhere hf hx ho =>
    rw [get?_of_frame hf, hx, ho]
    rfl

theorem grounded (h : s.WellScoped) : s.Grounded where
  acyclic i hi := Nat.lt_irrefl i (h.lt_of_transGen hi)
  ends _ hi := h.exists_topLevel hi
  lookup _ x _ hi := ⟨h.get?_of_lookup, fun hv => hv ▸ h.lookup_get? hi x⟩

end WellScoped
end Store
end Monkey
