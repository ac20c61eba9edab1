import Monkey.Eval.Program

/-! # What an evaluation does to the store

`Eval.Along R x` says that wherever `x` ends, however it ends, `R` holds between the store that it
was started in and the one that it has left. If `R` goes from each store to itself, and on from one
to the next (`Eval.Transition`), then actions that are along `R` can be put together to actions that
are along `R`.
-/

namespace Monkey.Eval

variable {α β : Type} {R S : Store → Store → Prop} {x : Eval α}

def Along (R : Store → Store → Prop) (x : Eval α) : Prop :=
  ∀ s r t, x s = some (r, t) → R s t

/-- Nothing happens along `R`, and one thing after the other does. -/
structure Transition (R : Store → Store → Prop) : Prop where
  refl : ∀ s, R s s
  trans : ∀ {s t u}, R s t → R t u → R s u

namespace Along

theorem mono (h : Along R x) (hRS : ∀ s t, R s t → S s t) : Along S x :=
  fun s r t hx => hRS s t (h s r t hx)

theorem spent : Along R (spent : Eval α) := fun _ _ _ h => nomatch h

theorem update {f : Store → Store} (h : ∀ s, R s (f s)) : Along R (update f) := by
  rintro s _ _ ⟨⟩
  exact h s

theorem returning {x : Eval Value} (h : Along R x) : Along R (returning x) := by
  intro s r t hx
  rw [Eval.returning] at hx
  split at hx
  · rename_i v u hv
    cases hx
    exact h s _ t hv
  · exact h s r t hx

section Transition

variable (hR : Transition R)

include hR

theorem pure (a : α) : Along R (pure a : Eval α) := by
  rintro s _ _ ⟨⟩
  exact hR.refl s

theorem signal (e : Signal) : Along R (signal e : Eval α) := by
  rintro s _ _ ⟨⟩
  exact hR.refl s

theorem ofExcept (a : Except Fault α) : Along R (ofExcept a) := by
  cases a with
  | ok a => exact pure hR a
  | error f => exact signal hR (.raised f)

theorem ask (f : Store → α) : Along R (ask f) := by
  rintro s _ _ ⟨⟩
  exact hR.refl s

theorem bind {f : α → Eval β} (h : Along R x) (hf : ∀ a, Along R (f a)) : Along R (x >>= f) := by
  intro s r u hr
  rcases hx : x s with _ | ⟨e | a, t⟩
  · rw [bind_of_none hx] at hr
    cases hr
  · rw [bind_of_error hx] at hr
    cases hr
    exact h s _ _ hx
  · rw [bind_of_ok hx] at hr
    exact hR.trans (h s _ t hx) (hf a t r u hr)

theorem foldlM {f : β → α → Eval β} {l : List α} (h : ∀ a ∈ l, ∀ b, Along R (f b a)) (b : β) :
    Along R (l.foldlM f b) := by
  induction l generalizing b with
  | nil => exact pure hR b
  | cons a l ih =>
    obtain ⟨ha, hl⟩ := List.forall_mem_cons.1 h
    rw [List.foldlM_cons]
    exact bind hR (ha b) (ih hl)

theorem mapM {f : α → Eval β} {l : List α} (h : ∀ a ∈ l, Along R (f a)) : Along R (l.mapM f) := by
  induction l with
  | nil => exact pure hR []
  | cons a l ih =>
    obtain ⟨ha, hl⟩ := List.forall_mem_cons.1 h
    rw [List.mapM_cons]
    exact bind hR ha fun _ => bind hR (ih hl) fun _ => pure hR _

theorem sequence {f : Stmt → Eval Value} {ss : List Stmt} (h : ∀ s ∈ ss, Along R (f s)) :
    Along R (sequence f ss) :=
  foldlM hR (fun s hs _ => h s hs) _

theorem name (scope : FrameId) (y : String) : Along R (name scope y) := by
  refine bind hR (ask hR _) fun v? => ?_
  split
  · exact pure hR _
  · split
    · exact pure hR _
    · exact signal hR _

theorem addPair {f : Expr → Eval Value} {p : Expr × Expr} (hk : Along R (f p.1))
    (hv : Along R (f p.2)) (t : Table (Entry Value)) : Along R (addPair f t p) := by
  refine bind hR hk fun _ => bind hR (ofExcept hR _) fun _ => ?_
  exact bind hR hv fun _ => pure hR _

end Transition

end Along
end Monkey.Eval
