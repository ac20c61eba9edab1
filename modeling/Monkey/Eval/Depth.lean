import Monkey.Eval.Program

/-! # Depth only cuts evaluations off

An evaluation that ends within some depth ends in the same way within every greater one:
`Eval.expr_mono` and `Eval.stmt_mono`. `Eval.Below x y` says that `y` ends as `x` does wherever `x`
ends, and each way to put actions together respects it.
-/

namespace Monkey.Eval

variable {α β : Type}

/-- Where `x` is not cut off, `y` does the same. -/
def Below (x y : Eval α) : Prop := ∀ s r, x s = some r → y s = some r

namespace Below

theorem refl (x : Eval α) : Below x x := fun _ _ h => h

theorem spent (x : Eval α) : Below spent x := fun _ _ h => nomatch h

theorem bind {x y : Eval α} {f g : α → Eval β} (h : Below x y) (hf : ∀ a, Below (f a) (g a)) :
    Below (x >>= f) (y >>= g) := by
  intro s r hr
  rcases hx : x s with _ | ⟨e | a, t⟩
  · rw [bind_of_none hx] at hr
    cases hr
  · rw [bind_of_error hx] at hr
    rw [bind_of_error (h s _ hx), hr]
  · rw [bind_of_ok hx] at hr
    rw [bind_of_ok (h s _ hx)]
    exact hf a t r hr

theorem returning {x y : Eval Value} (h : Below x y) : Below (returning x) (returning y) := by
  intro s r hr
  rcases hx : x s with _ | a
  · rw [Eval.returning, hx] at hr
    cases hr
  · rw [Eval.returning, hx] at hr
    rw [Eval.returning, h s _ hx]
    exact hr

theorem foldlM {f g : β → α → Eval β} (l : List α) (h : ∀ b a, Below (f b a) (g b a)) (b : β) :
    Below (l.foldlM f b) (l.foldlM g b) := by
  induction l generalizing b with
  | nil => exact refl _
  | cons a l ih =>
    rw [List.foldlM_cons, List.foldlM_cons]
    exact bind (h b a) ih

theorem mapM {f g : α → Eval β} (l : List α) (h : ∀ a, Below (f a) (g a)) :
    Below (l.mapM f) (l.mapM g) := by
  induction l with
  | nil => exact refl _
  | cons a l ih =>
    rw [List.mapM_cons, List.mapM_cons]
    exact bind (h a) fun _ => bind ih fun _ => refl _

theorem sequence {f g : Stmt → Eval Value} (ss : List Stmt) (h : ∀ s, Below (f s) (g s)) :
    Below (sequence f ss) (sequence g ss) :=
  foldlM ss (fun _ s => h s) _

theorem addPair {f g : Expr → Eval Value} (h : ∀ e, Below (f e) (g e)) (t : Table (Entry Value))
    (pair : Expr × Expr) : Below (addPair f t pair) (addPair g t pair) :=
  bind (h _) fun _ => bind (refl _) fun _ => bind (h _) fun _ => refl _

theorem call {f g : FrameId → List Stmt → Eval Value} (h : ∀ i ss, Below (f i ss) (g i ss))
    (callee : Value) (args : List Value) : Below (call f callee args) (call g callee args) := by
  cases callee with
  | function c =>
    by_cases hc : c.params.length = args.length
    · simp only [Eval.call, if_pos hc]
      exact bind (refl _) fun _ => returning (h _ _)
    · simp only [Eval.call, if_neg hc]
      exact refl _
  | _ => exact refl _

end Below

/-- One more level changes nothing that has ended. -/
theorem below_succ (n : Nat) :
    (∀ scope e, Below (expr n scope e) (expr (n + 1) scope e)) ∧
      ∀ scope s, Below (stmt n scope s) (stmt (n + 1) scope s) := by
  induction n with
  | zero => exact ⟨fun _ _ => .spent _, fun _ _ => .spent _⟩
  | succ n ih =>
    obtain ⟨he, hs⟩ := ih
    constructor
    · intro scope e
      cases e with
      | ident | int | str | bool | fn => exact .refl _
      | unary _ _ e => exact .bind (he _ e) fun _ => .refl _
      | binary _ _ l r => exact .bind (he _ l) fun _ => .bind (he _ r) fun _ => .refl _
      | cond _ c b a =>
        refine .bind (he _ c) fun v => ?_
        split
        · exact .sequence _ (hs scope)
        · split
          · exact .sequence _ (hs scope)
          · exact .refl _
      | call _ f args =>
        refine .bind (he _ f) fun _ => .bind (.mapM args (he scope)) fun _ => ?_
        exact .call (fun i ss => .sequence ss (hs i)) _ _
      | array _ es => exact .bind (.mapM es (he scope)) fun _ => .refl _
      | index _ l i => exact .bind (he _ l) fun _ => .bind (he _ i) fun _ => .refl _
      | hash _ ps => exact .bind (.foldlM ps (.addPair (he scope)) _) fun _ => .refl _
    · intro scope s
      cases s with
      | bind _ _ e => exact .bind (he _ e) fun _ => .refl _
      | ret _ e =>
        cases e with
        | none => exact .refl _
        | some e => exact .bind (he _ e) fun _ => .refl _
      | expr e => exact he _ e
      | block b => exact .sequence _ (hs scope)

theorem expr_mono {m n : Nat} (h : m ≤ n) (scope : FrameId) (e : Expr) :
    Below (expr m scope e) (expr n scope e) := by
  induction h with
  | refl => exact .refl _
  | step _ ih => exact fun s r hr => (below_succ _).1 scope e s r (ih s r hr)

theorem stmt_mono {m n : Nat} (h : m ≤ n) (scope : FrameId) (s : Stmt) :
    Below (stmt m scope s) (stmt n scope s) := by
  induction h with
  | refl => exact .refl _
  | step _ ih => exact fun t r hr => (below_succ _).2 scope s t r (ih t r hr)

end Monkey.Eval
