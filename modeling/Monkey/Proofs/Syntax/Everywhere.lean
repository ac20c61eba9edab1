import Monkey.Proofs.Eval.Invariant

/-! # What holds everywhere in a program

`Expr.Everywhere P` and its companions say that `P` holds of an expression and of all expressions in
it, however deep they lie. The bodies of functions count as well, although they are not evaluated
where they stand.

A program in which `P` holds everywhere makes only functions in which it does, and whatever calls
them evaluates only expressions in which it does: this is the invariant `Invariant.everywhere`.
-/

namespace Monkey

mutual

def Expr.Everywhere (P : Expr → Prop) : Expr → Prop
  | .ident x => P (.ident x)
  | .int t n => P (.int t n)
  | .str t s => P (.str t s)
  | .bool t b => P (.bool t b)
  | .unary t op e => P (.unary t op e) ∧ e.Everywhere P
  | .binary t op l r => P (.binary t op l r) ∧ l.Everywhere P ∧ r.Everywhere P
  | .cond t c b none => P (.cond t c b none) ∧ c.Everywhere P ∧ b.Everywhere P
  | .cond t c b (some a) =>
    P (.cond t c b (some a)) ∧ c.Everywhere P ∧ b.Everywhere P ∧ a.Everywhere P
  | .fn t xs b => P (.fn t xs b) ∧ b.Everywhere P
  | .call t f es => P (.call t f es) ∧ f.Everywhere P ∧ Expr.EverywhereAll P es
  | .array t es => P (.array t es) ∧ Expr.EverywhereAll P es
  | .index t l i => P (.index t l i) ∧ l.Everywhere P ∧ i.Everywhere P
  | .hash t ps => P (.hash t ps) ∧ Expr.EverywherePairs P ps

def Expr.EverywhereAll (P : Expr → Prop) : List Expr → Prop
  | [] => True
  | e :: es => e.Everywhere P ∧ Expr.EverywhereAll P es

def Expr.EverywherePairs (P : Expr → Prop) : List (Expr × Expr) → Prop
  | [] => True
  | (k, v) :: ps => (k.Everywhere P ∧ v.Everywhere P) ∧ Expr.EverywherePairs P ps

def Stmt.Everywhere (P : Expr → Prop) : Stmt → Prop
  | .bind _ _ e => e.Everywhere P
  | .ret _ none => True
  | .ret _ (some e) => e.Everywhere P
  | .expr e => e.Everywhere P
  | .block b => b.Everywhere P

def Stmt.EverywhereAll (P : Expr → Prop) : List Stmt → Prop
  | [] => True
  | s :: ss => s.Everywhere P ∧ Stmt.EverywhereAll P ss

def Block.Everywhere (P : Expr → Prop) : Block → Prop
  | .mk _ ss => Stmt.EverywhereAll P ss

end

def Program.Everywhere (P : Expr → Prop) (p : Program) : Prop :=
  ∀ s ∈ p.statements, s.Everywhere P

variable {P : Expr → Prop}

theorem Expr.everywhereAll_iff {es : List Expr} :
    Expr.EverywhereAll P es ↔ ∀ e ∈ es, e.Everywhere P := by
  induction es with
  | nil => simp [Expr.EverywhereAll]
  | cons e es ih => rw [Expr.EverywhereAll, ih, List.forall_mem_cons]

theorem Expr.everywherePairs_iff {ps : List (Expr × Expr)} :
    Expr.EverywherePairs P ps ↔ ∀ p ∈ ps, p.1.Everywhere P ∧ p.2.Everywhere P := by
  induction ps with
  | nil => simp [Expr.EverywherePairs]
  | cons p ps ih => rw [Expr.EverywherePairs, ih, List.forall_mem_cons]

theorem Block.everywhere_iff {b : Block} :
    b.Everywhere P ↔ ∀ s ∈ b.statements, s.Everywhere P := by
  obtain ⟨t, ss⟩ := b
  rw [Block.Everywhere, Block.statements_mk]
  induction ss with
  | nil => simp [Stmt.EverywhereAll]
  | cons s ss ih => rw [Stmt.EverywhereAll, ih, List.forall_mem_cons]

/-- What holds everywhere in an expression holds everywhere in its parts. -/
theorem Expr.Everywhere.matches_self {e : Expr} (h : e.Everywhere P) :
    e.Matches (fun d e => d = e ∧ d.Everywhere P) (fun c d => c = d ∧ c.Everywhere P) e := by
  have hblock {b : Block} (hb : b.Everywhere P) :
      List.Forall₂ (fun c d => c = d ∧ c.Everywhere P) b.statements b.statements :=
    forall₂_eq_and_iff.2 (Block.everywhere_iff.1 hb)
  have hall {es : List Expr} (hes : Expr.EverywhereAll P es) :
      List.Forall₂ (fun d e => d = e ∧ d.Everywhere P) es es :=
    forall₂_eq_and_iff.2 (Expr.everywhereAll_iff.1 hes)
  cases e with
  | ident x => exact .ident rfl
  | int t n => exact .int n
  | str t s => exact .str s
  | bool t b => exact .bool b
  | unary t op e => exact .unary op ⟨rfl, h.2⟩
  | binary t op l r => exact .binary op ⟨rfl, h.2.1⟩ ⟨rfl, h.2.2⟩
  | cond t c b a? =>
    cases a? with
    | none => exact .cond ⟨rfl, h.2.1⟩ (hblock h.2.2)
    | some a => exact .condElse ⟨rfl, h.2.1⟩ (hblock h.2.2.1) (hblock h.2.2.2)
  | fn t xs b => exact .fn
  | call t f es => exact .call ⟨rfl, h.2.1⟩ (hall h.2.2)
  | array t es => exact .array (hall h.2)
  | index t l i => exact .index ⟨rfl, h.2.1⟩ ⟨rfl, h.2.2⟩
  | hash t ps =>
    refine .hash (List.forall₂_same.2 fun p hp => ?_)
    obtain ⟨hk, hv⟩ := Expr.everywherePairs_iff.1 h.2 p hp
    exact ⟨⟨rfl, hk⟩, rfl, hv⟩

theorem Stmt.Everywhere.matches_self {c : Stmt} (h : c.Everywhere P) :
    c.Matches (fun d e => d = e ∧ d.Everywhere P) (fun c d => c = d ∧ c.Everywhere P) c := by
  cases c with
  | bind t x e => exact .bind rfl ⟨rfl, h⟩
  | ret t e? =>
    cases e? with
    | none => exact .retNone
    | some e => exact .ret ⟨rfl, h⟩
  | expr e => exact .expr ⟨rfl, h⟩
  | block b => exact .block (forall₂_eq_and_iff.2 (Block.everywhere_iff.1 h))

/-- The property holds everywhere in the bodies of functions, and in what is evaluated. -/
def Invariant.everywhere (P : Expr → Prop) : Invariant where
  functions f := f.body.Everywhere P
  errors := True
  exprs := Expr.Everywhere P
  stmts := Stmt.Everywhere P
  expr_matches := Expr.Everywhere.matches_self
  stmt_matches := Stmt.Everywhere.matches_self
  body := Block.everywhere_iff.1
  made h _ _ := h.2

end Monkey
