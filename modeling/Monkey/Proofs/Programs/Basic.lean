import Monkey.Proofs.Eval.Calculation
import Monkey.Proofs.Eval.Yields
import Monkey.Proofs.Session.Append

/-! # What a program computes

A program that works on integers, lists of them and the like computes a function `α → Except Fault β`
of Lean: values of the language stand for those of `β`, and faults for themselves. `Eval.result` says
what such an evaluation ends with. The rules for operands and arguments that may be faulty are then
those of `do`: the first fault is the result of the whole.
-/

namespace Monkey

open Eval

/-! ## Texts -/

/-- A text of which the characters are known is read without being taken apart. -/
theorem Program.parse_ofList (cs : List Char) :
    parse (String.ofList cs) = (Reader.mk (Token.scanChars cs) []).finish.1 := by
  rw [parse, Reader.ofSource, Token.scan, String.toList_ofList]

theorem Store.run_of_ends {source : String} {p : Program} {i : FrameId} {s t : Store}
    {r : Except Signal Value} (hp : Program.parse source = .ok p)
    (h : Ends i (.block p.statements) s r t) :
    ∃ depth, s.run depth i source = some (.ok (shown r), t) := by
  obtain ⟨depth, h⟩ := h
  refine ⟨depth, ?_⟩
  rw [run_of_parse hp, Program.eval_of_sequence h, Option.map_some]

/-! ## Nodes with the tokens that they are read from -/

def Ident.ofName (x : String) : Ident := ⟨.ident x, x⟩

def Block.braced (ss : List Stmt) : Block := .mk (.sym .openBrace) ss

namespace Expr

def var (x : String) : Expr := .ident (.ofName x)

def number (digits : String) (n : Nat) : Expr := .int (.int digits) (.ofCount n)

def applied (f : String) (args : List Expr) : Expr := .call (.sym .openParen) (var f) args

def func (xs : List String) (ss : List Stmt) : Expr :=
  .fn (.word .fnWord) (xs.map .ofName) (.braced ss)

end Expr

def Stmt.named (x : String) (e : Expr) : Stmt := .bind (.word .letWord) (.ofName x) e

/-- The function that `Expr.func` makes. -/
def Closure.func (id : Nat) (xs : List String) (ss : List Stmt) (scope : FrameId) : Closure :=
  ⟨id, xs.map .ofName, .braced ss, scope⟩

@[simp] theorem Value.isTruthy_bool (b : Bool) : (Value.bool b).isTruthy = b := by
  cases b <;> rfl

namespace Eval

/-! ## Results -/

/-- What an evaluation ends with if it is to compute `x`. -/
def result {α : Type} (rep : α → Value) (x : Except Fault α) : Except Signal Value :=
  (x.map rep).mapError .raised

/-- No `return` is left to be caught. -/
theorem caught_result {α : Type} (rep : α → Value) (x : Except Fault α) :
    caught (result rep x) = result rep x := by
  cases x <;> rfl

/-- The result of an operation on integers, or the fault that it is out of range. -/
def operate (a : Integer) (op : ArithmeticOp) (b : Integer) : Except Fault Integer :=
  (Integer.ofInt? (op.exact a.val b.val)).elim (.error (.overflow a op.op b)) .ok

section Operate

variable {a b c : Integer} {op : ArithmeticOp}

theorem operate_of_eq (h : op.exact a.val b.val = c.val) : operate a op b = .ok c := by
  rw [operate, h, Integer.ofInt?_val, Option.elim_some]

theorem operate_of_not_inRange (h : ¬Integer.InRange (op.exact a.val b.val)) :
    operate a op b = .error (.overflow a op.op b) := by
  rw [operate, Integer.ofInt?_eq_none.2 h, Option.elim_none]

end Operate

/-! ## Functions -/

variable {s t : Store} {i o : FrameId} {v : Value} {vs : List Value} {x : String} {xs : List String}

theorem ends_func (i : FrameId) (xs : List String) (ss : List Stmt) (s : Store) :
    Ends i (.expr (.func xs ss)) s (.ok (.function (.func s.functions xs ss i)))
      { s with functions := s.functions + 1 } := ends_fn i _ _ _ s

theorem ends_named_func (i : FrameId) (x : String) (xs : List String) (ss : List Stmt) (s : Store) :
    Ends i (.stmt (.named x (.func xs ss))) s (.ok (.function (.func s.functions xs ss i)))
      ({ s with functions := s.functions + 1 }.set i x (.function (.func s.functions xs ss i))) :=
  (ends_func i xs ss s).bind _ (.ofName x)

/-- In the frame of a call, names are looked up among the parameters first. -/
theorem yields_var (h : s.Keeps t) (ho : o < s.next) (hxs : xs.Nodup)
    (hv : ((xs.zip vs).lookup x).or (s.get? o x) = some v) :
    Yields (t.addFrame (.ofCall o xs vs)) t.next (.expr (.var x)) (.ok v) := by
  apply yields_ident
  · rw [Store.next_addFrame]
    exact Nat.lt_succ_self t.next
  · rwa [h.get?_ofCall ho hxs]

theorem yields_var_builtin {b : Builtin} (h : s.Keeps t) (ho : o < s.next) (hxs : xs.Nodup)
    (hb : ((xs.zip vs).lookup b.name).or (s.get? o b.name) = none) :
    Yields (t.addFrame (.ofCall o xs vs)) t.next (.expr (.var b.name)) (.ok (.builtin b)) := by
  apply yields_builtin
  · rw [Store.next_addFrame]
    exact Nat.lt_succ_self t.next
  · rwa [h.get?_ofCall ho hxs]

theorem Yields.func_of_ends {ss : List Stmt} {r : Except Signal Value} (id : Nat)
    (hlen : xs.length = vs.length) (h : ∀ t, s.Keeps t →
      ∃ u, Ends t.next (.block ss) (t.addFrame (.ofCall o xs vs)) r u) :
    Yields s i (.call (.function (.func id xs ss o)) vs) (caught r) := by
  have hxs : (xs.map Ident.ofName).map Ident.name = xs := by
    rw [List.map_map]
    exact List.map_id xs
  apply Yields.function
  · rwa [Closure.func, List.length_map]
  · intro t ht
    rw [Closure.func, hxs]
    exact h t ht

theorem Yields.func {ss : List Stmt} {r : Except Signal Value} (id : Nat)
    (hlen : xs.length = vs.length) (h : ∀ t, s.Keeps t →
      Yields (t.addFrame (.ofCall o xs vs)) t.next (.block ss) r) :
    Yields s i (.call (.function (.func id xs ss o)) vs) (caught r) := by
  apply Yields.func_of_ends id hlen
  intro t ht
  obtain ⟨u, hu, -⟩ := h t ht _ (.refl _)
  exact ⟨u, hu⟩

/-- The last argument may be faulty. -/
theorem Yields.applied_result {α β : Type} {rep : α → Value} {rep' : β → Value}
    {y : Except Fault α} {g : α → Except Fault β} {f : String} {es : List Expr} {e : Expr}
    (hf : Yields s i (.expr (.var f)) (.ok v)) (hes : YieldsAll s i es vs)
    (he : Yields s i (.expr e) (result rep y))
    (hcall : ∀ a, Yields s i (.call v (vs ++ [rep a])) (result rep' (g a))) :
    Yields s i (.expr (.applied f (es ++ [e]))) (result rep' (y >>= g)) := by
  cases y with
  | ok a => exact hf.apply _ (hes.append (.cons he (.nil s i))) (hcall a)
  | error fault =>
    have hbefore : Reaches s i (.any (.expr (.var f)) :: Prior.exprs es) :=
      .cons hf trivial hes.reaches
    exact Position.yields_fill (.argument (.sym .openParen) (.var f) es []) (.expr e) hbefore he

/-! ## Operators -/

namespace Yields

variable {l r : Expr} {a b : Integer}

theorem compare (token : Token) (op : ComparisonOp) (hl : Yields s i (.expr l) (.ok (.int a)))
    (hr : Yields s i (.expr r) (.ok (.int b))) :
    Yields s i (.expr (.binary token op.op l r)) (.ok (.bool (op.holds a.val b.val))) := by
  have h := hl.binary token op.op hr
  rwa [Eval.binary, arithmetic_comparison] at h

theorem operate (token : Token) (op : ArithmeticOp) (hop : op ≠ .slash)
    (hl : Yields s i (.expr l) (.ok (.int a))) (hr : Yields s i (.expr r) (.ok (.int b))) :
    Yields s i (.expr (.binary token op.op l r)) (result .int (operate a op b)) := by
  have h := hl.binary token op.op hr
  rw [Eval.binary, arithmetic_op, if_neg fun hslash => hop hslash.1] at h
  rw [Eval.operate]
  cases hn : Integer.ofInt? (op.exact a.val b.val) <;> rw [hn] at h <;> exact h

/-- Both operands may be faulty. -/
theorem operate_result (token : Token) (op : ArithmeticOp) (hop : op ≠ .slash)
    {x y : Except Fault Integer} (hl : Yields s i (.expr l) (result .int x))
    (hr : Yields s i (.expr r) (result .int y)) :
    Yields s i (.expr (.binary token op.op l r))
      (result .int (do let a ← x; let b ← y; Eval.operate a op b)) := by
  cases x with
  | error f => exact Position.yields_fill (.left token op.op r) (.expr l) (.nil s i) hl
  | ok a =>
    cases y with
    | error f =>
      have hbefore : Reaches s i [.any (.expr l)] := .cons hl trivial (.nil s i)
      exact Position.yields_fill (.right token op.op l) (.expr r) hbefore hr
    | ok b => exact hl.operate token op hop hr

end Yields
end Eval
end Monkey
