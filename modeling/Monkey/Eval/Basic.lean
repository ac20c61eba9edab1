import Monkey.Eval.Fault
import Monkey.Store

/-! # Actions on the store

An evaluation reads and changes the store. It ends with a value or with a signal, which is a
`return` on its way out of a function or a fault on its way out of the program; the store is as the
evaluation left it in either case. An evaluation that is cut off has no end, and is `none`.
-/

namespace Monkey

/-- Why an evaluation stops early. -/
inductive Signal where
  | returned (v : Value)
  | raised (f : Eval.Fault)

def Eval (α : Type) : Type := Store → Option (Except Signal α × Store)

namespace Eval

variable {α β γ : Type}

theorem ext {x y : Eval α} (h : ∀ s, x s = y s) : x = y := funext h

protected def pure (a : α) : Eval α := fun s => some (.ok a, s)

/-- Goes on with `f` after `x`, unless `x` stopped early. -/
protected def bind (x : Eval α) (f : α → Eval β) : Eval β := fun s =>
  match x s with
  | none => none
  | some (.error e, t) => some (.error e, t)
  | some (.ok a, t) => f a t

instance instMonad : Monad Eval where
  pure := Eval.pure
  bind := Eval.bind

@[simp] theorem pure_apply (a : α) (s : Store) : (pure a : Eval α) s = some (.ok a, s) := rfl

theorem bind_apply (x : Eval α) (f : α → Eval β) (s : Store) :
    (x >>= f) s = Eval.bind x f s := rfl

theorem bind_of_none {x : Eval α} {f : α → Eval β} {s : Store} (h : x s = none) :
    (x >>= f) s = none := by
  rw [bind_apply, Eval.bind, h]

theorem bind_of_error {x : Eval α} {f : α → Eval β} {s t : Store} {e : Signal}
    (h : x s = some (.error e, t)) : (x >>= f) s = some (.error e, t) := by
  rw [bind_apply, Eval.bind, h]

theorem bind_of_ok {x : Eval α} {f : α → Eval β} {s t : Store} {a : α}
    (h : x s = some (.ok a, t)) : (x >>= f) s = f a t := by
  rw [bind_apply, Eval.bind, h]

theorem bind_pure_self (x : Eval α) : x >>= pure = x := by
  refine Eval.ext fun s => ?_
  rcases h : x s with _ | ⟨e | a, t⟩
  · exact bind_of_none h
  · exact bind_of_error h
  · exact bind_of_ok h

theorem pure_bind_apply (a : α) (f : α → Eval β) : pure a >>= f = f a := rfl

theorem bind_bind (x : Eval α) (f : α → Eval β) (g : β → Eval γ) :
    x >>= f >>= g = x >>= fun a => f a >>= g := by
  refine Eval.ext fun s => ?_
  rcases h : x s with _ | ⟨e | a, t⟩
  · rw [bind_of_none (bind_of_none h), bind_of_none h]
  · rw [bind_of_error (bind_of_error h), bind_of_error h]
  · rw [bind_of_ok h, bind_apply, Eval.bind, bind_of_ok h, bind_apply, Eval.bind]

instance instLawfulMonad : LawfulMonad Eval :=
  LawfulMonad.mk' Eval bind_pure_self pure_bind_apply bind_bind

/-- Is cut off. -/
def spent : Eval α := fun _ => none

def signal (e : Signal) : Eval α := fun s => some (.error e, s)

def raise (f : Fault) : Eval α := signal (.raised f)

/-- The value, or the fault that is there in its place. -/
def ofExcept : Except Fault α → Eval α
  | .ok a => pure a
  | .error f => raise f

/-- Asks the store. -/
def ask (f : Store → α) : Eval α := fun s => some (.ok (f s), s)

/-- Changes the store. -/
def update (f : Store → Store) : Eval Unit := fun s => some (.ok (), f s)

/-- A `return` goes no further: what it returns is the value. -/
def returning (x : Eval Value) : Eval Value := fun s =>
  match x s with
  | some (.error (.returned v), t) => some (.ok v, t)
  | other => other

/-- Adds a frame, and gives its number. -/
def addFrame (f : Frame) : Eval FrameId := do
  let i ← ask Store.next
  update (Store.addFrame f)
  pure i

/-- Makes a function that is different from all others. -/
def makeFunction (params : List Ident) (body : Block) (scope : FrameId) : Eval Value := do
  let id ← ask Store.functions
  update fun s => { s with functions := s.functions + 1 }
  pure (.function ⟨id, params, body, scope⟩)

end Eval
end Monkey
