import Monkey.Reading.Fault

/-! # Readers

A reader takes what it needs from the front of a list of tokens. It says what it has read, which
tokens are left, and which faults it has found. A reader that fails still says where it stopped, so
that whoever called it can go on from there.

Readers call each other in circles, and `Read.fix` is the one place where a circle is closed. A call
that has used up no token since the circle was entered finds nothing, so that every reader comes to
an end.
-/

namespace Monkey

namespace Reading

/-- What a reader leaves behind. -/
structure Outcome (α : Type) where
  /-- What was read, unless the reader failed. -/
  value? : Option α
  /-- The tokens that it has left unread. -/
  rest : List Token
  /-- The faults that it found, in the order in which it found them. -/
  faults : List Fault
deriving DecidableEq, Repr

end Reading

open Reading

def Read (α : Type) : Type := List Token → Outcome α

namespace Read

variable {α β ι : Type}

@[ext] theorem ext {p q : Read α} (h : ∀ ts, p ts = q ts) : p = q := funext h

/-- Reads nothing. -/
protected def pure (a : α) : Read α := fun ts => ⟨some a, ts, []⟩

/-- Reads on with `f` from where `p` stopped, unless `p` failed. -/
protected def bind (p : Read α) (f : α → Read β) : Read β := fun ts =>
  match p ts with
  | ⟨none, rest, faults⟩ => ⟨none, rest, faults⟩
  | ⟨some a, rest, faults⟩ =>
    let out := f a rest
    ⟨out.value?, out.rest, faults ++ out.faults⟩

instance instMonad : Monad Read where
  pure := Read.pure
  bind := Read.bind

@[simp] theorem pure_apply (a : α) (ts : List Token) :
    (pure a : Read α) ts = ⟨some a, ts, []⟩ := rfl

theorem bind_apply (p : Read α) (f : α → Read β) (ts : List Token) :
    (p >>= f) ts = Read.bind p f ts := rfl

theorem bind_of_some {p : Read α} {f : α → Read β} {ts us : List Token} {a : α}
    {faults : List Fault} (h : p ts = ⟨some a, us, faults⟩) :
    (p >>= f) ts = ⟨(f a us).value?, (f a us).rest, faults ++ (f a us).faults⟩ := by
  rw [bind_apply, Read.bind, h]

theorem bind_of_none {p : Read α} {f : α → Read β} {ts us : List Token} {faults : List Fault}
    (h : p ts = ⟨none, us, faults⟩) : (p >>= f) ts = ⟨none, us, faults⟩ := by
  rw [bind_apply, Read.bind, h]

theorem bind_pure_self (p : Read α) : p >>= pure = p := by
  ext ts
  rcases h : p ts with ⟨_ | a, us, fs⟩
  · exact bind_of_none h
  · rw [bind_of_some h, pure_apply, List.append_nil]

theorem pure_bind_apply (a : α) (f : α → Read β) : pure a >>= f = f a := by
  ext ts
  rw [bind_of_some (pure_apply a ts), List.nil_append]

theorem bind_bind {γ : Type} (p : Read α) (f : α → Read β) (g : β → Read γ) :
    p >>= f >>= g = p >>= fun a => f a >>= g := by
  ext ts
  rcases h : p ts with ⟨_ | a, us, fs⟩
  · rw [bind_of_none (bind_of_none h), bind_of_none h]
  · rcases k : f a us with ⟨_ | b, vs, gs⟩
    · rw [bind_of_none ((bind_of_some h).trans (by rw [k])), bind_of_some h, bind_of_none k]
    · rw [bind_of_some ((bind_of_some h).trans (by rw [k])), bind_of_some h, bind_of_some k,
        List.append_assoc]

instance instLawfulMonad : LawfulMonad Read :=
  LawfulMonad.mk' Read bind_pure_self pure_bind_apply bind_bind

/-- Reads nothing, and fails over `fault`. -/
def refuse (fault : Fault) : Read α := fun ts => ⟨none, ts, [fault]⟩

/-- Fails for no reason. -/
def stuck : Read α := fun ts => ⟨none, ts, []⟩

/-- The next token, which is left unread. Behind the last token there is only `Token.eof`. -/
def peek : Read Token := fun ts => ⟨some (ts.headD .eof), ts, []⟩

/-- The next token. -/
def take : Read Token := fun ts => ⟨some (ts.headD .eof), ts.tail, []⟩

theorem peek_bind (f : Token → Read β) (ts : List Token) :
    (peek >>= f) ts = f (ts.headD .eof) ts := rfl

theorem take_bind (f : Token → Read β) (ts : List Token) :
    (take >>= f) ts = f (ts.headD .eof) ts.tail := rfl

/-- Reads with `p`. If that fails, it has been read as nothing, and the faults remain. -/
def attempt (p : Read α) : Read (Option α) := fun ts =>
  let out := p ts
  ⟨some out.value?, out.rest, out.faults⟩

/-- Takes the token `t`, which has to be next. -/
def expect (t : Token) : Read Token := do
  let next ← peek
  if next = t then take else refuse (.unexpected t.kind next.kind)

theorem expect_of_head {t : Token} {ts : List Token} (h : ts.headD .eof = t) :
    expect t ts = ⟨some t, ts.tail, []⟩ := by
  rw [expect, peek_bind, if_pos h, ← h, take]

theorem expect_of_ne {t : Token} {ts : List Token} (h : ts.headD .eof ≠ t) :
    expect t ts = ⟨none, ts, [.unexpected t.kind (ts.headD .eof).kind]⟩ := by
  rw [expect, peek_bind, if_neg h, refuse]

/-- Takes the token `t` if it is next. -/
def skip (t : Token) : Read Unit := do
  if (← peek) = t then
    let _ ← take

/-- The reader that `step` describes in terms of itself. Inside `step` it finds nothing where no
token has been used up. -/
def fix (step : (ι → Read α) → ι → Read α) (i : ι) : Read α := fun ts =>
  step (fun j us => if us.length < ts.length then fix step j us else stuck us) i ts
termination_by ts => ts.length

/-- The same for a reader that takes no argument. -/
def loop (step : Read α → Read α) : Read α := fix (fun self (_ : Unit) => step (self ())) ()

end Read
end Monkey
