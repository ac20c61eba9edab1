import Monkey.Store
import Monkey.Value.Inspect

/-! # The builtin functions

A builtin answers with a value. If it is called wrongly, that value is an error; whether an error
stops the program is for the caller to say.
-/

namespace Monkey.Builtin

inductive Misuse where
  | argumentCount (got want : Nat)
  | notArray (callee : Builtin) (arg : Value.Kind)
  | noLength (arg : Value.Kind)
deriving DecidableEq, Repr

def Misuse.message : Misuse → String
  | .argumentCount got want =>
    "wrong number of arguments. got=" ++ got.repr ++ ", want=" ++ want.repr
  | .notArray callee k => "argument to `" ++ callee.name ++ "` must be ARRAY, got " ++ k.name
  | .noLength k => "argument to `len` not supported, got " ++ k.name

/-- The one argument that there is to be. -/
def single : List Value → Except Misuse Value
  | [v] => .ok v
  | args => .error (.argumentCount args.length 1)

/-- The elements of an argument that is to be an array. -/
def elements (callee : Builtin) : Value → Except Misuse (List Value)
  | .array vs => .ok vs
  | v => .error (.notArray callee v.kind)

/-- The number of characters or of elements. -/
def length : Value → Except Misuse Value
  | .str s => .ok (.int (.ofCount s.length))
  | .array vs => .ok (.int (.ofCount vs.length))
  | v => .error (.noLength v.kind)

/-- What is left of an array without its first element; of an empty one, nothing is. -/
def tail : List Value → Value
  | [] => .null
  | _ :: vs => .array vs

def result (b : Builtin) (args : List Value) : Except Misuse Value :=
  match b with
  | .len => do length (← single args)
  | .first => do pure ((← elements b (← single args)).headD .null)
  | .last => do pure ((← elements b (← single args)).getLastD .null)
  | .rest => do pure (tail (← elements b (← single args)))
  | .push =>
    match args with
    | [v, w] => do pure (.array ((← elements b v) ++ [w]))
    | _ => .error (.argumentCount args.length 2)
  | .puts => pure .null

def answer (b : Builtin) (args : List Value) : Value :=
  match b.result args with
  | .ok v => v
  | .error m => .error m.message

/-- What a call prints: `puts` each of its arguments on a line of its own, the others nothing. -/
def printed : Builtin → List Value → String
  | .puts, args => String.join (args.map (·.inspect ++ "\n"))
  | _, _ => ""

/-- Calls the builtin, outside of any program. -/
def call (b : Builtin) (args : List Value) (s : Store) : Value × Store :=
  (b.answer args, s.print (b.printed args))

end Monkey.Builtin
