import Monkey.Program.Basic
import Monkey.Value.Key

/-! # Values

What an expression can come to. A function holds the names of its parameters, its body, and the
frame that it was made in; frames are known by number. Each function also has a number of its own,
and two functions are the same only if it is the same number.

A hash is ordered by its keys. Under a key, it holds the value that the key was taken from as well
as the value that goes with it.
-/

namespace Monkey

/-- The functions that every program can call. -/
inductive Builtin where
  | len | first | last | rest | push | puts
deriving DecidableEq, Repr

namespace Builtin

def all : List Builtin := [len, first, last, rest, push, puts]

def name : Builtin → String
  | .len => "len"
  | .first => "first"
  | .last => "last"
  | .rest => "rest"
  | .push => "push"
  | .puts => "puts"

/-- The builtin of that name, if there is one. -/
def ofName? (s : String) : Option Builtin := all.find? (·.name = s)

theorem ofName?_eq_some {s : String} {b : Builtin} : ofName? s = some b ↔ b.name = s := by
  constructor
  · intro h
    simpa using List.find?_some h
  · rintro rfl
    cases b <;> decide

end Builtin

abbrev FrameId : Type := Nat

/-- A function that a program has made. -/
structure Closure where
  id : Nat
  params : List Ident
  body : Block
  scope : FrameId

/-- What a hash holds under a key: the value that the key was taken from, which is the one that is
shown, and the value that goes with it. -/
@[ext] structure Entry (α : Type) where
  key : α
  value : α

inductive Value where
  | int (n : Integer)
  | bool (b : Bool)
  | str (s : String)
  | null
  | array (elements : List Value)
  | hash (entries : List (Key × Entry Value))
  | function (f : Closure)
  | builtin (b : Builtin)
  | error (message : String)

namespace Value

inductive Kind where
  | integer | boolean | string | null | array | hash | function | builtin | error
deriving DecidableEq, Repr

def Kind.name : Kind → String
  | .integer => "INTEGER"
  | .boolean => "BOOLEAN"
  | .string => "STRING"
  | .null => "NULL"
  | .array => "ARRAY"
  | .hash => "HASH"
  | .function => "FUNCTION"
  | .builtin => "BUILTIN"
  | .error => "ERROR"

def kind : Value → Kind
  | .int _ => .integer
  | .bool _ => .boolean
  | .str _ => .string
  | .null => .null
  | .array _ => .array
  | .hash _ => .hash
  | .function _ => .function
  | .builtin _ => .builtin
  | .error _ => .error

/-- Everything but `null` and `false` counts as true in a condition. -/
def isTruthy : Value → Bool
  | .null | .bool false => false
  | _ => true

def isError : Value → Bool
  | .error _ => true
  | _ => false

/-- The key that the value is in a hash, if it can be one. -/
def key? : Value → Option Key
  | .int n => some (.int n)
  | .bool b => some (.bool b)
  | .str s => some (.str s)
  | _ => none

end Value

def Key.value : Key → Value
  | .int n => .int n
  | .bool b => .bool b
  | .str s => .str s

@[simp] theorem Key.key?_value (k : Key) : k.value.key? = some k := by cases k <;> rfl

theorem Value.key?_eq_some {v : Value} {k : Key} : v.key? = some k ↔ v = k.value := by
  constructor
  · cases v <;> rintro ⟨⟩ <;> rfl
  · rintro rfl
    exact Key.key?_value k

end Monkey
