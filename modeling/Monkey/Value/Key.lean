import Monkey.Integer

/-! # Hash keys

Integers, truth values and strings can be keys of a hash. Keys are ordered: all integers come before
all truth values, and those before all strings; among themselves integers go by size, `false` before
`true`, and strings by the code points of their characters.
-/

namespace Monkey

inductive Key where
  | int (n : Integer)
  | bool (b : Bool)
  | str (s : String)
deriving DecidableEq, Repr

namespace Key

def cmp : Key → Key → Ordering
  | .int a, .int b => compare a.val b.val
  | .int _, _ => .lt
  | .bool _, .int _ => .gt
  | .bool a, .bool b => compare a b
  | .bool _, .str _ => .lt
  | .str a, .str b => compare a b
  | .str _, _ => .gt

end Key

/-- What each key of a hash leads to, with the keys in increasing order. -/
abbrev Table (α : Type) : Type := List (Key × α)

namespace Table

variable {α : Type}

/-- Makes `k` lead to `a`, and no longer to what it may have led to before. -/
def insert (k : Key) (a : α) : Table α → Table α
  | [] => [(k, a)]
  | (k', a') :: t =>
    match k.cmp k' with
    | .lt => (k, a) :: (k', a') :: t
    | .eq => (k, a) :: t
    | .gt => (k', a') :: insert k a t

/-- What `k` leads to. -/
def find? (k : Key) : Table α → Option α
  | [] => none
  | (k', a) :: t => if k' = k then some a else find? k t

end Table
end Monkey
