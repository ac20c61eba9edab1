import Monkey.Value.Basic

/-! # Equality of values

Values are compared by what they hold, arrays and hashes entry by entry. Only functions are
different: each is equal to itself and to no other, however alike they are.
-/

namespace Monkey.Value

mutual

def beq : Value → Value → Bool
  | .int a, .int b => a = b
  | .bool a, .bool b => a = b
  | .str a, .str b => a = b
  | .null, .null => true
  | .array as, .array bs => beqAll as bs
  | .hash as, .hash bs => beqEntries as bs
  | .function f, .function g => f.id = g.id
  | .builtin a, .builtin b => a = b
  | .error a, .error b => a = b
  | _, _ => false

def beqAll : List Value → List Value → Bool
  | [], [] => true
  | a :: as, b :: bs => beq a b && beqAll as bs
  | _, _ => false

def beqEntries : List (Key × Entry Value) → List (Key × Entry Value) → Bool
  | [], [] => true
  | (k, ⟨c, a⟩) :: as, (l, ⟨d, b⟩) :: bs => k = l && beq c d && beq a b && beqEntries as bs
  | _, _ => false

end

instance : BEq Value := ⟨beq⟩

end Monkey.Value
