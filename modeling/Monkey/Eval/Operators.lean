import Monkey.Eval.Fault
import Monkey.Value.Equality

/-! # Operators on values

None of these touches the store: what an operator gives depends on its operands alone.
-/

namespace Monkey.Eval

def unary : UnaryOp → Value → Except Fault Value
  | .bang, v => .ok (.bool !v.isTruthy)
  | .minus, .int n =>
    match n.neg? with
    | some m => .ok (.int m)
    | none => .error (.negOverflow n)
  | .minus, v => .error (.noUnary .minus v.kind)

/-- The result if it is in range. -/
def checked (l : Integer) (op : BinaryOp) (r : Integer) : Option Integer → Except Fault Value
  | some n => .ok (.int n)
  | none => .error (.overflow l op r)

def arithmetic (l : Integer) (op : BinaryOp) (r : Integer) : Except Fault Value :=
  match op with
  | .plus => checked l op r (l.add? r)
  | .minus => checked l op r (l.sub? r)
  | .star => checked l op r (l.mul? r)
  | .slash => if r.val = 0 then .error .divisionByZero else checked l op r (l.div? r)
  | .less => .ok (.bool (l.val < r.val))
  | .greater => .ok (.bool (l.val > r.val))
  | .equal => .ok (.bool (l = r))
  | .notEqual => .ok (.bool (l ≠ r))

/-- Integers are calculated with and strings are joined; any two values but two strings can be
compared for equality; nothing else is possible. -/
def binary (op : BinaryOp) : Value → Value → Except Fault Value
  | .int l, .int r => arithmetic l op r
  | .str l, .str r =>
    if op = .plus then .ok (.str (l ++ r)) else .error (.noBinary .string op .string)
  | l, r =>
    match op with
    | .equal => .ok (.bool (l == r))
    | .notEqual => .ok (.bool !(l == r))
    | _ =>
      if l.kind = r.kind then .error (.noBinary l.kind op r.kind)
      else .error (.mismatch l.kind op r.kind)

/-- What stands at a place in an array; no place outside the array holds anything. -/
def element (vs : List Value) (i : Int) : Value :=
  match i with
  | .ofNat n => vs.getD n .null
  | .negSucc _ => .null

/-- The key that a value is in a hash. -/
def key (v : Value) : Except Fault Key :=
  match v.key? with
  | some k => .ok k
  | none => .error (.notKey v.kind)

def index : Value → Value → Except Fault Value
  | .array vs, .int i => .ok (element vs i.val)
  | .hash es, v => do
    let k ← key v
    pure (((Table.find? k es).map Entry.value).getD .null)
  | l, _ => .error (.notIndexable l.kind)

end Monkey.Eval
