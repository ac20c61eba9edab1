import Monkey.Value.Basic

/-! # What can go wrong in an evaluation -/

namespace Monkey.Eval

inductive Fault where
  | unbound (name : String)
  | noUnary (op : UnaryOp) (operand : Value.Kind)
  | noBinary (left : Value.Kind) (op : BinaryOp) (right : Value.Kind)
  | mismatch (left : Value.Kind) (op : BinaryOp) (right : Value.Kind)
  /-- The negative of an integer is out of range. -/
  | negOverflow (n : Integer)
  | overflow (left : Integer) (op : BinaryOp) (right : Integer)
  | divisionByZero
  | notFunction (callee : Value.Kind)
  /-- A function was called with another number of arguments than it has parameters. -/
  | argumentCount (want got : Nat)
  | notIndexable (left : Value.Kind)
  | notKey (key : Value.Kind)
  | nothingToReturn
  /-- A builtin answered with an error. -/
  | builtin (message : String)
deriving DecidableEq, Repr

def Fault.message : Fault → String
  | .unbound name => "identifier not found: " ++ name
  | .noUnary op k => "unknown operator: " ++ op.text ++ k.name
  | .noBinary l op r => "unknown operator: " ++ l.name ++ " " ++ op.text ++ " " ++ r.name
  | .mismatch l op r => "type mismatch: " ++ l.name ++ " " ++ op.text ++ " " ++ r.name
  | .negOverflow n => "integer overflow: -(" ++ n.text ++ ")"
  | .overflow l op r => "integer overflow: " ++ l.text ++ " " ++ op.text ++ " " ++ r.text
  | .divisionByZero => "division by zero"
  | .notFunction k => "not a function: " ++ k.name
  | .argumentCount want got =>
    "wrong number of arguments: want=" ++ want.repr ++ ", got=" ++ got.repr
  | .notIndexable k => "index operator not supported: " ++ k.name
  | .notKey k => "unusable as hash key: " ++ k.name
  | .nothingToReturn => "missing return value"
  | .builtin message => message

end Monkey.Eval
