import Monkey.Token.Basic

/-! # What can be wrong with a program text -/

namespace Monkey.Reading

/-- A syntax fault: the token that stands in the text is not one that can stand there. -/
inductive Fault where
  /-- One kind of token has to come next, and another one does. -/
  | unexpected (expected got : Token.Kind)
  /-- No expression starts with this kind of token. -/
  | noOperand (got : Token.Kind)
  /-- A number is too large. -/
  | invalidInteger (digits : String)
deriving DecidableEq, Repr

def Fault.message : Fault → String
  | .unexpected expected got =>
    "expected next token to be " ++ expected.name ++ ", got " ++ got.name ++ " instead"
  | .noOperand got => "no prefix parse function for " ++ got.name ++ " found"
  | .invalidInteger digits => "could not parse " ++ digits ++ " as integer"

/-- One message to a line. -/
def Fault.report (faults : List Fault) : String :=
  String.intercalate "\n" (faults.map Fault.message)

end Monkey.Reading
