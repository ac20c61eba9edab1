import Monkey.Program.Render
import Monkey.Value.Basic

/-! # How values are shown -/

namespace Monkey

/-- The source text of the function, with one statement to a line. -/
def Closure.inspect (f : Closure) : String :=
  let params := String.intercalate ", " (f.params.map Ident.name)
  "fn(" ++ params ++ ") \x7b\n" ++ f.body.lines ++ "\n\x7d"

namespace Value

mutual

def inspect : Value → String
  | .int n => n.text
  | .bool b => if b then "true" else "false"
  | .str s => s
  | .null => "null"
  | .array vs => "[" ++ String.intercalate ", " (inspectAll vs) ++ "]"
  | .hash es => "\x7b" ++ String.intercalate ", " (inspectEntries es) ++ "\x7d"
  | .function f => f.inspect
  | .builtin _ => "builtin function"
  | .error message => "ERROR: " ++ message

def inspectAll : List Value → List String
  | [] => []
  | v :: vs => inspect v :: inspectAll vs

def inspectEntries : List (Key × Entry Value) → List String
  | [] => []
  | (_, ⟨c, v⟩) :: es => (inspect c ++ ": " ++ inspect v) :: inspectEntries es

end

theorem inspectAll_eq_map (vs : List Value) : inspectAll vs = vs.map inspect := by
  induction vs with
  | nil => rfl
  | cons v vs ih => simp [inspectAll, ih]

theorem inspectEntries_eq_map (es : List (Key × Entry Value)) :
    inspectEntries es = es.map fun e => e.2.key.inspect ++ ": " ++ e.2.value.inspect := by
  induction es with
  | nil => rfl
  | cons e es ih => simp [inspectEntries, ih]

end Value
end Monkey
