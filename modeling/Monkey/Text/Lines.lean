/-! # Lines -/

namespace Monkey.Text

/-- Cuts a list behind each element that satisfies `p`. The pieces make up the list again, and none
of them is empty. -/
def splitAfter {α : Type} (p : α → Bool) : List α → List (List α)
  | [] => []
  | a :: as =>
    if p a then [a] :: splitAfter p as
    else
      match splitAfter p as with
      | [] => [[a]]
      | l :: ls => (a :: l) :: ls

theorem flatten_splitAfter {α : Type} (p : α → Bool) (l : List α) :
    (splitAfter p l).flatten = l := by
  induction l with
  | nil => rfl
  | cons a as ih =>
    rw [splitAfter]
    split
    · simp [ih]
    · split
      · rename_i h
        rw [h] at ih
        simp [← ih]
      · rename_i h
        rw [h] at ih
        simp [← ih]

/-- A line without the line feed at its end, and without a carriage return before that. -/
def dropEnding (line : List Char) : List Char :=
  match line.reverse with
  | '\n' :: '\r' :: cs => cs.reverse
  | '\n' :: cs => cs.reverse
  | _ => line

/-- The lines of a text, without their endings. -/
def lines (s : String) : List String :=
  (splitAfter (· = '\n') s.toList).map fun l => String.ofList (dropEnding l)

/-- The lines of some bytes, with their endings. -/
def byteLines (bytes : List UInt8) : List (List UInt8) :=
  splitAfter (· = 10) bytes

/-- The text that the bytes encode in UTF-8, if they encode one. -/
def decode? (bytes : List UInt8) : Option String :=
  String.fromUTF8? bytes.toByteArray

end Monkey.Text
