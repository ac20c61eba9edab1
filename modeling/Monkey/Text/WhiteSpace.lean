/-! # White space at the end of a text -/

namespace Monkey.Text

/-- The characters with the Unicode property `White_Space`. -/
def isWhiteSpace (c : Char) : Bool :=
  ('\x09' ≤ c && c ≤ '\x0d') || c = '\x20' || c = '\u0085' || c = '\u00a0' || c = '\u1680'
    || ('\u2000' ≤ c && c ≤ '\u200a') || c = '\u2028' || c = '\u2029' || c = '\u202f'
    || c = '\u205f' || c = '\u3000'

/-- Drops from the end what satisfies `p`. -/
def dropEndWhile {α : Type} (p : α → Bool) (l : List α) : List α :=
  (l.reverse.dropWhile p).reverse

/-- The text without the white space at its end. -/
def trimEnd (s : String) : String := String.ofList (dropEndWhile isWhiteSpace s.toList)

end Monkey.Text
