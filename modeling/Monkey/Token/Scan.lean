import Monkey.Token.Basic

/-! # Splitting a text into tokens

Blanks separate tokens and belong to none. Everywhere else the longest token that fits is taken:
a word runs on over letters, digits and underscores, a number over digits, quoted text up to the
next quote. A quote that is never closed takes the rest of the text with it.
-/

namespace Monkey.Token

/-- Space, tab, line feed, form feed and carriage return. -/
def isBlank (c : Char) : Bool :=
  c = ' ' || c = '\t' || c = '\n' || c = '\x0c' || c = '\r'

/-- What a word may start with: an ASCII letter or an underscore. -/
def isLetter (c : Char) : Bool := c.isAlpha || c = '_'

/-- What a word may go on with. -/
def isWordChar (c : Char) : Bool := isLetter c || c.isDigit

def isQuote (c : Char) : Bool := c = '"'

/-- The symbol that consists of this one character. -/
def symbol? : Char → Option Symbol
  | '=' => some .assign
  | '!' => some .bang
  | '+' => some .plus
  | '-' => some .minus
  | '*' => some .star
  | '/' => some .slash
  | '<' => some .less
  | '>' => some .greater
  | ',' => some .comma
  | ';' => some .semicolon
  | ':' => some .colon
  | '(' => some .openParen
  | ')' => some .closeParen
  | '\x7b' => some .openBrace
  | '\x7d' => some .closeBrace
  | '[' => some .openBracket
  | ']' => some .closeBracket
  | _ => none

/-- A token that is one character long, legal or not. -/
def ofChar (c : Char) : Token :=
  match symbol? c with
  | some s => .sym s
  | none => .illegal c

/-- `double` if the next character is `=`, and `single` otherwise. -/
def withEquals (double single : Symbol) : List Char → Token × List Char
  | '=' :: rest => (.sym double, rest)
  | rest => (.sym single, rest)

/-- Quoted text, after its opening quote. -/
def quoted (cs : List Char) : Token × List Char :=
  match cs.dropWhile (!isQuote ·) with
  | [] => (.illegal '"', [])
  | _ :: rest => (.str (String.ofList (cs.takeWhile (!isQuote ·))), rest)

/-- The token that starts with `c`, which is no blank, and the text after it. -/
def head (c : Char) (cs : List Char) : Token × List Char :=
  if c = '=' then withEquals .equal .assign cs
  else if c = '!' then withEquals .notEqual .bang cs
  else if isQuote c then quoted cs
  else if isLetter c then
    (ofWord (String.ofList (c :: cs.takeWhile isWordChar)), cs.dropWhile isWordChar)
  else if c.isDigit then
    (.int (String.ofList (c :: cs.takeWhile Char.isDigit)), cs.dropWhile Char.isDigit)
  else (ofChar c, cs)

theorem length_dropWhile_le {α : Type} (p : α → Bool) (l : List α) :
    (l.dropWhile p).length ≤ l.length :=
  (List.dropWhile_sublist p).length_le

theorem length_withEquals_le (d s : Symbol) (cs : List Char) :
    (withEquals d s cs).2.length ≤ cs.length := by
  unfold withEquals
  split <;> simp

theorem length_quoted_le (cs : List Char) : (quoted cs).2.length ≤ cs.length := by
  have h := length_dropWhile_le (!isQuote ·) cs
  unfold quoted
  split
  · simp
  · rename_i e
    rw [e, List.length_cons] at h
    exact Nat.le_of_succ_le h

/-- A token never grows the text that is left. -/
theorem length_head_le (c : Char) (cs : List Char) : (head c cs).2.length ≤ cs.length := by
  unfold head
  split
  · exact length_withEquals_le ..
  split
  · exact length_withEquals_le ..
  split
  · exact length_quoted_le cs
  split
  · exact length_dropWhile_le ..
  split
  · exact length_dropWhile_le ..
  · exact Nat.le_refl _

/-- A token, with the blanks before it, is never empty. -/
theorem length_head_lt {c : Char} {cs rest : List Char} (h : cs.dropWhile isBlank = c :: rest) :
    (head c rest).2.length < cs.length := by
  have h₁ := length_dropWhile_le isBlank cs
  have h₂ := length_head_le c rest
  rw [h, List.length_cons] at h₁
  omega

/-- All tokens of a text, in order, the end not among them. -/
def scanChars (cs : List Char) : List Token :=
  match _h : cs.dropWhile isBlank with
  | [] => []
  | c :: rest => (head c rest).1 :: scanChars (head c rest).2
termination_by cs.length
decreasing_by exact length_head_lt _h

def scan (source : String) : List Token := scanChars source.toList

end Monkey.Token
