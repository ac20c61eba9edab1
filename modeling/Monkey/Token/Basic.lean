/-! # Tokens

A token is a name, a number, a piece of quoted text, a symbol, a keyword, a character that starts
nothing, or the end of the text. Its *kind* is what a message about it shows; its *literal* is the
text that it carries.
-/

namespace Monkey

/-- Operators and punctuation. -/
inductive Symbol where
  | assign | plus | minus | bang | star | slash | less | greater | equal | notEqual
  | comma | semicolon | colon
  | openParen | closeParen | openBrace | closeBrace | openBracket | closeBracket
deriving DecidableEq, Repr

def Symbol.text : Symbol → String
  | .assign => "="
  | .plus => "+"
  | .minus => "-"
  | .bang => "!"
  | .star => "*"
  | .slash => "/"
  | .less => "<"
  | .greater => ">"
  | .equal => "=="
  | .notEqual => "!="
  | .comma => ","
  | .semicolon => ";"
  | .colon => ":"
  | .openParen => "("
  | .closeParen => ")"
  | .openBrace => "\x7b"
  | .closeBrace => "\x7d"
  | .openBracket => "["
  | .closeBracket => "]"

/-- Words that are not names. -/
inductive Keyword where
  | fnWord | letWord | trueWord | falseWord | ifWord | elseWord | returnWord
deriving DecidableEq, Repr

namespace Keyword

def all : List Keyword :=
  [fnWord, letWord, trueWord, falseWord, ifWord, elseWord, returnWord]

def text : Keyword → String
  | .fnWord => "fn"
  | .letWord => "let"
  | .trueWord => "true"
  | .falseWord => "false"
  | .ifWord => "if"
  | .elseWord => "else"
  | .returnWord => "return"

/-- How messages name the keyword. -/
def name : Keyword → String
  | .fnWord => "FUNCTION"
  | .letWord => "LET"
  | .trueWord => "TRUE"
  | .falseWord => "FALSE"
  | .ifWord => "IF"
  | .elseWord => "ELSE"
  | .returnWord => "RETURN"

/-- The keyword spelled so, if there is one. -/
def ofText? (s : String) : Option Keyword := all.find? (·.text = s)

theorem ofText?_eq_some {s : String} {k : Keyword} : ofText? s = some k ↔ k.text = s := by
  constructor
  · intro h
    simpa using List.find?_some h
  · rintro rfl
    cases k <;> decide

end Keyword

inductive Token where
  | illegal (char : Char)
  | eof
  | ident (name : String)
  | int (digits : String)
  | str (text : String)
  | sym (symbol : Symbol)
  | word (keyword : Keyword)
deriving DecidableEq, Repr

namespace Token

inductive Kind where
  | illegal | eof | ident | int | str
  | sym (symbol : Symbol)
  | word (keyword : Keyword)
deriving DecidableEq, Repr

def Kind.name : Kind → String
  | .illegal => "ILLEGAL"
  | .eof => "EOF"
  | .ident => "IDENT"
  | .int => "INT"
  | .str => "STRING"
  | .sym s => s.text
  | .word k => k.name

def kind : Token → Kind
  | .illegal _ => .illegal
  | .eof => .eof
  | .ident _ => .ident
  | .int _ => .int
  | .str _ => .str
  | .sym s => .sym s
  | .word k => .word k

def literal : Token → String
  | .illegal c => c.toString
  | .eof => ""
  | .ident name => name
  | .int digits => digits
  | .str text => text
  | .sym s => s.text
  | .word k => k.text

/-- A word is a keyword if it is spelled like one, and a name otherwise. -/
def ofWord (s : String) : Token :=
  match Keyword.ofText? s with
  | some k => .word k
  | none => .ident s

end Token
end Monkey
