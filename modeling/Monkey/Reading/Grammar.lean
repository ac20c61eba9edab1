import Monkey.Reading.Basic
import Monkey.Reading.Level

/-! # Reading expressions, statements and blocks

Each construct has a reader, written in terms of the readers of its parts. A reader that goes around
in a loop is given by its step, which takes the rest of the loop as an argument. The readers of
expressions are a circle through blocks and statements: those before `expression` take the reader of
expressions as an argument, and `expression` closes the circle.

A statement that fails inside a block is left out of the block, and reading goes on behind it.
-/

namespace Monkey.Reading

open Read

variable {α : Type}

def moreItemsStep (item : Read α) (self : Read (List α)) : Read (List α) := do
  if (← peek) = .sym .comma then
    let _ ← take
    let x ← item
    let xs ← self
    pure (x :: xs)
  else
    pure []

/-- Items with a comma before each. -/
def moreItems (item : Read α) : Read (List α) := loop (moreItemsStep item)

/-- Items with a comma between each two, then `close`. -/
def items (item : Read α) (close : Symbol) : Read (List α) := do
  if (← peek) = .sym close then
    let _ ← take
    pure []
  else
    let x ← item
    let xs ← moreItems item
    let _ ← expect (.sym close)
    pure (x :: xs)

/-- A name. -/
def ident : Read Ident := do
  match ← peek with
  | .ident name =>
    let token ← take
    pure ⟨token, name⟩
  | other => refuse (.unexpected .ident other.kind)

/-- The comma behind a pair, which may be left out before the closing brace. -/
def pairEnd : Read Unit := do
  if (← peek) = .sym .closeBrace then
    pure ()
  else
    let _ ← expect (.sym .comma)

def pairsStep (expr : Read Expr) (self : Read (List (Expr × Expr))) :
    Read (List (Expr × Expr)) := do
  if (← peek) = .sym .closeBrace then
    let _ ← take
    pure []
  else
    let key ← expr
    let _ ← expect (.sym .colon)
    let value ← expr
    pairEnd
    let rest ← self
    pure ((key, value) :: rest)

/-- Pairs of a key and a value up to the closing brace. -/
def pairs (expr : Read Expr) : Read (List (Expr × Expr)) := loop (pairsStep expr)

/-- A statement. Its semicolon may be left out. -/
def statement (expr : Read Expr) : Read Stmt := do
  match ← peek with
  | .word .letWord =>
    let token ← take
    let name ← ident
    let _ ← expect (.sym .assign)
    let value ← expr
    skip (.sym .semicolon)
    pure (.bind token name value)
  | .word .returnWord =>
    let token ← take
    match ← peek with
    | .sym .semicolon | .sym .closeBrace | .eof =>
      skip (.sym .semicolon)
      pure (.ret token none)
    | _ =>
      let value ← expr
      skip (.sym .semicolon)
      pure (.ret token (some value))
  | _ =>
    let value ← expr
    skip (.sym .semicolon)
    pure (.expr value)

def blockStep (stmt : Read Stmt) (self : Read (List Stmt)) : Read (List Stmt) := do
  match ← peek with
  | .sym .closeBrace =>
    let _ ← take
    pure []
  | .eof => refuse (.unexpected (.sym .closeBrace) .eof)
  | _ =>
    let s? ← attempt stmt
    let ss ← self
    pure (s?.toList ++ ss)

/-- Statements up to the closing brace. -/
def blockRest (stmt : Read Stmt) : Read (List Stmt) := loop (blockStep stmt)

/-- A block in braces. -/
def block (expr : Read Expr) : Read Block := do
  let token ← expect (.sym .openBrace)
  let ss ← blockRest (statement expr)
  pure (.mk token ss)

/-- What may follow the first block of a conditional. -/
def alternative (expr : Read Expr) : Read (Option Block) := do
  if (← peek) = .word .elseWord then
    let _ ← take
    let b ← block expr
    pure (some b)
  else
    pure none

/-- A number, from the digits of its token. -/
def number (token : Token) (digits : String) : Read Expr :=
  match Integer.ofDigits? digits with
  | some n => pure (.int token n)
  | none => refuse (.invalidInteger digits)

/-- An expression that no operator stands in, or an operator in front of one. -/
def operand (expr : Level → Read Expr) : Read Expr := do
  let token ← take
  match token with
  | .ident name => pure (.ident ⟨token, name⟩)
  | .int digits => number token digits
  | .str text => pure (.str token text)
  | .word .trueWord => pure (.bool token true)
  | .word .falseWord => pure (.bool token false)
  | .sym .minus =>
    let e ← expr .unary
    pure (.unary token .minus e)
  | .sym .bang =>
    let e ← expr .unary
    pure (.unary token .bang e)
  | .sym .openParen =>
    let e ← expr .lowest
    let _ ← expect (.sym .closeParen)
    pure e
  | .word .ifWord =>
    let _ ← expect (.sym .openParen)
    let c ← expr .lowest
    let _ ← expect (.sym .closeParen)
    let b ← block (expr .lowest)
    let a? ← alternative (expr .lowest)
    pure (.cond token c b a?)
  | .word .fnWord =>
    let _ ← expect (.sym .openParen)
    let ps ← items ident .closeParen
    let b ← block (expr .lowest)
    pure (.fn token ps b)
  | .sym .openBracket =>
    let es ← items (expr .lowest) .closeBracket
    pure (.array token es)
  | .sym .openBrace =>
    let ps ← pairs (expr .lowest)
    pure (.hash token ps)
  | other => refuse (.noOperand other.kind)

/-- The larger expression that `left` is the start of. -/
def extend (expr : Level → Read Expr) (left : Expr) : Follow → Read Expr
  | .binary op => do
    let token ← take
    let right ← expr op.level
    pure (.binary token op left right)
  | .call => do
    let token ← take
    let args ← items (expr .lowest) .closeParen
    pure (.call token left args)
  | .index => do
    let token ← take
    let i ← expr .lowest
    let _ ← expect (.sym .closeBracket)
    pure (.index token left i)

def extendStep (expr : Level → Read Expr) (level : Level) (self : Expr → Read Expr) (left : Expr) :
    Read Expr := do
  match Follow.above? level (← peek) with
  | some k =>
    let larger ← extend expr left k
    self larger
  | none => pure left

/-- Goes on from an expression as long as what follows binds tighter than `level`. -/
def extendAbove (expr : Level → Read Expr) (level : Level) : Expr → Read Expr :=
  fix (extendStep expr level)

def expressionStep (self : Level → Read Expr) (level : Level) : Read Expr := do
  let left ← operand self
  extendAbove self level left

/-- An expression whose outermost operator binds tighter than `level`. -/
def expression : Level → Read Expr := fix expressionStep

def statementsStep (self : Read (List Stmt)) : Read (List Stmt) := do
  if (← peek) = .eof then
    pure []
  else
    let s? ← attempt (statement (expression .lowest))
    let ss ← self
    pure (s?.toList ++ ss)

/-- All statements up to the end of the text. -/
def statements : Read (List Stmt) := loop statementsStep

end Monkey.Reading
