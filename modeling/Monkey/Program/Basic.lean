import Monkey.Integer
import Monkey.Token.Basic

/-! # Programs

A program is a list of statements. Each node keeps the token that it was read from beside what it
means: an integer node has the digits as they were written and the number that they denote. Nothing
but `tokenLiteral` and equality looks at the tokens.
-/

namespace Monkey

structure Ident where
  token : Token
  name : String
deriving DecidableEq, Repr

inductive UnaryOp where
  | minus | bang
deriving DecidableEq, Repr

def UnaryOp.symbol : UnaryOp → Symbol
  | .minus => .minus
  | .bang => .bang

def UnaryOp.text (op : UnaryOp) : String := op.symbol.text

inductive BinaryOp where
  | plus | minus | star | slash | less | greater | equal | notEqual
deriving DecidableEq, Repr

def BinaryOp.symbol : BinaryOp → Symbol
  | .plus => .plus
  | .minus => .minus
  | .star => .star
  | .slash => .slash
  | .less => .less
  | .greater => .greater
  | .equal => .equal
  | .notEqual => .notEqual

def BinaryOp.text (op : BinaryOp) : String := op.symbol.text

mutual

inductive Expr where
  | ident (id : Ident)
  | int (token : Token) (value : Integer)
  | str (token : Token) (value : String)
  | bool (token : Token) (value : Bool)
  | unary (token : Token) (op : UnaryOp) (operand : Expr)
  | binary (token : Token) (op : BinaryOp) (left right : Expr)
  | cond (token : Token) (condition : Expr) (consequence : Block) (alternative : Option Block)
  | fn (token : Token) (params : List Ident) (body : Block)
  | call (token : Token) (callee : Expr) (args : List Expr)
  | array (token : Token) (elements : List Expr)
  | index (token : Token) (left index : Expr)
  | hash (token : Token) (pairs : List (Expr × Expr))

inductive Stmt where
  | bind (token : Token) (name : Ident) (value : Expr)
  | ret (token : Token) (value : Option Expr)
  | expr (value : Expr)
  | block (body : Block)

inductive Block where
  | mk (token : Token) (statements : List Stmt)

end

structure Program where
  statements : List Stmt

namespace Block

def token : Block → Token
  | .mk t _ => t

def statements : Block → List Stmt
  | .mk _ ss => ss

@[simp] theorem token_mk (t : Token) (ss : List Stmt) : (mk t ss).token = t := rfl
@[simp] theorem statements_mk (t : Token) (ss : List Stmt) : (mk t ss).statements = ss := rfl

end Block

def Expr.token : Expr → Token
  | .ident id => id.token
  | .int t _ | .str t _ | .bool t _ | .unary t _ _ | .binary t _ _ _ | .cond t _ _ _ | .fn t _ _
  | .call t _ _ | .array t _ | .index t _ _ | .hash t _ => t

def Stmt.token : Stmt → Token
  | .bind t _ _ | .ret t _ => t
  | .expr e => e.token
  | .block b => b.token

/-- The text of the token that the statement starts from. -/
def Stmt.tokenLiteral (s : Stmt) : String := s.token.literal

/-- The text of the token that the first statement starts from. -/
def Program.tokenLiteral (p : Program) : String :=
  match p.statements with
  | [] => ""
  | s :: _ => s.tokenLiteral

end Monkey
