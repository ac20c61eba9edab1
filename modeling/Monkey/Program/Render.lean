import Monkey.Program.Basic

/-! # Writing programs

Every operator is written with its operands in parentheses of their own, every statement but a
block ends in a semicolon, and only what a node means is written: a number comes out in plain
decimal, whatever its token says.
-/

namespace Monkey

/-- A block that holds the statements with these texts. -/
def Block.surround : List String → String
  | [] => "\x7b \x7d"
  | texts => "\x7b " ++ String.intercalate " " texts ++ " \x7d"

mutual

def Expr.render : Expr → String
  | .ident id => id.name
  | .int _ n => n.text
  | .str _ s => "\"" ++ s ++ "\""
  | .bool _ b => if b then "true" else "false"
  | .unary _ op e => "(" ++ op.text ++ e.render ++ ")"
  | .binary _ op l r => "(" ++ l.render ++ " " ++ op.text ++ " " ++ r.render ++ ")"
  | .cond _ c t none => "if (" ++ c.render ++ ") " ++ t.render
  | .cond _ c t (some e) => "if (" ++ c.render ++ ") " ++ t.render ++ " else " ++ e.render
  | .fn _ ps b => "fn(" ++ String.intercalate ", " (ps.map Ident.name) ++ ") " ++ b.render
  | .call _ f as => f.render ++ "(" ++ String.intercalate ", " (Expr.renderAll as) ++ ")"
  | .array _ as => "[" ++ String.intercalate ", " (Expr.renderAll as) ++ "]"
  | .index _ l i => "(" ++ l.render ++ "[" ++ i.render ++ "])"
  | .hash _ ps => "\x7b" ++ String.intercalate ", " (Expr.renderPairs ps) ++ "\x7d"

def Expr.renderAll : List Expr → List String
  | [] => []
  | e :: es => e.render :: Expr.renderAll es

def Expr.renderPairs : List (Expr × Expr) → List String
  | [] => []
  | (k, v) :: ps => (k.render ++ ": " ++ v.render) :: Expr.renderPairs ps

def Stmt.render : Stmt → String
  | .bind _ x e => "let " ++ x.name ++ " = " ++ e.render ++ ";"
  | .ret _ none => "return;"
  | .ret _ (some e) => "return " ++ e.render ++ ";"
  | .expr e => e.render ++ ";"
  | .block b => b.render

def Stmt.renderAll : List Stmt → List String
  | [] => []
  | s :: ss => s.render :: Stmt.renderAll ss

def Block.render : Block → String
  | .mk _ ss => Block.surround (Stmt.renderAll ss)

end

theorem Expr.renderAll_eq_map (es : List Expr) : Expr.renderAll es = es.map Expr.render := by
  induction es with
  | nil => rfl
  | cons e es ih => simp [Expr.renderAll, ih]

theorem Expr.renderPairs_eq_map (ps : List (Expr × Expr)) :
    Expr.renderPairs ps = ps.map fun p => p.1.render ++ ": " ++ p.2.render := by
  induction ps with
  | nil => rfl
  | cons p ps ih => simp [Expr.renderPairs, ih]

theorem Stmt.renderAll_eq_map (ss : List Stmt) : Stmt.renderAll ss = ss.map Stmt.render := by
  induction ss with
  | nil => rfl
  | cons s ss ih => simp [Stmt.renderAll, ih]

def Program.render (p : Program) : String :=
  String.intercalate " " (p.statements.map Stmt.render)

/-- The statements of a block, one to a line and without the braces. -/
def Block.lines (b : Block) : String :=
  String.intercalate "\n" (b.statements.map Stmt.render)

end Monkey
