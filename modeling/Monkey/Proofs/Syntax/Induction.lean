import Monkey.Program.Basic

/-! # Induction over programs

Expressions, statements and blocks contain each other, and lists and pairs of each other.
`Syntax.Hereditary P Q R` says that `P`, `Q` and `R` pass from the parts of a node to the node, with
one field for each kind of node. Whatever is hereditary holds of every expression, statement and
block: `Hereditary.expr`, `Hereditary.stmt` and `Hereditary.block`.
-/

namespace Monkey.Syntax

/-- A node has the property that belongs to it as soon as its parts have theirs. -/
structure Hereditary (P : Expr → Prop) (Q : Stmt → Prop) (R : Block → Prop) : Prop where
  ident : ∀ id, P (.ident id)
  int : ∀ t n, P (.int t n)
  str : ∀ t s, P (.str t s)
  bool : ∀ t b, P (.bool t b)
  unary : ∀ t op e, P e → P (.unary t op e)
  binary : ∀ t op l r, P l → P r → P (.binary t op l r)
  cond : ∀ t c b, P c → R b → P (.cond t c b none)
  condElse : ∀ t c b a, P c → R b → R a → P (.cond t c b (some a))
  fn : ∀ t ps b, R b → P (.fn t ps b)
  call : ∀ t f es, P f → (∀ e ∈ es, P e) → P (.call t f es)
  array : ∀ t es, (∀ e ∈ es, P e) → P (.array t es)
  index : ∀ t l i, P l → P i → P (.index t l i)
  hash : ∀ t ps, (∀ p ∈ ps, P p.1 ∧ P p.2) → P (.hash t ps)
  bind : ∀ t x e, P e → Q (.bind t x e)
  ret : ∀ t e, P e → Q (.ret t (some e))
  retNone : ∀ t, Q (.ret t none)
  exprStmt : ∀ e, P e → Q (.expr e)
  blockStmt : ∀ b, R b → Q (.block b)
  body : ∀ t ss, (∀ s ∈ ss, Q s) → R (.mk t ss)

namespace Hereditary

variable {P : Expr → Prop} {Q : Stmt → Prop} {R : Block → Prop}

mutual

theorem expr (h : Hereditary P Q R) : ∀ e, P e
  | .ident id => h.ident id
  | .int t n => h.int t n
  | .str t s => h.str t s
  | .bool t b => h.bool t b
  | .unary t op e => h.unary t op e (h.expr e)
  | .binary t op l r => h.binary t op l r (h.expr l) (h.expr r)
  | .cond t c b none => h.cond t c b (h.expr c) (h.block b)
  | .cond t c b (some a) => h.condElse t c b a (h.expr c) (h.block b) (h.block a)
  | .fn t ps b => h.fn t ps b (h.block b)
  | .call t f es => h.call t f es (h.expr f) (h.exprs es)
  | .array t es => h.array t es (h.exprs es)
  | .index t l i => h.index t l i (h.expr l) (h.expr i)
  | .hash t ps => h.hash t ps (h.pairs ps)

theorem exprs (h : Hereditary P Q R) : ∀ es : List Expr, ∀ e ∈ es, P e
  | [] => nofun
  | e :: es => List.forall_mem_cons.2 ⟨h.expr e, h.exprs es⟩

theorem pairs (h : Hereditary P Q R) : ∀ ps : List (Expr × Expr), ∀ p ∈ ps, P p.1 ∧ P p.2
  | [] => nofun
  | (k, v) :: ps => List.forall_mem_cons.2 ⟨⟨h.expr k, h.expr v⟩, h.pairs ps⟩

theorem stmt (h : Hereditary P Q R) : ∀ s, Q s
  | .bind t x e => h.bind t x e (h.expr e)
  | .ret t (some e) => h.ret t e (h.expr e)
  | .ret t none => h.retNone t
  | .expr e => h.exprStmt e (h.expr e)
  | .block b => h.blockStmt b (h.block b)

theorem stmts (h : Hereditary P Q R) : ∀ ss : List Stmt, ∀ s ∈ ss, Q s
  | [] => nofun
  | s :: ss => List.forall_mem_cons.2 ⟨h.stmt s, h.stmts ss⟩

theorem block (h : Hereditary P Q R) : ∀ b, R b
  | .mk t ss => h.body t ss (h.stmts ss)

end

end Hereditary
end Monkey.Syntax
