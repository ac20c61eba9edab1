import Monkey.Program.Basic

/-! # Equality of programs

Two programs are the same if they have the same nodes, tokens included. The test follows the
syntax, and `Expr.beq_iff` with its companions says that it decides equality.
-/

namespace Monkey

mutual

def Expr.beq : Expr → Expr → Bool
  | .ident a, .ident b => a = b
  | .int t a, .int u b => t = u && a = b
  | .str t a, .str u b => t = u && a = b
  | .bool t a, .bool u b => t = u && a = b
  | .unary t o a, .unary u p b => t = u && o = p && a.beq b
  | .binary t o a b, .binary u p c d => t = u && o = p && a.beq c && b.beq d
  | .cond t a b none, .cond u c d none => t = u && a.beq c && b.beq d
  | .cond t a b (some x), .cond u c d (some y) => t = u && a.beq c && b.beq d && x.beq y
  | .fn t ps a, .fn u qs b => t = u && ps = qs && a.beq b
  | .call t f as, .call u g bs => t = u && f.beq g && Expr.beqAll as bs
  | .array t as, .array u bs => t = u && Expr.beqAll as bs
  | .index t a i, .index u b j => t = u && a.beq b && i.beq j
  | .hash t as, .hash u bs => t = u && Expr.beqPairs as bs
  | _, _ => false

def Expr.beqAll : List Expr → List Expr → Bool
  | [], [] => true
  | a :: as, b :: bs => a.beq b && Expr.beqAll as bs
  | _, _ => false

def Expr.beqPairs : List (Expr × Expr) → List (Expr × Expr) → Bool
  | [], [] => true
  | (a, x) :: as, (b, y) :: bs => a.beq b && x.beq y && Expr.beqPairs as bs
  | _, _ => false

def Stmt.beq : Stmt → Stmt → Bool
  | .bind t x a, .bind u y b => t = u && x = y && a.beq b
  | .ret t none, .ret u none => t = u
  | .ret t (some a), .ret u (some b) => t = u && a.beq b
  | .expr a, .expr b => a.beq b
  | .block a, .block b => a.beq b
  | _, _ => false

def Stmt.beqAll : List Stmt → List Stmt → Bool
  | [], [] => true
  | a :: as, b :: bs => a.beq b && Stmt.beqAll as bs
  | _, _ => false

def Block.beq : Block → Block → Bool
  | .mk t as, .mk u bs => t = u && Stmt.beqAll as bs

end

mutual

theorem Expr.beq_iff : ∀ a b : Expr, a.beq b = true ↔ a = b
  | .ident _, b => by cases b <;> simp [Expr.beq]
  | .int _ _, b => by cases b <;> simp [Expr.beq]
  | .str _ _, b => by cases b <;> simp [Expr.beq]
  | .bool _ _, b => by cases b <;> simp [Expr.beq]
  | .unary _ _ a, b => by cases b <;> simp [Expr.beq, Expr.beq_iff a, and_assoc]
  | .binary _ _ a b, c => by
    cases c <;> simp [Expr.beq, Expr.beq_iff a, Expr.beq_iff b, and_assoc]
  | .cond _ a b none, c => by
    cases c with
    | cond u d e y => cases y <;> simp [Expr.beq, Expr.beq_iff a, Block.beq_iff b, and_assoc]
    | _ => simp [Expr.beq]
  | .cond _ a b (some x), c => by
    cases c with
    | cond u d e y =>
      cases y <;> simp [Expr.beq, Expr.beq_iff a, Block.beq_iff b, Block.beq_iff x, and_assoc]
    | _ => simp [Expr.beq]
  | .fn _ _ a, b => by cases b <;> simp [Expr.beq, Block.beq_iff a, and_assoc]
  | .call _ f as, b => by
    cases b <;> simp [Expr.beq, Expr.beq_iff f, Expr.beqAll_iff as, and_assoc]
  | .array _ as, b => by cases b <;> simp [Expr.beq, Expr.beqAll_iff as]
  | .index _ a i, b => by cases b <;> simp [Expr.beq, Expr.beq_iff a, Expr.beq_iff i, and_assoc]
  | .hash _ as, b => by cases b <;> simp [Expr.beq, Expr.beqPairs_iff as]

theorem Expr.beqAll_iff : ∀ as bs : List Expr, Expr.beqAll as bs = true ↔ as = bs
  | [], bs => by cases bs <;> simp [Expr.beqAll]
  | a :: as, bs => by cases bs <;> simp [Expr.beqAll, Expr.beq_iff a, Expr.beqAll_iff as]

theorem Expr.beqPairs_iff : ∀ as bs : List (Expr × Expr), Expr.beqPairs as bs = true ↔ as = bs
  | [], bs => by cases bs <;> simp [Expr.beqPairs]
  | (a, x) :: as, bs => by
    cases bs with
    | nil => simp [Expr.beqPairs]
    | cons b bs =>
      obtain ⟨b, y⟩ := b
      simp [Expr.beqPairs, Expr.beq_iff a, Expr.beq_iff x, Expr.beqPairs_iff as]

theorem Stmt.beq_iff : ∀ a b : Stmt, a.beq b = true ↔ a = b
  | .bind _ _ a, b => by cases b <;> simp [Stmt.beq, Expr.beq_iff a, and_assoc]
  | .ret _ none, b => by
    cases b with
    | ret u y => cases y <;> simp [Stmt.beq]
    | _ => simp [Stmt.beq]
  | .ret _ (some a), b => by
    cases b with
    | ret u y => cases y <;> simp [Stmt.beq, Expr.beq_iff a]
    | _ => simp [Stmt.beq]
  | .expr a, b => by cases b <;> simp [Stmt.beq, Expr.beq_iff a]
  | .block a, b => by cases b <;> simp [Stmt.beq, Block.beq_iff a]

theorem Stmt.beqAll_iff : ∀ as bs : List Stmt, Stmt.beqAll as bs = true ↔ as = bs
  | [], bs => by cases bs <;> simp [Stmt.beqAll]
  | a :: as, bs => by cases bs <;> simp [Stmt.beqAll, Stmt.beq_iff a, Stmt.beqAll_iff as]

theorem Block.beq_iff : ∀ a b : Block, a.beq b = true ↔ a = b
  | .mk _ as, b => by cases b; simp [Block.beq, Stmt.beqAll_iff as]

end

instance : DecidableEq Expr := fun a b => decidable_of_iff _ (Expr.beq_iff a b)
instance : DecidableEq Stmt := fun a b => decidable_of_iff _ (Stmt.beq_iff a b)
instance : DecidableEq Block := fun a b => decidable_of_iff _ (Block.beq_iff a b)

deriving instance DecidableEq for Program

end Monkey
