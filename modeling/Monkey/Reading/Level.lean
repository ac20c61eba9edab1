import Monkey.Program.Basic

/-! # How tightly operators bind

Of two operators around one operand, the one on the higher level takes it; of two on the same level,
the one on the left.
-/

namespace Monkey

inductive Level where
  | lowest | equality | order | sum | product | unary | suffix
deriving DecidableEq, Repr

namespace Level

def rank : Level → Nat
  | .lowest => 0
  | .equality => 1
  | .order => 2
  | .sum => 3
  | .product => 4
  | .unary => 5
  | .suffix => 6

instance : LT Level := ⟨fun a b => a.rank < b.rank⟩

instance (a b : Level) : Decidable (a < b) := inferInstanceAs (Decidable (a.rank < b.rank))

end Level

def BinaryOp.level : BinaryOp → Level
  | .equal | .notEqual => .equality
  | .less | .greater => .order
  | .plus | .minus => .sum
  | .star | .slash => .product

/-- What can follow an expression and make a larger one of it. -/
inductive Follow where
  | binary (op : BinaryOp)
  | call
  | index
deriving DecidableEq, Repr

namespace Follow

def level : Follow → Level
  | .binary op => op.level
  | .call | .index => .suffix

/-- The token that a continuation starts with. -/
def symbol : Follow → Symbol
  | .binary op => op.symbol
  | .call => .openParen
  | .index => .openBracket

def ofSymbol? : Symbol → Option Follow
  | .plus => some (.binary .plus)
  | .minus => some (.binary .minus)
  | .star => some (.binary .star)
  | .slash => some (.binary .slash)
  | .less => some (.binary .less)
  | .greater => some (.binary .greater)
  | .equal => some (.binary .equal)
  | .notEqual => some (.binary .notEqual)
  | .openParen => some .call
  | .openBracket => some .index
  | _ => none

theorem ofSymbol?_eq_some {s : Symbol} {k : Follow} : ofSymbol? s = some k ↔ k.symbol = s := by
  constructor
  · cases s <;> rintro ⟨⟩ <;> rfl
  · rintro rfl
    rcases k with op | _ | _
    · cases op <;> rfl
    · rfl
    · rfl

/-- The continuation that the token starts, if it starts one that binds tighter than `level`. -/
def above? (level : Level) : Token → Option Follow
  | .sym s => (ofSymbol? s).filter (level < ·.level)
  | _ => none

theorem above?_symbol (l : Level) (k : Follow) :
    above? l (.sym k.symbol) = if l < k.level then some k else none := by
  rw [above?, ofSymbol?_eq_some.2 rfl, Option.filter_some]
  by_cases h : l < k.level <;> simp [h]

theorem above?_symbol_of_lt {l : Level} {k : Follow} (h : l < k.level) :
    above? l (.sym k.symbol) = some k := by
  rw [above?_symbol, if_pos h]

/-- Only the token of a continuation continues anything. -/
theorem eq_symbol_of_above? {l : Level} {t : Token} {k : Follow} (h : above? l t = some k) :
    t = .sym k.symbol ∧ l < k.level := by
  cases t with
  | sym s =>
    obtain ⟨hk, hl⟩ := Option.filter_eq_some_iff.1 h
    rw [← ofSymbol?_eq_some.1 hk]
    exact ⟨rfl, of_decide_eq_true hl⟩
  | _ => cases h

/-- What does not bind tighter than `l` does not bind tighter than a tighter level. -/
theorem above?_eq_none_of_le {k l : Level} {t : Token} (hkl : k.rank ≤ l.rank)
    (h : above? k t = none) : above? l t = none := by
  cases hl : above? l t with
  | none => rfl
  | some f =>
    obtain ⟨rfl, hlt⟩ := eq_symbol_of_above? hl
    rw [above?_symbol_of_lt (Nat.lt_of_le_of_lt hkl hlt)] at h
    cases h

theorem above?_suffix (t : Token) : above? .suffix t = none := by
  cases h : above? .suffix t with
  | none => rfl
  | some f =>
    obtain ⟨-, hlt⟩ := eq_symbol_of_above? h
    revert hlt
    cases f with
    | binary op => cases op <;> decide
    | _ => decide

end Follow
end Monkey
