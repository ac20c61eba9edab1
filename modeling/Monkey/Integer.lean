/-! # Integers of the language

An integer is a whole number between `-2^63` and `2^63 - 1`. The bounds are part of the type, so an
operation whose exact result falls outside them has no result, and never a wrapped one.
-/

namespace Monkey

/-- The whole numbers that fit in 64 bits, the sign included. -/
abbrev Integer.InRange (n : Int) : Prop :=
  -9223372036854775808 ≤ n ∧ n ≤ 9223372036854775807

structure Integer where
  val : Int
  inRange : Integer.InRange val
deriving DecidableEq

namespace Integer

theorem ext {a b : Integer} (h : a.val = b.val) : a = b := by
  cases a; cases b; cases h; rfl

instance : Repr Integer := ⟨fun n p => reprPrec n.val p⟩

/-- The integer of that value, if the value is in range. -/
def ofInt? : Int → Option Integer
  | .ofNat n => if h : n ≤ 9223372036854775807 then some ⟨n, by omega⟩ else none
  | .negSucc n => if h : n ≤ 9223372036854775807 then some ⟨.negSucc n, by omega⟩ else none

theorem ofInt?_of_inRange {n : Int} (h : InRange n) : ofInt? n = some ⟨n, h⟩ := by
  cases n with
  | ofNat n =>
    rw [Int.ofNat_eq_natCast] at h
    exact dif_pos (by omega)
  | negSucc n => exact dif_pos (by omega)

theorem ofInt?_eq_none {n : Int} : ofInt? n = none ↔ ¬InRange n := by
  constructor
  · intro hn h
    rw [ofInt?_of_inRange h] at hn
    cases hn
  · intro h
    cases n with
    | ofNat n =>
      rw [Int.ofNat_eq_natCast] at h
      exact dif_neg (by omega)
    | negSucc n => exact dif_neg (by omega)

@[simp] theorem ofInt?_val (a : Integer) : ofInt? a.val = some a := ofInt?_of_inRange a.inRange

theorem ofInt?_eq_some {n : Int} {a : Integer} : ofInt? n = some a ↔ a.val = n := by
  constructor
  · intro h
    by_cases hn : InRange n
    · rw [ofInt?_of_inRange hn] at h
      cases h
      rfl
    · rw [ofInt?_eq_none.2 hn] at h
      cases h
  · rintro rfl
    exact ofInt?_val a

/-- A count. None is larger than the largest integer. -/
def ofCount (n : Nat) : Integer where
  val := (min n 9223372036854775807 : Nat)
  inRange := by omega

theorem val_ofCount {n : Nat} (h : n ≤ 9223372036854775807) : (ofCount n).val = n :=
  congrArg Int.ofNat (Nat.min_eq_left h)

/-- The integer that a run of decimal digits denotes, if it is in range. -/
def ofDigits? (digits : String) : Option Integer :=
  ofInt? (Nat.ofDigitChars 10 digits.toList 0)

/-- Decimal, with a minus sign below zero and no leading zeros. -/
def text (a : Integer) : String :=
  match a.val with
  | .ofNat n => n.repr
  | .negSucc n => "-" ++ (n + 1).repr

def neg? (a : Integer) : Option Integer := ofInt? (-a.val)
def add? (a b : Integer) : Option Integer := ofInt? (a.val + b.val)
def sub? (a b : Integer) : Option Integer := ofInt? (a.val - b.val)
def mul? (a b : Integer) : Option Integer := ofInt? (a.val * b.val)

/-- The quotient, rounded toward zero. The divisor is not to be zero. -/
def div? (a b : Integer) : Option Integer := ofInt? (a.val.tdiv b.val)

end Integer
end Monkey
