import Monkey.Proofs.Eval.Context

/-! # Calculations are exact, or the first fault is reported

A `Calculation` is an expression of integers, minus signs and the four operations. What it comes to
if the numbers may be of any size is `Calculation.value`, and `Calculation.operations` are the steps
that lead there, from left to right and from the inside out. The language goes the same way. As long
as each step has a result in range, it has the exact numbers, and it stops with a fault at the first
step that has none: `Calculation.exact_or_reported`.
-/

namespace Monkey

open Eval

inductive ArithmeticOp where
  | plus | minus | star | slash
deriving DecidableEq

namespace ArithmeticOp

def op : ArithmeticOp → BinaryOp
  | .plus => .plus
  | .minus => .minus
  | .star => .star
  | .slash => .slash

/-- The result for whole numbers of any size. A quotient is rounded toward zero. -/
def exact : ArithmeticOp → Int → Int → Int
  | .plus, l, r => l + r
  | .minus, l, r => l - r
  | .star, l, r => l * r
  | .slash, l, r => l.tdiv r

end ArithmeticOp

inductive ComparisonOp where
  | less | greater | equal | notEqual
deriving DecidableEq

namespace ComparisonOp

def op : ComparisonOp → BinaryOp
  | .less => .less
  | .greater => .greater
  | .equal => .equal
  | .notEqual => .notEqual

def holds : ComparisonOp → Int → Int → Bool
  | .less, l, r => l < r
  | .greater, l, r => l > r
  | .equal, l, r => l = r
  | .notEqual, l, r => l ≠ r

end ComparisonOp

theorem Integer.text_eq_repr (a : Integer) : a.text = a.val.repr := by
  rw [text]
  cases a.val <;> rfl

/-- A step of a calculation, with the exact operands. -/
inductive Operation where
  | neg (n : Int)
  | binary (op : ArithmeticOp) (l r : Int)

namespace Operation

/-- There is a result, and it is in range. -/
def Exact : Operation → Prop
  | .neg n => Integer.InRange (-n)
  | .binary op l r => ¬(op = .slash ∧ r = 0) ∧ Integer.InRange (op.exact l r)

instance : DecidablePred Exact
  | .neg n => inferInstanceAs (Decidable (Integer.InRange (-n)))
  | .binary op l r =>
    inferInstanceAs (Decidable (¬(op = .slash ∧ r = 0) ∧ Integer.InRange (op.exact l r)))

/-- The fault of a step that is not exact. -/
inductive Reports : Operation → Fault → Prop where
  | divisionByZero (l : Int) : Reports (.binary .slash l 0) .divisionByZero
  | negOverflow (a : Integer) (h : ¬Integer.InRange (-a.val)) :
      Reports (.neg a.val) (.negOverflow a)
  | overflow (a b : Integer) (op : ArithmeticOp) (hzero : ¬(op = .slash ∧ b.val = 0))
      (h : ¬Integer.InRange (op.exact a.val b.val)) :
      Reports (.binary op a.val b.val) (.overflow a op.op b)

/-- The text of that fault. -/
def message : Operation → String
  | .neg n => "integer overflow: -(" ++ n.repr ++ ")"
  | .binary op l r =>
    if op = .slash ∧ r = 0 then "division by zero"
    else "integer overflow: " ++ l.repr ++ " " ++ op.op.text ++ " " ++ r.repr

theorem Reports.message_eq {o : Operation} {f : Fault} (h : o.Reports f) :
    f.message = o.message := by
  cases h with
  | divisionByZero l => rfl
  | negOverflow a h => exact congrArg ("integer overflow: -(" ++ · ++ ")") a.text_eq_repr
  | overflow a b op hzero h =>
    refine Eq.trans ?_ (if_neg hzero).symm
    rw [← a.text_eq_repr, ← b.text_eq_repr]
    rfl

end Operation

namespace Eval

variable {a b : Integer} {op : ArithmeticOp}

/-! ## One step -/

theorem arithmetic_op (a : Integer) (op : ArithmeticOp) (b : Integer) :
    arithmetic a op.op b = if op = .slash ∧ b.val = 0 then .error .divisionByZero
      else checked a op.op b (Integer.ofInt? (op.exact a.val b.val)) := by
  cases op with
  | slash => simp only [true_and]; rfl
  | _ => rfl

theorem arithmetic_of_exact (h : (Operation.binary op a.val b.val).Exact) :
    ∃ n : Integer, n.val = op.exact a.val b.val ∧ arithmetic a op.op b = .ok (.int n) := by
  obtain ⟨hzero, hrange⟩ := h
  refine ⟨⟨_, hrange⟩, rfl, ?_⟩
  rw [arithmetic_op, if_neg hzero, Integer.ofInt?_of_inRange hrange]
  rfl

theorem exists_reports_of_not_exact (h : ¬(Operation.binary op a.val b.val).Exact) :
    ∃ f, (Operation.binary op a.val b.val).Reports f ∧ arithmetic a op.op b = .error f := by
  rw [arithmetic_op]
  by_cases hzero : op = .slash ∧ b.val = 0
  · rw [if_pos hzero, hzero.1, hzero.2]
    exact ⟨_, .divisionByZero _, rfl⟩
  · have hrange : ¬Integer.InRange (op.exact a.val b.val) := fun hr => h ⟨hzero, hr⟩
    rw [if_neg hzero, Integer.ofInt?_eq_none.2 hrange]
    exact ⟨_, .overflow a b op hzero hrange, rfl⟩

/-- Integers are equal if their values are, so all four comparisons are those of the values. -/
theorem arithmetic_comparison (a : Integer) (op : ComparisonOp) (b : Integer) :
    arithmetic a op.op b = .ok (.bool (op.holds a.val b.val)) := by
  have heq : a = b ↔ a.val = b.val := ⟨congrArg Integer.val, Integer.ext⟩
  cases op with
  | less => rfl
  | greater => rfl
  | equal => exact congrArg (Except.ok ∘ Value.bool) (decide_eq_decide.2 heq)
  | notEqual => exact congrArg (Except.ok ∘ Value.bool) (decide_eq_decide.2 (not_congr heq))

end Eval

/-! ## Calculations -/

inductive Calculation where
  | int (token : Token) (n : Integer)
  | neg (token : Token) (c : Calculation)
  | binary (token : Token) (op : ArithmeticOp) (l r : Calculation)

namespace Calculation

def expr : Calculation → Expr
  | .int token n => .int token n
  | .neg token c => .unary token .minus c.expr
  | .binary token op l r => .binary token op.op l.expr r.expr

/-- The exact result, where no number is too large. -/
def value : Calculation → Int
  | .int _ n => n.val
  | .neg _ c => -c.value
  | .binary _ op l r => op.exact l.value r.value

/-- The steps in their order: those of the left operand, those of the right one, and the operation
itself. -/
def operations : Calculation → List Operation
  | .int _ _ => []
  | .neg _ c => c.operations ++ [.neg c.value]
  | .binary _ op l r => l.operations ++ r.operations ++ [.binary op l.value r.value]

/-- The first step that is not exact. -/
def offence? (c : Calculation) : Option Operation := c.operations.find? fun o => ¬o.Exact

variable {c l r : Calculation} {i : FrameId} {s t : Store} {o : Operation}

theorem offence?_neg (token : Token) (c : Calculation) : (neg token c).offence? =
    c.offence?.or (if (Operation.neg c.value).Exact then none else some (.neg c.value)) := by
  rw [offence?, operations, List.find?_append, List.find?_singleton]
  by_cases h : (Operation.neg c.value).Exact <;> simp [offence?, h]

theorem offence?_binary (token : Token) (op : ArithmeticOp) (l r : Calculation) :
    (binary token op l r).offence? = (l.offence?.or r.offence?).or
      (if (Operation.binary op l.value r.value).Exact then none
        else some (.binary op l.value r.value)) := by
  rw [offence?, operations, List.find?_append, List.find?_append, List.find?_singleton]
  by_cases h : (Operation.binary op l.value r.value).Exact <;> simp [offence?, h]

theorem offence?_eq_none : c.offence? = none ↔ ∀ o ∈ c.operations, o.Exact := by
  simp [offence?]

/-- If all steps are exact, so is the result. -/
theorem ends_of_exact (h : c.offence? = none) (i : FrameId) (s : Store) :
    ∃ n : Integer, n.val = c.value ∧ Ends i (.expr c.expr) s (.ok (.int n)) s := by
  induction c with
  | int token n => exact ⟨n, rfl, ends_int i token n s⟩
  | neg token c ih =>
    rw [offence?_neg, Option.or_eq_none_iff] at h
    obtain ⟨a, ha, hc⟩ := ih h.1
    have hexact : (Operation.neg a.val).Exact := by
      by_contra hnot
      rw [← ha, if_neg hnot] at h
      cases h.2
    refine ⟨⟨-a.val, hexact⟩, congrArg Neg.neg ha, ?_⟩
    have hneg := hc.unary token .minus
    rwa [unary, Integer.neg?, Integer.ofInt?_of_inRange hexact] at hneg
  | binary token op l r ihl ihr =>
    rw [offence?_binary, Option.or_eq_none_iff, Option.or_eq_none_iff] at h
    obtain ⟨⟨hl, hr⟩, hop⟩ := h
    obtain ⟨a, ha, hl⟩ := ihl hl
    obtain ⟨b, hb, hr⟩ := ihr hr
    have hexact : (Operation.binary op a.val b.val).Exact := by
      by_contra hnot
      rw [← ha, ← hb, if_neg hnot] at hop
      cases hop
    obtain ⟨n, hn, harith⟩ := arithmetic_of_exact hexact
    refine ⟨n, by rw [hn, ha, hb, value], ?_⟩
    have hbinary := hl.binary token op.op hr
    rwa [Eval.binary, harith] at hbinary

/-- The first step that is not exact ends the calculation with its fault. -/
theorem ends_of_offence (h : c.offence? = some o) (i : FrameId) (s : Store) :
    ∃ f, o.Reports f ∧ Ends i (.expr c.expr) s (.error (.raised f)) s := by
  induction c with
  | int token n => cases h
  | neg token c ih =>
    rw [offence?_neg] at h
    rcases Option.or_eq_some_iff.1 h with h | ⟨hnone, h⟩
    · obtain ⟨f, hf, hc⟩ := ih h
      exact ⟨f, hf, (Position.operand token .minus).ends_fill (.expr c.expr) .nil hc⟩
    · obtain ⟨a, ha, hc⟩ := ends_of_exact hnone i s
      rw [← ha] at h
      split at h
      · cases h
      · rename_i hneg
        cases h
        refine ⟨_, .negOverflow a hneg, ?_⟩
        have hfault := hc.unary token .minus
        rwa [unary, Integer.neg?, Integer.ofInt?_eq_none.2 hneg] at hfault
  | binary token op l r ihl ihr =>
    rw [offence?_binary] at h
    rcases Option.or_eq_some_iff.1 h with h | ⟨hnone, h⟩
    · rcases Option.or_eq_some_iff.1 h with h | ⟨hnone, h⟩
      · obtain ⟨f, hf, hl⟩ := ihl h
        exact ⟨f, hf, (Position.left token op.op r.expr).ends_fill (.expr l.expr) .nil hl⟩
      · obtain ⟨a, -, hl⟩ := ends_of_exact hnone i s
        obtain ⟨f, hf, hr⟩ := ihr h
        have hleft : Passes i (Position.right token op.op l.expr).before s s :=
          .cons hl trivial .nil
        exact ⟨f, hf, (Position.right token op.op l.expr).ends_fill (.expr r.expr) hleft hr⟩
    · rw [Option.or_eq_none_iff] at hnone
      obtain ⟨a, ha, hl⟩ := ends_of_exact hnone.1 i s
      obtain ⟨b, hb, hr⟩ := ends_of_exact hnone.2 i s
      rw [← ha, ← hb] at h
      split at h
      · cases h
      · rename_i hnot
        cases h
        obtain ⟨f, hf, harith⟩ := exists_reports_of_not_exact hnot
        refine ⟨f, hf, ?_⟩
        have hfault := hl.binary token op.op hr
        rwa [Eval.binary, harith] at hfault

/-- A calculation that ends normally has the exact result, and leaves the store as it is. -/
theorem eq_of_ends {v : Value} (h : Ends i (.expr c.expr) s (.ok v) t) :
    ∃ n : Integer, n.val = c.value ∧ v = .int n ∧ t = s := by
  rcases ho : c.offence? with _ | o
  · obtain ⟨n, hn, hc⟩ := ends_of_exact ho i s
    obtain ⟨heq, rfl⟩ := h.unique hc
    cases heq
    exact ⟨n, hn, rfl, rfl⟩
  · obtain ⟨f, -, hc⟩ := ends_of_offence ho i s
    cases (h.unique hc).1

theorem ends_comparison {d : Calculation} {v w : Value} {u : Store}
    (hc : Ends i (.expr c.expr) s (.ok v) t) (hd : Ends i (.expr d.expr) s (.ok w) u)
    (token : Token) (op : ComparisonOp) :
    Ends i (.expr (.binary token op.op c.expr d.expr)) s
      (.ok (.bool (op.holds c.value d.value))) s := by
  obtain ⟨a, ha, rfl, rfl⟩ := eq_of_ends hc
  obtain ⟨b, hb, rfl, rfl⟩ := eq_of_ends hd
  have hcompare := hc.binary token op.op hd
  rwa [Eval.binary, arithmetic_comparison, ha, hb] at hcompare

/-- If every step of a calculation is exact, its result is the exact number, else the first step that
is not exact is reported: a division by zero as such, and any other with its exact operands. The
store is the same in both cases. Calculations that have a result compare as the exact numbers. -/
theorem exact_or_reported (c : Calculation) (i : FrameId) (s : Store) :
    ((∀ o ∈ c.operations, o.Exact) →
      ∃ n : Integer, n.val = c.value ∧ Ends i (.expr c.expr) s (.ok (.int n)) s) ∧
    (∀ o, c.offence? = some o → ∃ f, o.Reports f ∧ f.message = o.message ∧
      Ends i (.expr c.expr) s (.error (.raised f)) s) ∧
    ∀ (d : Calculation) (v w : Value) (t u : Store),
      Ends i (.expr c.expr) s (.ok v) t → Ends i (.expr d.expr) s (.ok w) u →
      ∀ (token : Token) (op : ComparisonOp), Ends i (.expr (.binary token op.op c.expr d.expr)) s
        (.ok (.bool (op.holds c.value d.value))) s := by
  refine ⟨fun h => ends_of_exact (offence?_eq_none.2 h) i s, ?_,
    fun d v w t u => ends_comparison⟩
  intro o ho
  obtain ⟨f, hf, hc⟩ := ends_of_offence ho i s
  exact ⟨f, hf, hf.message_eq, hc⟩

/-- `-7 / 2` -/
def quotient : Calculation :=
  .binary (.sym .slash) .slash (.neg (.sym .minus) (.int (.int "7") (.ofCount 7)))
    (.int (.int "2") (.ofCount 2))

/-- `(9223372036854775807 + 1) * (1 / 0)` -/
def tooLarge : Calculation :=
  .binary (.sym .star) .star
    (.binary (.sym .plus) .plus
      (.int (.int "9223372036854775807") (.ofCount 9223372036854775807))
      (.int (.int "1") (.ofCount 1)))
    (.binary (.sym .slash) .slash (.int (.int "1") (.ofCount 1)) (.int (.int "0") (.ofCount 0)))

/-- The quotient is rounded toward zero, and is less than seven. Of the two steps that fail in the
product it is the sum that is reported, and `1 / 0` is not reached. -/
theorem exact_or_reported_quotient :
    (∃ n : Integer, n.val = -3 ∧ Ends 0 (.expr quotient.expr) .fresh (.ok (.int n)) .fresh) ∧
    (∃ f : Fault, f.message = "integer overflow: 9223372036854775807 + 1" ∧
      Ends 0 (.expr tooLarge.expr) .fresh (.error (.raised f)) .fresh) ∧
    Ends 0 (.expr (.binary (.sym .less) .less quotient.expr (.int (.int "7") (.ofCount 7)))) .fresh
      (.ok (.bool true)) .fresh := by
  obtain ⟨hexact, -, hcompare⟩ := exact_or_reported quotient 0 .fresh
  have hquotient := hexact (by decide)
  refine ⟨hquotient, ?_, ?_⟩
  · obtain ⟨-, hreport, -⟩ := exact_or_reported tooLarge 0 .fresh
    obtain ⟨f, -, hmessage, hends⟩ := hreport
      (.binary .plus 9223372036854775807 1) rfl
    exact ⟨f, hmessage, hends⟩
  · obtain ⟨n, -, hn⟩ := hquotient
    exact hcompare (.int (.int "7") (.ofCount 7)) _ _ _ _ hn (ends_int ..) (.sym .less) .less

end Calculation
end Monkey
