import Mathlib.Logic.Function.Iterate
import Mathlib.Logic.Relation
import Monkey.Proofs.Grammar.Parse

/-! # Reading comes to an end

The readers are put together with `Read.fix`, which breaks off a call that has used up no token.
This never happens. A reader of expressions calls itself on strictly fewer tokens, and so does a
reader of statements, through the blocks that an expression may hold; and each loop goes around on
strictly fewer tokens than the time before. `Read.Recursion` puts together what follows: the readers
satisfy the equations that they are written down with, without anything that breaks calls off, and
no text makes them go deeper, or around more often, than it has tokens.

A program has been read when all of its tokens are used up: `Reader.readAll_terminates`.
-/

namespace Monkey

open Reading

/-! ## Readers that call themselves -/

namespace Read

variable {ι α β : Type} {k : Nat} {step : (ι → Read α) → ι → Read α} {p : ι → Read α}
  {i j : ι} {ts us : List Token}

/-- Leaves no more tokens than it finds. -/
def Advances (p : Read α) : Prop := ∀ ts, (p ts).rest.length ≤ ts.length

/-- On the tokens `ts`, the reader `f p` calls `p` with `j` on the tokens `us`: what it does would
not be the same if `p` did something else there. No reader drops faults that are found by one that
it has called, so there is no call that could not be noticed in this way. -/
def Calls (f : (ι → Read α) → Read β) (p : ι → Read α) (ts : List Token) (j : ι)
    (us : List Token) : Prop :=
  ∃ q : ι → Read α, (∀ k vs, k ≠ j ∨ vs ≠ us → q k vs = p k vs) ∧ f q ts ≠ f p ts

/-- One activation of the reader that `step` describes makes another one. An activation is known by
its argument and by the tokens that it starts with. -/
def Nests (step : (ι → Read α) → ι → Read α) (p : ι → Read α) (a b : ι × List Token) : Prop :=
  Calls (fun q => step q a.1) p a.2 b.1 b.2

/-- `p` is what `step` describes in terms of itself, by a recursion that ends. -/
structure Recursion (step : (ι → Read α) → ι → Read α) (p : ι → Read α) : Prop where
  unfolds : ∀ i, p i = step p i
  /-- There are at most as many calls inside each other as there are tokens: whatever is put in the
  place of the next one, it is not called. -/
  ends : ∀ (q : ι → Read α) (n : Nat) (i : ι) (ts : List Token), ts.length < n →
    step^[n] q i ts = p i ts
  /-- What is called in the course of a call starts with strictly fewer tokens. -/
  descends : ∀ a b, Relation.TransGen (Nests step p) a b → b.2.length < a.2.length
  advances : ∀ i, Advances (p i)

/-- The same for a reader that takes no argument. Where `step` is one round of a loop, it calls the
next one. -/
abbrev Loop (step : Read α → Read α) (p : Read α) : Prop :=
  Recursion (fun self (_ : Unit) => step (self ())) fun _ => p

/-- What `step` makes of two readers is alike on `ts`, if they are alike on fewer tokens. -/
def Descends (k : Nat) (step : (ι → Read α) → ι → Read α) : Prop :=
  ∀ (p q : ι → Read α) (ts : List Token),
    (∀ j us, us.length < ts.length → Alike k us (p j) (q j)) → ∀ i, Alike k ts (step p i) (step q i)

namespace Descends

/-- Calls that lie deeper than there are tokens do not matter. -/
theorem alike_iterate (h : Descends k step) (hp : ∀ i, p i = step p i) (q : ι → Read α) (n : Nat)
    (i : ι) (ts : List Token) (hn : ts.length < n) : Alike k ts (step^[n] q i) (p i) := by
  induction n generalizing i ts with
  | zero => exact absurd hn (Nat.not_lt_zero _)
  | succ n ih =>
    rw [Function.iterate_succ_apply', hp i]
    apply h
    intro j us hus
    exact ih j us (by omega)

theorem alike_self (h : Descends k step) (hp : ∀ i, p i = step p i) (i : ι) (ts : List Token) :
    Alike k ts (p i) (p i) := by
  obtain ⟨he, hl⟩ := h.alike_iterate hp p (ts.length + 1) i ts (Nat.lt_succ_self _)
  exact ⟨rfl, he ▸ hl⟩

theorem length_lt_of_calls (h : Descends k step) (hp : ∀ i, p i = step p i)
    (hcall : Calls (fun q => step q i) p ts j us) : us.length < ts.length := by
  obtain ⟨q, hq, hne⟩ := hcall
  by_contra hle
  apply hne
  refine (h q p ts (fun m vs hvs => ?_) i).1
  have hsame : q m vs = p m vs := by
    apply hq
    right
    rintro rfl
    exact hle hvs
  exact ⟨hsame, hsame ▸ (h.alike_self hp m vs).2⟩

theorem recursion (h : Descends k step) (hp : ∀ i, p i = step p i) : Recursion step p where
  unfolds := hp
  ends q n i ts hn := (h.alike_iterate hp q n i ts hn).1
  descends a b hab := by
    induction hab with
    | single hcall => exact h.length_lt_of_calls hp hcall
    | tail _ hcall ih => exact Nat.lt_trans (h.length_lt_of_calls hp hcall) ih
  advances i ts := Nat.le_trans (h.alike_self hp i ts).2 (Nat.sub_le _ _)

/-- There is only one reader that `step` describes. -/
theorem eq_of_unfolds (h : Descends k step) (hp : ∀ i, p i = step p i) {q : ι → Read α}
    (hq : ∀ i, q i = step q i) : p = q := by
  funext i
  ext ts
  rw [← (h.alike_iterate hp p (ts.length + 1) i ts (Nat.lt_succ_self _)).1]
  exact (h.alike_iterate hq p (ts.length + 1) i ts (Nat.lt_succ_self _)).1

end Descends
end Read

namespace Reading

open Read

variable {ts : List Token}

/-! ## Statements inside statements

A statement stands in another one if it is in a block of an expression of it. To speak of these
statements, the reader of expressions is given with the reader of statements as an argument. -/

def blockOver (stmt : Read Stmt) : Read Block := do
  let token ← expect (.sym .openBrace)
  let ss ← blockRest stmt
  pure (.mk token ss)

def alternativeOver (stmt : Read Stmt) : Read (Option Block) := do
  if (← peek) = .word .elseWord then
    let _ ← take
    let b ← blockOver stmt
    pure (some b)
  else
    pure none

def conditionalOver (stmt : Read Stmt) (expr : Level → Read Expr) : Read Expr := do
  let token ← take
  let _ ← expect (.sym .openParen)
  let c ← expr .lowest
  let _ ← expect (.sym .closeParen)
  let b ← blockOver stmt
  let a? ← alternativeOver stmt
  pure (.cond token c b a?)

def functionOver (stmt : Read Stmt) : Read Expr := do
  let token ← take
  let _ ← expect (.sym .openParen)
  let ps ← items ident .closeParen
  let b ← blockOver stmt
  pure (.fn token ps b)

/-- Only conditionals and functions have blocks. -/
def operandOver (stmt : Read Stmt) (expr : Level → Read Expr) : Read Expr := do
  match ← peek with
  | .word .ifWord => conditionalOver stmt expr
  | .word .fnWord => functionOver stmt
  | _ => operand expr

def expressionOverStep (stmt : Read Stmt) (self : Level → Read Expr) (level : Level) :
    Read Expr := do
  let left ← operandOver stmt self
  extendAbove self level left

/-- An expression, with `stmt` as the reader of the statements in its blocks. -/
def expressionOver (stmt : Read Stmt) : Level → Read Expr := fix (expressionOverStep stmt)

/-- The reader of statements, in terms of itself. -/
def statementStep (self : Read Stmt) : Read Stmt := statement (expressionOver self .lowest)

theorem operandOver_statement (expr : Level → Read Expr) :
    operandOver (statement (expr .lowest)) expr = operand expr := by
  ext ts
  cases ts with
  | nil => rfl
  | cons t us =>
    cases t with
    | word k => cases k <;> rfl
    | _ => rfl

section Alike

variable {s s' : Read Stmt} {p q : Level → Read Expr}

theorem alike_blockOver (h : ∀ us, us.length ≤ ts.length → Alike 1 us s s') :
    Alike 0 ts (blockOver s) (blockOver s') := by
  refine Alike.expect_bind (by decide) fun us hu => ?_
  refine (alike_blockRest fun vs hv => h vs (by omega)).bind ?_
  exact fun _ _ _ => .pure _

theorem alike_alternativeOver (h : ∀ us, us.length ≤ ts.length → Alike 1 us s s') :
    Alike 0 ts (alternativeOver s) (alternativeOver s') := by
  refine Alike.peek_bind (Alike.ite (fun _ => ?_) fun _ => .pure _)
  refine (Alike.take.bind fun _ us hu => ?_).weaken (Nat.zero_le 1)
  exact (alike_blockOver fun vs hv => h vs (by omega)).bind fun _ _ _ => .pure _

theorem alike_operandOver (hs : ∀ us, us.length < ts.length → Alike 1 us s s')
    (h : ∀ l us, us.length < ts.length → Alike 1 us (p l) (q l)) :
    Alike 1 ts (operandOver s p) (operandOver s' q) := by
  have hpos {k : Keyword} (hc : ts.headD .eof = .word k) : 0 < ts.length :=
    length_pos_of_headD (by rw [hc]; exact nofun)
  refine Alike.peek_bind ?_
  split
  · rename_i hc
    have hlt := hpos hc
    refine Alike.take.bind fun _ us hu => ?_
    refine (Alike.expect _).bind fun _ vs hv => ?_
    refine ((h _ vs (by omega)).weaken (Nat.zero_le 1)).bind fun _ ws hw => ?_
    refine (Alike.expect _).bind fun _ xs hx => ?_
    refine (alike_blockOver fun zs hz => hs zs (by omega)).bind fun _ ys hy => ?_
    exact (alike_alternativeOver fun zs hz => hs zs (by omega)).bind fun _ _ _ => .pure _
  · rename_i hc
    have hlt := hpos hc
    refine Alike.take.bind fun _ us hu => ?_
    refine (Alike.expect _).bind fun _ vs hv => ?_
    refine (alike_items (fun _ _ => alike_ident) _).bind fun _ ws hw => ?_
    exact (alike_blockOver fun zs hz => hs zs (by omega)).bind fun _ _ _ => .pure _
  · exact alike_operand h

theorem alike_expressionOverStep (hs : ∀ us, us.length < ts.length → Alike 1 us s s')
    (h : ∀ l us, us.length < ts.length → Alike 1 us (p l) (q l)) (level : Level) :
    Alike 1 ts (expressionOverStep s p level) (expressionOverStep s' q level) :=
  (alike_operandOver hs h).bind fun _ _ hu =>
    alike_extendAbove (fun l vs hv => h l vs (by omega)) _ _

theorem alike_expressionOver (hs : ∀ us, us.length < ts.length → Alike 1 us s s')
    (level : Level) : Alike 1 ts (expressionOver s level) (expressionOver s' level) := by
  refine alike_fix (fun p q us hus h => ?_) level ts (Nat.le_refl _)
  exact alike_expressionOverStep (fun vs hvs => hs vs (Nat.lt_of_lt_of_le hvs hus)) h

theorem alike_statementStep (h : ∀ us, us.length < ts.length → Alike 1 us s s') :
    Alike 1 ts (statementStep s) (statementStep s') := by
  apply alike_statement
  intro us hus
  exact alike_expressionOver (fun vs hvs => h vs (by omega)) .lowest

end Alike

/-! ## The recursions -/

theorem descends_expressionStep : Descends 1 expressionStep :=
  fun _ _ _ h => alike_expressionStep h

theorem recursion_expression : Recursion expressionStep expression :=
  descends_expressionStep.recursion expression_eq

/-- The statements in the blocks of an expression are read as all statements are. -/
theorem expressionOver_statement :
    expressionOver (statement (expression .lowest)) = expression := by
  have hself : ∀ us, Alike 1 us (statement (expression .lowest)) (statement (expression .lowest)) :=
    alike_statement_expression
  have hstep : Descends 1 (expressionOverStep (statement (expression .lowest))) :=
    fun _ _ _ h => alike_expressionOverStep (fun us _ => hself us) h
  refine hstep.eq_of_unfolds (fix_eq hstep) fun level => ?_
  rw [expressionOverStep, operandOver_statement]
  exact expression_eq level

theorem loop_statement : Loop statementStep (statement (expression .lowest)) := by
  have hstep : Descends 1 fun (self : Unit → Read Stmt) (_ : Unit) => statementStep (self ()) :=
    fun _ _ _ h _ => alike_statementStep (h ())
  refine hstep.recursion fun _ => ?_
  rw [statementStep, expressionOver_statement]

theorem loop_statements : Loop statementsStep statements := by
  have hstep : Descends 0 fun (self : Unit → Read (List Stmt)) (_ : Unit) =>
      statementsStep (self ()) :=
    fun _ _ _ h _ => alike_statementsStep (h ())
  exact hstep.recursion fun _ => statements_eq

theorem loop_blockRest : Loop (blockStep (statement (expression .lowest)))
    (blockRest (statement (expression .lowest))) := by
  have hstep : Descends 0 fun (self : Unit → Read (List Stmt)) (_ : Unit) =>
      blockStep (statement (expression .lowest)) (self ()) :=
    fun _ _ _ h _ => alike_blockStep (fun us _ => alike_statement_expression us) (h ())
  exact hstep.recursion fun _ => blockRest_statement

theorem loop_pairs : Loop (pairsStep (expression .lowest)) (pairs (expression .lowest)) := by
  have hstep : Descends 0 fun (self : Unit → Read (List (Expr × Expr))) (_ : Unit) =>
      pairsStep (expression .lowest) (self ()) :=
    fun _ _ _ h _ => alike_pairsStep (fun us _ => alike_expression .lowest us) (h ())
  exact hstep.recursion fun _ => pairs_expression

theorem loop_moreItems {α : Type} {item : Read α} (h : ∀ us, Alike 0 us item item) :
    Loop (moreItemsStep item) (moreItems item) := by
  have hstep : Descends 0 fun (self : Unit → Read (List α)) (_ : Unit) =>
      moreItemsStep item (self ()) :=
    fun _ _ _ hself _ => alike_moreItemsStep (fun us _ => h us) (hself ())
  exact hstep.recursion fun _ => moreItems_eq h

theorem recursion_extendAbove (level : Level) :
    Recursion (extendStep expression level) (extendAbove expression level) := by
  have hstep : Descends 0 (extendStep expression level) :=
    fun _ _ _ h => alike_extendStep (fun l us _ => alike_expression l us) level (h · ·)
  exact hstep.recursion (extendAbove_expression level)

/-! ## The readers in between -/

theorem advances_of_alike {α : Type} {p : Read α} (h : ∀ ts, Alike 0 ts p p) : Advances p :=
  fun ts => (h ts).2

theorem advances_extend (left : Expr) (k : Follow) : Advances (extend expression left k) := by
  apply advances_of_alike
  intro ts
  cases k with
  | binary op =>
    refine (Alike.take.bind fun _ us _ => ?_).weaken (Nat.zero_le 1)
    exact (alike_expression_zero _ us).bind fun _ _ _ => .pure _
  | call =>
    refine (Alike.take.bind fun _ us _ => ?_).weaken (Nat.zero_le 1)
    exact (alike_items (fun vs _ => alike_expression_zero _ vs) _).bind fun _ _ _ => .pure _
  | index =>
    refine (Alike.take.bind fun _ us _ => ?_).weaken (Nat.zero_le 1)
    refine (alike_expression_zero _ us).bind fun _ _ _ => ?_
    exact (Alike.expect _).bind fun _ _ _ => .pure _

/-! ## Whole texts -/

theorem statements_nil : statements [] = ⟨some [], [], []⟩ := by
  rw [statements_eq]
  rfl

/-- A statement is read, or is not, and the others are read behind it. -/
theorem statements_of_statement (ht : ts.headD .eof ≠ .eof) {s? : Option Stmt} {us : List Token}
    {faults more : List Fault} {ss : List Stmt}
    (hs : statement (expression .lowest) ts = ⟨s?, us, faults⟩)
    (h : statements us = ⟨some ss, [], more⟩) :
    statements ts = ⟨some (s?.toList ++ ss), [], faults ++ more⟩ := by
  have hattempt : attempt (statement (expression .lowest)) ts = ⟨some s?, us, faults⟩ := by
    rw [attempt, hs]
  rw [statements_eq, statementsStep, peek_bind, if_neg ht, bind_of_some hattempt, bind_of_some h,
    pure_apply, List.append_nil]

/-- All statements are read, up to the end of the tokens. -/
theorem exists_statements_eq (h : .eof ∉ ts) :
    ∃ ss faults, statements ts = ⟨some ss, [], faults⟩ := by
  induction hl : ts.length using Nat.strongRecOn generalizing ts with
  | ind n ih =>
    subst hl
    cases ts with
    | nil => exact ⟨[], [], statements_nil⟩
    | cons t us =>
      have ht : (t :: us).headD .eof ≠ .eof := by
        rintro rfl
        exact h List.mem_cons_self
      have hmakes : Makes (Stmt.Built fun _ => True) (t :: us) (statement (expression .lowest)) :=
        makes_statement (fun _ _ => trivial) fun _ _ => makes_expression .lowest fun _ _ => trivial
      have hsuffix := hmakes.suffix
      have hlt := (alike_statement_expression (t :: us)).2
      rcases hs : statement (expression .lowest) (t :: us) with ⟨s?, rest, faults⟩
      rw [hs] at hlt hsuffix
      have hrest : .eof ∉ rest := fun hmem => h (hsuffix.subset hmem)
      obtain ⟨ss, more, hss⟩ := ih rest.length (Nat.lt_succ_of_le hlt) hrest rfl
      exact ⟨s?.toList ++ ss, faults ++ more, statements_of_statement ht hs hss⟩

end Reading

namespace Reader

open Read

theorem unread_readAll_ofSource (source : String) : (ofSource source).readAll.2.unread = [] := by
  obtain ⟨ss, faults, hss⟩ := exists_statements_eq (Token.eof_notMem_scan source)
  change (statements (Token.scan source)).rest = []
  rw [hss]

/-- A text of any kind is read to its end, and something comes out. No reader gives a token back;
and of those that call themselves or go around in a loop, each does so on strictly fewer tokens, and
so comes to an end. -/
theorem readAll_terminates :
    (∀ source, (∃ ss faults, statements (Token.scan source) = ⟨some ss, [], faults⟩) ∧
      (ofSource source).readAll.2.unread = []) ∧
    (Recursion expressionStep expression ∧ Loop statementStep (statement (expression .lowest))) ∧
    (Loop statementsStep statements ∧
      Loop (blockStep (statement (expression .lowest)))
        (blockRest (statement (expression .lowest))) ∧
      (∀ level, Recursion (extendStep expression level) (extendAbove expression level)) ∧
      Loop (moreItemsStep (expression .lowest)) (moreItems (expression .lowest)) ∧
      Loop (moreItemsStep ident) (moreItems ident) ∧
      Loop (pairsStep (expression .lowest)) (pairs (expression .lowest))) ∧
    Advances (operand expression) ∧ (∀ left k, Advances (extend expression left k)) ∧
      (∀ close, Advances (items (expression .lowest) close)) ∧
      Advances ident ∧ Advances (items ident .closeParen) ∧
      Advances (block (expression .lowest)) ∧ Advances (alternative (expression .lowest)) := by
  have hexpression : ∀ us, Alike 1 us (expression .lowest) (expression .lowest) :=
    alike_expression .lowest
  refine ⟨fun source => ⟨?_, unread_readAll_ofSource source⟩,
    ⟨recursion_expression, loop_statement⟩,
    ⟨loop_statements, loop_blockRest, recursion_extendAbove,
      loop_moreItems (alike_expression_zero .lowest), loop_moreItems fun _ => alike_ident,
      loop_pairs⟩, ?_, advances_extend, fun close => ?_, ?_, ?_, ?_, ?_⟩
  · exact exists_statements_eq (Token.eof_notMem_scan source)
  · apply advances_of_alike
    intro ts
    exact (alike_operand fun l us _ => alike_expression l us).weaken (Nat.zero_le 1)
  · exact advances_of_alike fun _ => alike_items (fun us _ => alike_expression_zero _ us) close
  · exact advances_of_alike fun _ => alike_ident
  · exact advances_of_alike fun _ => alike_items (fun _ _ => alike_ident) _
  · exact advances_of_alike fun _ => alike_block fun us _ => hexpression us
  · exact advances_of_alike fun _ => alike_alternative fun us _ => hexpression us

/-- To read `(` as an expression is to look for one behind it. -/
example : Nests expressionStep expression (.lowest, [.sym .openParen]) (.lowest, []) := by
  refine ⟨fun l us => if l = .lowest ∧ us = [] then stuck us else expression l us, ?_, ?_⟩
  · intro l us h
    exact if_neg fun hc => h.elim (absurd hc.1) (absurd hc.2)
  · intro h
    have hfaults := congrArg Outcome.faults h
    revert hfaults
    decide +kernel

end Reader
end Monkey
