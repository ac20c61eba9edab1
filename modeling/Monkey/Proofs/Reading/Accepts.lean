import Monkey.Reading.Progress

/-! # Reading without a fault

`Read.Accepts p ts a rest` says that `p` reads `a` from the tokens `ts`, leaves `rest`, and finds no
fault. For each way to put readers together there is a lemma that says exactly when the result
accepts, so that an accepting run can be taken apart and put together again.
-/

namespace Monkey

open Reading

namespace Read

variable {α β : Type} {p : Read α} {ts us rest : List Token} {a : α} {b : β} {t : Token}

def Accepts (p : Read α) (ts : List Token) (a : α) (rest : List Token) : Prop :=
  p ts = ⟨some a, rest, []⟩

theorem accepts_pure {a' : α} : Accepts (pure a) ts a' rest ↔ a' = a ∧ rest = ts := by
  rw [Accepts, pure_apply, Outcome.mk.injEq, Option.some.injEq]
  exact ⟨fun h => ⟨h.1.symm, h.2.1.symm⟩, fun h => ⟨h.1.symm, h.2.symm, rfl⟩⟩

theorem accepts_bind {f : α → Read β} :
    Accepts (p >>= f) ts b rest ↔ ∃ a us, Accepts p ts a us ∧ Accepts (f a) us b rest := by
  unfold Accepts
  rcases hp : p ts with ⟨_ | a, us, fs⟩
  · rw [bind_of_none hp]
    constructor
    · intro h
      cases h
    · rintro ⟨a, us, h, -⟩
      cases h
  · rw [bind_of_some hp]
    constructor
    · intro h
      obtain ⟨hv, hr, hf⟩ := Outcome.mk.injEq .. ▸ h
      obtain ⟨rfl, hg⟩ := List.append_eq_nil_iff.1 hf
      refine ⟨a, us, rfl, ?_⟩
      rw [← hv, ← hr, ← hg]
    · rintro ⟨_, _, ⟨⟩, h⟩
      rw [h, List.append_nil]

/-- Behind a reader that accepts, reading goes on as if it had started there. -/
theorem bind_of_accepts {f : α → Read β} (h : Accepts p ts a us) : (p >>= f) ts = f a us := by
  rw [bind_of_some h, List.nil_append]

theorem accepts_peek_bind {f : Token → Read β} :
    Accepts (peek >>= f) ts b rest ↔ Accepts (f (ts.headD .eof)) ts b rest := Iff.rfl

theorem accepts_take_bind {f : Token → Read β} :
    Accepts (take >>= f) ts b rest ↔ Accepts (f (ts.headD .eof)) ts.tail b rest := Iff.rfl

theorem not_accepts_refuse {f : Fault} : ¬Accepts (refuse f) ts a rest := nofun

/-- Where something other than the end is seen, there is a first token. -/
theorem eq_cons_of_headD (h : ts.headD .eof = t) (ht : t ≠ .eof) : ts = t :: ts.tail := by
  cases ts with
  | nil => exact absurd h.symm ht
  | cons _ _ => exact congrArg (· :: _) h

theorem eq_sym_cons {s : Symbol} (h : ts.headD .eof = .sym s) : ts = .sym s :: ts.tail :=
  eq_cons_of_headD h nofun

theorem eq_word_cons {k : Keyword} (h : ts.headD .eof = .word k) : ts = .word k :: ts.tail :=
  eq_cons_of_headD h nofun

/-- A symbol that is expected is the first token. -/
theorem accepts_expect_bind {s : Symbol} {f : Token → Read β} :
    Accepts (expect (.sym s) >>= f) ts b rest ↔
      ∃ us, ts = .sym s :: us ∧ Accepts (f (.sym s)) us b rest := by
  rw [accepts_bind]
  constructor
  · rintro ⟨t, us, ht, hf⟩
    by_cases h : ts.headD .eof = .sym s
    · rw [Accepts, expect_of_head h] at ht
      cases ht
      exact ⟨_, eq_sym_cons h, hf⟩
    · rw [Accepts, expect_of_ne h] at ht
      cases ht
  · rintro ⟨us, rfl, hf⟩
    exact ⟨_, us, expect_of_head rfl, hf⟩

theorem accepts_expect_cons (t : Token) (rest : List Token) :
    Accepts (expect t) (t :: rest) t rest :=
  expect_of_head rfl

theorem accepts_skip_of_head (h : ts.headD .eof = t) : Accepts (skip t) ts () ts.tail := by
  rw [skip, accepts_peek_bind, if_pos h]
  rfl

theorem accepts_skip_of_ne (h : ts.headD .eof ≠ t) : Accepts (skip t) ts () ts := by
  rw [skip, accepts_peek_bind, if_neg h]
  rfl

/-- A symbol that may be there was there, or was not. -/
theorem eq_or_eq_cons_of_accepts_skip {s : Symbol} {u : Unit}
    (h : Accepts (skip (.sym s)) ts u rest) : ts = rest ∨ ts = .sym s :: rest := by
  rw [skip, accepts_peek_bind] at h
  split at h
  · rename_i hc
    cases h
    exact .inr (eq_sym_cons hc)
  · cases h
    exact .inl rfl

theorem accepts_attempt (h : Accepts p ts a rest) : Accepts (attempt p) ts (some a) rest := by
  rw [Accepts, attempt, h]

end Read

namespace Reading

open Read

/-! ## The circles of readers, unrolled once -/

theorem alike_expression_zero (level : Level) (ts : List Token) :
    Alike 0 ts (expression level) (expression level) :=
  (alike_expression level ts).weaken (Nat.zero_le 1)

theorem alike_statement_expression (ts : List Token) :
    Alike 1 ts (statement (expression .lowest)) (statement (expression .lowest)) :=
  alike_statement fun us _ => alike_expression .lowest us

theorem pairs_expression : pairs (expression .lowest) =
    pairsStep (expression .lowest) (pairs (expression .lowest)) :=
  pairs_eq (alike_expression .lowest)

theorem blockRest_statement : blockRest (statement (expression .lowest)) =
    blockStep (statement (expression .lowest)) (blockRest (statement (expression .lowest))) :=
  blockRest_eq alike_statement_expression

theorem extendAbove_expression (level : Level) (left : Expr) :
    extendAbove expression level left =
      extendStep expression level (extendAbove expression level) left :=
  extendAbove_eq alike_expression level left

end Reading
end Monkey
