import Monkey.Reading.Grammar

/-! # Readers go forward

No reader leaves more tokens than it finds, and a reader of expressions or statements uses up a
token wherever there is one. Hence no circle of readers comes back to where it has been, and each
reader that is made with `Read.fix` satisfies the equation that it is written down with:
`expression_eq`, `statements_eq` and their companions.

Both facts are proved together. `Read.Alike k ts p q` says of two readers that they cannot be told
apart on the tokens `ts`, and that they use up `k` of them. A reader that is built from parts which
are alike is alike as well, and `Read.alike_fix` carries this around a circle.
-/

namespace Monkey

open Reading

namespace Read

variable {α β ι : Type}

/-- Both readers do the same on `ts`, and they use up `k` tokens or all there are. -/
def Alike (k : Nat) (ts : List Token) (p q : Read α) : Prop :=
  p ts = q ts ∧ (p ts).rest.length ≤ ts.length - k

namespace Alike

variable {k m : Nat} {ts : List Token} {p q : Read α}

theorem weaken (h : Alike k ts p q) (hm : m ≤ k) : Alike m ts p q :=
  ⟨h.1, Nat.le_trans h.2 (Nat.sub_le_sub_left hm _)⟩

theorem pure (a : α) : Alike 0 ts (pure a) (pure a) := ⟨rfl, Nat.le_refl _⟩

theorem refuse (f : Fault) : Alike 0 ts (refuse f : Read α) (refuse f) := ⟨rfl, Nat.le_refl _⟩

theorem take : Alike 1 ts take take := ⟨rfl, by simp [Read.take]⟩

theorem attempt (h : Alike k ts p q) : Alike k ts (attempt p) (attempt q) :=
  ⟨by simp only [Read.attempt, h.1], h.2⟩

/-- What follows a reader does not give back what the reader has used up. -/
theorem bind {f g : α → Read β} (h : Alike k ts p q)
    (hf : ∀ a us, us.length ≤ ts.length - k → Alike 0 us (f a) (g a)) :
    Alike k ts (p >>= f) (q >>= g) := by
  obtain ⟨he, hl⟩ := h
  rcases hp : p ts with ⟨_ | a, us, fs⟩
  · rw [hp] at he hl
    rw [Alike, bind_of_none hp, bind_of_none he.symm]
    exact ⟨rfl, hl⟩
  · rw [hp] at he hl
    obtain ⟨hfe, hfl⟩ := hf a us hl
    rw [Alike, bind_of_some hp, bind_of_some he.symm, hfe]
    exact ⟨rfl, Nat.le_trans (hfe ▸ hfl) hl⟩

theorem peek_bind {f g : Token → Read β} (h : Alike k ts (f (ts.headD .eof)) (g (ts.headD .eof))) :
    Alike k ts (Read.peek >>= f) (Read.peek >>= g) := h

theorem take_bind {f g : Token → Read β}
    (h : Alike 0 ts.tail (f (ts.headD .eof)) (g (ts.headD .eof))) :
    Alike 1 ts (Read.take >>= f) (Read.take >>= g) :=
  ⟨h.1, Nat.le_trans h.2 (by simp)⟩

theorem ite {c : Prop} [Decidable c] {p' q' : Read α} (h : c → Alike k ts p q)
    (h' : ¬c → Alike k ts p' q') : Alike k ts (if c then p else p') (if c then q else q') := by
  by_cases hc : c
  · rw [if_pos hc, if_pos hc]
    exact h hc
  · rw [if_neg hc, if_neg hc]
    exact h' hc

theorem expect (t : Token) : Alike 0 ts (expect t) (expect t) :=
  peek_bind (ite (fun _ => take.weaken (Nat.zero_le 1)) fun _ => refuse _)

/-- Where a token is expected and found, there is one less. -/
theorem expect_bind {t : Token} (ht : t ≠ .eof) {f g : Token → Read β}
    (h : ∀ us, us.length < ts.length → Alike 0 us (f t) (g t)) :
    Alike 0 ts (Read.expect t >>= f) (Read.expect t >>= g) := by
  by_cases hc : ts.headD .eof = t
  · have hl : ts.tail.length < ts.length := by
      cases ts with
      | nil => exact absurd hc.symm ht
      | cons _ _ => exact Nat.lt_succ_self _
    obtain ⟨he, hr⟩ := h ts.tail hl
    rw [Alike, bind_of_some (expect_of_head hc), bind_of_some (expect_of_head hc), he]
    exact ⟨rfl, Nat.le_trans (he ▸ hr) (Nat.le_of_lt hl)⟩
  · rw [Alike, bind_of_none (expect_of_ne hc), bind_of_none (expect_of_ne hc)]
    exact ⟨rfl, Nat.le_refl _⟩

theorem skip (t : Token) : Alike 0 ts (skip t) (skip t) :=
  peek_bind (ite (fun _ => (take.weaken (Nat.zero_le 1)).bind fun _ _ _ => pure _) fun _ => pure _)

end Alike

/-- Two readers that are described in terms of themselves are alike, if the descriptions are alike
whenever the readers that they call are alike on less. -/
theorem alike_fix {k n : Nat} {b c : (ι → Read α) → ι → Read α}
    (h : ∀ (p q : ι → Read α) (ts : List Token), ts.length ≤ n →
      (∀ j us, us.length < ts.length → Alike k us (p j) (q j)) → ∀ i, Alike k ts (b p i) (c q i))
    (i : ι) (ts : List Token) (hn : ts.length ≤ n) : Alike k ts (fix b i) (fix c i) := by
  induction hl : ts.length using Nat.strongRecOn generalizing i ts with
  | ind l ih =>
    subst hl
    have hs := h (fun j us => if us.length < ts.length then fix b j us else stuck us)
      (fun j us => if us.length < ts.length then fix c j us else stuck us) ts hn
      (fun j us hlt => by
        obtain ⟨he, hr⟩ := ih us.length hlt j us (by omega) rfl
        simp only [Alike, if_pos hlt]
        exact ⟨he, hr⟩) i
    rw [Alike, fix, fix]
    exact hs

/-- A circle in which every call uses up a token is its own unfolding. -/
theorem fix_eq {k : Nat} {b : (ι → Read α) → ι → Read α}
    (h : ∀ (p q : ι → Read α) (ts : List Token),
      (∀ j us, us.length < ts.length → Alike k us (p j) (q j)) → ∀ i, Alike k ts (b p i) (b q i))
    (i : ι) : fix b i = b (fix b) i := by
  ext ts
  rw [fix]
  refine (h _ _ ts (fun j us hlt => ?_) i).1
  have hs := alike_fix (fun p q ts _ => h p q ts) j us (Nat.le_refl _)
  simpa [Alike, hlt] using hs.2

theorem alike_loop {k n : Nat} {b c : Read α → Read α}
    (h : ∀ (p q : Read α) (ts : List Token), ts.length ≤ n →
      (∀ us, us.length < ts.length → Alike k us p q) → Alike k ts (b p) (c q))
    (ts : List Token) (hn : ts.length ≤ n) : Alike k ts (loop b) (loop c) :=
  alike_fix (fun p q ts hts hself _ => h (p ()) (q ()) ts hts (hself ())) () ts hn

theorem loop_eq {k : Nat} {b : Read α → Read α}
    (h : ∀ (p q : Read α) (ts : List Token),
      (∀ us, us.length < ts.length → Alike k us p q) → Alike k ts (b p) (b q)) :
    loop b = b (loop b) :=
  fix_eq (fun p q ts hself _ => h (p ()) (q ()) ts (hself ())) ()

end Read

namespace Reading

open Read

variable {α : Type} {ts : List Token}

/-- There is a token where one other than the end is seen. -/
theorem length_pos_of_headD (h : ts.headD .eof ≠ .eof) : 0 < ts.length := by
  cases ts with
  | nil => exact absurd rfl h
  | cons _ _ => exact Nat.succ_pos _

/-! ## Lists of items -/

theorem alike_moreItemsStep {p q : Read α} {self self' : Read (List α)}
    (h : ∀ us, us.length ≤ ts.length → Alike 0 us p q)
    (hself : ∀ us, us.length < ts.length → Alike 0 us self self') :
    Alike 0 ts (moreItemsStep p self) (moreItemsStep q self') := by
  refine Alike.peek_bind (Alike.ite (fun hc => ?_) fun _ => .pure _)
  have hpos : 0 < ts.length := length_pos_of_headD (by rw [hc]; decide)
  refine (Alike.take.bind fun _ vs hv => ?_).weaken (Nat.zero_le 1)
  refine (h vs (by omega)).bind fun _ ws hw => ?_
  exact (hself ws (by omega)).bind fun _ _ _ => .pure _

theorem alike_moreItems {p q : Read α} (h : ∀ us, us.length ≤ ts.length → Alike 0 us p q) :
    Alike 0 ts (moreItems p) (moreItems q) :=
  alike_loop (fun _ _ _ hus => alike_moreItemsStep fun vs hv => h vs (Nat.le_trans hv hus)) ts
    (Nat.le_refl _)

theorem moreItems_eq {p : Read α} (h : ∀ us, Alike 0 us p p) :
    moreItems p = moreItemsStep p (moreItems p) :=
  loop_eq fun _ _ _ => alike_moreItemsStep fun us _ => h us

theorem alike_items {p q : Read α} (h : ∀ us, us.length ≤ ts.length → Alike 0 us p q)
    (close : Symbol) : Alike 0 ts (items p close) (items q close) := by
  refine Alike.peek_bind (Alike.ite (fun _ => ?_) fun _ => ?_)
  · exact (Alike.take.bind fun _ _ _ => .pure _).weaken (Nat.zero_le 1)
  · refine (h ts (Nat.le_refl _)).bind fun _ us hu => ?_
    refine (alike_moreItems fun vs hv => h vs (by omega)).bind fun _ _ _ => ?_
    exact (Alike.expect _).bind fun _ _ _ => .pure _

theorem alike_ident : Alike 0 ts ident ident := by
  refine Alike.peek_bind ?_
  split
  · exact (Alike.take.bind fun _ _ _ => .pure _).weaken (Nat.zero_le 1)
  · exact .refuse _

theorem alike_pairEnd : Alike 0 ts pairEnd pairEnd :=
  Alike.peek_bind (Alike.ite (fun _ => .pure _)
    fun _ => (Alike.expect _).bind fun _ _ _ => .pure _)

theorem alike_pairsStep {p q : Read Expr} {self self' : Read (List (Expr × Expr))}
    (h : ∀ us, us.length ≤ ts.length → Alike 1 us p q)
    (hself : ∀ us, us.length < ts.length → Alike 0 us self self') :
    Alike 0 ts (pairsStep p self) (pairsStep q self') := by
  refine Alike.peek_bind (Alike.ite (fun _ => ?_) fun _ => ?_)
  · exact (Alike.take.bind fun _ _ _ => .pure _).weaken (Nat.zero_le 1)
  · refine ((h ts (Nat.le_refl _)).bind fun key vs hv => ?_).weaken (Nat.zero_le 1)
    refine Alike.expect_bind (by decide) fun ws hw => ?_
    refine ((h ws (by omega)).bind fun value xs hx => ?_).weaken (Nat.zero_le 1)
    refine alike_pairEnd.bind fun _ ys hy => ?_
    exact (hself ys (by omega)).bind fun _ _ _ => .pure _

theorem alike_pairs {p q : Read Expr} (h : ∀ us, us.length ≤ ts.length → Alike 1 us p q) :
    Alike 0 ts (pairs p) (pairs q) :=
  alike_loop (fun _ _ _ hus => alike_pairsStep fun vs hv => h vs (Nat.le_trans hv hus)) ts
    (Nat.le_refl _)

theorem pairs_eq {p : Read Expr} (h : ∀ us, Alike 1 us p p) : pairs p = pairsStep p (pairs p) :=
  loop_eq fun _ _ _ => alike_pairsStep fun us _ => h us

/-! ## Statements and blocks -/

theorem alike_statement {p q : Read Expr} (h : ∀ us, us.length ≤ ts.length → Alike 1 us p q) :
    Alike 1 ts (statement p) (statement q) := by
  have hskip {us : List Token} {s : Stmt} {t : Token} :
      Alike 0 us (do skip t; pure s) (do skip t; pure s) :=
    (Alike.skip _).bind fun _ _ _ => .pure _
  refine Alike.peek_bind ?_
  split
  · refine Alike.take.bind fun _ us hu => ?_
    refine alike_ident.bind fun _ vs hv => ?_
    refine (Alike.expect _).bind fun _ ws hw => ?_
    exact ((h ws (by omega)).bind fun _ _ _ => hskip).weaken (Nat.zero_le 1)
  · refine Alike.take.bind fun _ us hu => ?_
    refine Alike.peek_bind ?_
    split
    · exact hskip
    · exact hskip
    · exact hskip
    · exact ((h us (by omega)).bind fun _ _ _ => hskip).weaken (Nat.zero_le 1)
  · exact (h ts (Nat.le_refl _)).bind fun _ _ _ => hskip

theorem alike_blockStep {p q : Read Stmt} {self self' : Read (List Stmt)}
    (h : ∀ us, us.length ≤ ts.length → Alike 1 us p q)
    (hself : ∀ us, us.length < ts.length → Alike 0 us self self') :
    Alike 0 ts (blockStep p self) (blockStep q self') := by
  refine Alike.peek_bind ?_
  split
  · exact (Alike.take.bind fun _ _ _ => .pure _).weaken (Nat.zero_le 1)
  · exact .refuse _
  · rename_i hc
    have hpos := length_pos_of_headD hc
    refine ((h ts (Nat.le_refl _)).attempt.bind fun _ vs hv => ?_).weaken (Nat.zero_le 1)
    exact (hself vs (by omega)).bind fun _ _ _ => .pure _

theorem alike_blockRest {p q : Read Stmt} (h : ∀ us, us.length ≤ ts.length → Alike 1 us p q) :
    Alike 0 ts (blockRest p) (blockRest q) :=
  alike_loop (fun _ _ _ hus => alike_blockStep fun vs hv => h vs (Nat.le_trans hv hus)) ts
    (Nat.le_refl _)

theorem blockRest_eq {p : Read Stmt} (h : ∀ us, Alike 1 us p p) :
    blockRest p = blockStep p (blockRest p) :=
  loop_eq fun _ _ _ => alike_blockStep fun us _ => h us

theorem alike_block {p q : Read Expr} (h : ∀ us, us.length ≤ ts.length → Alike 1 us p q) :
    Alike 0 ts (block p) (block q) := by
  refine Alike.expect_bind (by decide) fun us hu => ?_
  refine (alike_blockRest fun vs hv => alike_statement fun ws hw => h ws (by omega)).bind ?_
  exact fun _ _ _ => .pure _

theorem alike_alternative {p q : Read Expr} (h : ∀ us, us.length ≤ ts.length → Alike 1 us p q) :
    Alike 0 ts (alternative p) (alternative q) := by
  refine Alike.peek_bind (Alike.ite (fun _ => ?_) fun _ => .pure _)
  refine (Alike.take.bind fun _ us hu => ?_).weaken (Nat.zero_le 1)
  exact (alike_block fun vs hv => h vs (by omega)).bind fun _ _ _ => .pure _

/-! ## Expressions -/

theorem alike_number (token : Token) (digits : String) :
    Alike 0 ts (number token digits) (number token digits) := by
  unfold number
  split
  · exact .pure _
  · exact .refuse _

theorem alike_operand {p q : Level → Read Expr}
    (h : ∀ l us, us.length < ts.length → Alike 1 us (p l) (q l)) :
    Alike 1 ts (operand p) (operand q) := by
  cases ts with
  | nil => exact ⟨rfl, Nat.le_refl _⟩
  | cons t us =>
    have hp (l : Level) (vs : List Token) (hv : vs.length ≤ us.length) : Alike 1 vs (p l) (q l) :=
      h l vs (Nat.lt_succ_of_le hv)
    have hp' (l : Level) (vs : List Token) (hv : vs.length ≤ us.length) : Alike 0 vs (p l) (q l) :=
      (hp l vs hv).weaken (Nat.zero_le 1)
    refine Alike.take_bind ?_
    simp only [List.headD_cons, List.tail_cons]
    split
    · exact .pure _
    · exact alike_number _ _
    · exact .pure _
    · exact .pure _
    · exact .pure _
    · exact (hp' _ us (Nat.le_refl _)).bind fun _ _ _ => .pure _
    · exact (hp' _ us (Nat.le_refl _)).bind fun _ _ _ => .pure _
    · refine (hp' _ us (Nat.le_refl _)).bind fun _ _ _ => ?_
      exact (Alike.expect _).bind fun _ _ _ => .pure _
    · refine (Alike.expect _).bind fun _ vs hv => ?_
      refine (hp' _ vs (by omega)).bind fun _ ws hw => ?_
      refine (Alike.expect _).bind fun _ xs hx => ?_
      refine (alike_block fun zs hz => hp _ zs (by omega)).bind fun _ ys hy => ?_
      exact (alike_alternative fun zs hz => hp _ zs (by omega)).bind fun _ _ _ => .pure _
    · refine (Alike.expect _).bind fun _ vs hv => ?_
      refine (alike_items (fun _ _ => alike_ident) _).bind fun _ ws hw => ?_
      exact (alike_block fun zs hz => hp _ zs (by omega)).bind fun _ _ _ => .pure _
    · exact (alike_items (hp' _) _).bind fun _ _ _ => .pure _
    · exact (alike_pairs (hp _)).bind fun _ _ _ => .pure _
    · exact .refuse _

theorem alike_extend {p q : Level → Read Expr}
    (h : ∀ l us, us.length < ts.length → Alike 1 us (p l) (q l)) (hpos : 0 < ts.length)
    (left : Expr) (k : Follow) : Alike 1 ts (extend p left k) (extend q left k) := by
  have hp (l : Level) (vs : List Token) (hv : vs.length ≤ ts.length - 1) :
      Alike 0 vs (p l) (q l) :=
    (h l vs (by omega)).weaken (Nat.zero_le 1)
  cases k with
  | binary op => exact Alike.take.bind fun _ us hu => (hp _ us hu).bind fun _ _ _ => .pure _
  | call =>
    refine Alike.take.bind fun _ us hu => ?_
    exact (alike_items (fun vs hv => hp _ vs (by omega)) _).bind fun _ _ _ => .pure _
  | index =>
    refine Alike.take.bind fun _ us hu => (hp _ us hu).bind fun _ _ _ => ?_
    exact (Alike.expect _).bind fun _ _ _ => .pure _

theorem above?_eof (level : Level) : Follow.above? level .eof = none := rfl

theorem alike_extendStep {p q : Level → Read Expr} {self self' : Expr → Read Expr}
    (h : ∀ l us, us.length < ts.length → Alike 1 us (p l) (q l)) (level : Level)
    (hself : ∀ e us, us.length < ts.length → Alike 0 us (self e) (self' e)) (left : Expr) :
    Alike 0 ts (extendStep p level self left) (extendStep q level self' left) := by
  refine Alike.peek_bind ?_
  split
  · rename_i k hk
    have hpos : 0 < ts.length :=
      length_pos_of_headD fun he => by rw [he, above?_eof] at hk; cases hk
    refine ((alike_extend h hpos left k).bind fun _ vs hv => ?_).weaken (Nat.zero_le 1)
    exact hself _ vs (by omega)
  · exact .pure _

theorem alike_extendAbove {p q : Level → Read Expr}
    (h : ∀ l us, us.length < ts.length → Alike 1 us (p l) (q l)) (level : Level) (left : Expr) :
    Alike 0 ts (extendAbove p level left) (extendAbove q level left) :=
  alike_fix
    (fun _ _ _ hus => alike_extendStep (fun l vs hv => h l vs (Nat.lt_of_lt_of_le hv hus)) level)
    left ts (Nat.le_refl _)

theorem extendAbove_eq {p : Level → Read Expr} (h : ∀ l us, Alike 1 us (p l) (p l))
    (level : Level) (left : Expr) :
    extendAbove p level left = extendStep p level (extendAbove p level) left :=
  fix_eq (fun _ _ _ => alike_extendStep (fun l us _ => h l us) level) left

theorem alike_expressionStep {p q : Level → Read Expr}
    (h : ∀ l us, us.length < ts.length → Alike 1 us (p l) (q l)) (level : Level) :
    Alike 1 ts (expressionStep p level) (expressionStep q level) :=
  (alike_operand h).bind fun _ _ hu => alike_extendAbove (fun l vs hv => h l vs (by omega)) _ _

theorem alike_expression (level : Level) (ts : List Token) :
    Alike 1 ts (expression level) (expression level) :=
  alike_fix (fun _ _ _ _ => alike_expressionStep) level ts (Nat.le_refl _)

theorem expression_eq (level : Level) : expression level = expressionStep expression level :=
  fix_eq (fun _ _ _ => alike_expressionStep) level

/-! ## Programs -/

theorem alike_statementsStep {self self' : Read (List Stmt)}
    (hself : ∀ us, us.length < ts.length → Alike 0 us self self') :
    Alike 0 ts (statementsStep self) (statementsStep self') := by
  refine Alike.peek_bind (Alike.ite (fun _ => .pure _) fun hc => ?_)
  have hpos := length_pos_of_headD hc
  have hs : Alike 1 ts (statement (expression .lowest)) (statement (expression .lowest)) :=
    alike_statement fun us _ => alike_expression .lowest us
  refine (hs.attempt.bind fun _ vs hv => ?_).weaken (Nat.zero_le 1)
  exact (hself vs (by omega)).bind fun _ _ _ => .pure _

theorem statements_eq : statements = statementsStep statements :=
  loop_eq fun _ _ _ => alike_statementsStep

end Reading
end Monkey
